import Mathlib.Data.List.Basic

/-! The map a cache with least-recently-used replacement keeps: its entries, the latest used first. -/
namespace Lru

variable {K V : Type} [DecidableEq K] {l : List (K × V)} {k j : K} {v : V} {n : Nat}

def keys (l : List (K × V)) : List K := l.map Prod.fst

def erase (k : K) (l : List (K × V)) : List (K × V) := l.filter fun p => p.1 ≠ k

/-- `k` becomes the latest used one, if it is there. -/
def use (k : K) (l : List (K × V)) : List (K × V) := (l.filter fun p => p.1 = k) ++ erase k l

/-- The entries a new value of `k` leaves: an absent key costs the oldest one when all `n` are taken. -/
def spare (n : Nat) (k : K) (l : List (K × V)) : List (K × V) :=
  if k ∈ keys l then erase k l else if l.length < n then l else l.dropLast

def put (n : Nat) (k : K) (v : V) (l : List (K × V)) : List (K × V) := (k, v) :: spare n k l

/-- The entry `put` drops for an absent key. -/
def dropped (n : Nat) (l : List (K × V)) : Option (K × V) :=
  if l.length < n then none else l.getLast?

/-- Write to the value of `k`. -/
def amend (k : K) (f : V → V) (l : List (K × V)) : List (K × V) :=
  l.map fun p => if p.1 = k then (p.1, f p.2) else p

theorem erase_of_absent (h : k ∉ keys l) : erase k l = l :=
  List.filter_eq_self.mpr fun p hp => by
    simpa using fun he => h (List.mem_map.mpr ⟨p, hp, he⟩)

theorem use_of_absent (h : k ∉ keys l) : use k l = l := by
  rw [use, erase_of_absent h, List.filter_eq_nil_iff.mpr, List.nil_append]
  exact fun p hp => by simpa using fun he => h (List.mem_map.mpr ⟨p, hp, he⟩)

theorem use_of_mem (hnd : (keys l).Nodup) (h : (k, v) ∈ l) : use k l = (k, v) :: erase k l := by
  have hone : l.filter (fun p => p.1 = k) = [(k, v)] := by
    induction l with
    | nil => cases h
    | cons p l ih =>
      obtain ⟨hp, hl⟩ := List.nodup_cons.mp hnd
      obtain rfl | h := List.mem_cons.mp h
      · rw [List.filter_cons_of_pos (by simp), List.filter_eq_nil_iff.mpr]
        exact fun q hq => by simpa using fun he => hp (List.mem_map.mpr ⟨q, hq, he⟩)
      · have hne : p.1 ≠ k := fun he => hp (List.mem_map.mpr ⟨(k, v), h, he.symm⟩)
        rw [List.filter_cons_of_neg (by simpa using hne), ih hl h]
  rw [use, hone, List.singleton_append]

theorem amend_of_absent {f : V → V} (h : k ∉ keys l) : amend k f l = l :=
  (List.map_congr_left fun p hp => if_neg fun he => h (List.mem_map.mpr ⟨p, hp, he⟩)).trans
    (List.map_id l)

theorem not_mem_keys_erase : k ∉ keys (erase k l) := fun h => by
  obtain ⟨p, hp, rfl⟩ := List.mem_map.mp h
  simpa using (List.mem_filter.mp hp).2

end Lru
