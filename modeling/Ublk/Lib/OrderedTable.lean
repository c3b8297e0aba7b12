import Mathlib.Data.List.Basic
import Mathlib.Order.Lattice

/-! Tables in the order of their keys, with the search for the first key that is not less. -/
namespace OrderedTable

variable {K V B : Type} [LinearOrder K] {t : List (K × V)} {k k' : K} {v w : V} {e : K × V}
  {g : K × V → List B} {xs ys : List B}

def Sorted (t : List (K × V)) : Prop := (t.map Prod.fst).Pairwise (· < ·)

/-- The first entry whose key is not less. -/
def lowerBound (t : List (K × V)) (k : K) : Option (K × V) := t.find? fun e => k ≤ e.1

/-- That entry, after one is put at the end if there is none. -/
def atLeast (t : List (K × V)) (k : K) (v : V) : (K × V) × List (K × V) :=
  match lowerBound t k with
  | some e => (e, t)
  | none => ((k, v), t ++ [(k, v)])

/-- Replace the value of an entry. -/
def put : List (K × V) → K → V → List (K × V)
  | [], _, _ => []
  | e :: t, k, v => if e.1 = k then (k, v) :: t else e :: put t k v

theorem mem_of_lookup (h : t.lookup k = some v) : (k, v) ∈ t := by
  obtain ⟨l, r, rfl, -⟩ := List.lookup_eq_some_iff.mp h
  simp

theorem lookup_of_mem (h : Sorted t) (he : e ∈ t) : t.lookup e.1 = some e.2 := by
  obtain ⟨l, r, rfl⟩ := List.append_of_mem he
  refine List.lookup_eq_some_iff.mpr ⟨l, r, rfl, fun p hp => ?_⟩
  rw [Sorted, List.map_append, List.map_cons] at h
  have hlt := (List.pairwise_append.mp h).2.2 p.1 (List.mem_map_of_mem hp) e.1 (.head _)
  simpa using ne_of_gt hlt

theorem keys_put : (put t k v).map Prod.fst = t.map Prod.fst := by
  induction t with
  | nil => rfl
  | cons e t ih =>
    rw [put]
    split
    · rename_i he
      rw [List.map_cons, List.map_cons, he]
    · rw [List.map_cons, List.map_cons, ih]

theorem sorted_put (h : Sorted t) : Sorted (put t k v) := by
  rwa [Sorted, keys_put]

theorem mem_put (h : e ∈ put t k v) : e = (k, v) ∨ e ∈ t := by
  induction t with
  | nil => cases h
  | cons x t ih =>
    rw [put] at h
    split at h
    · rcases List.mem_cons.mp h with rfl | h
      · exact .inl rfl
      · exact .inr (.tail _ h)
    · rcases List.mem_cons.mp h with rfl | h
      · exact .inr (.head _)
      · exact (ih h).imp_right (.tail _)

theorem lookup_put_self (h : t.lookup k = some w) : (put t k v).lookup k = some v := by
  induction t with
  | nil => cases h
  | cons x t ih =>
    rw [put]
    by_cases he : x.1 = k
    · simp [if_pos he]
    · have hne : (k == x.1) = false := by simpa using Ne.symm he
      rw [if_neg he, List.lookup_cons, hne]
      rw [List.lookup_cons, hne] at h
      exact ih h

theorem lookup_put_of_ne (h : k' ≠ k) : (put t k v).lookup k' = t.lookup k' := by
  induction t with
  | nil => rfl
  | cons x t ih =>
    rw [put]
    by_cases he : x.1 = k
    · have hne : (k' == k) = false := by simpa using h
      rw [if_pos he, List.lookup_cons, List.lookup_cons, he, hne]
    · rw [if_neg he, List.lookup_cons, List.lookup_cons, ih]

/-- What the entries hold changes as the entry's value does. -/
theorem flatMap_put (h : t.lookup k = some w)
    (hg : (g (k, w) ++ xs).Perm (g (k, v) ++ ys)) :
    (t.flatMap g ++ xs).Perm ((put t k v).flatMap g ++ ys) := by
  induction t with
  | nil => cases h
  | cons x t ih =>
    rw [put]
    by_cases he : x.1 = k
    · obtain ⟨k', u⟩ := x
      subst he
      obtain rfl : u = w := by simpa using h
      rw [if_pos rfl, List.flatMap_cons, List.flatMap_cons]
      calc g (k', u) ++ t.flatMap g ++ xs
        _ = g (k', u) ++ (t.flatMap g ++ xs) := List.append_assoc ..
        _ |>.Perm (g (k', u) ++ (xs ++ t.flatMap g)) := List.perm_append_comm.append_left _
        _ = g (k', u) ++ xs ++ t.flatMap g := (List.append_assoc ..).symm
        _ |>.Perm (g (k', v) ++ ys ++ t.flatMap g) := hg.append_right _
        _ = g (k', v) ++ (ys ++ t.flatMap g) := List.append_assoc ..
        _ |>.Perm (g (k', v) ++ (t.flatMap g ++ ys)) := List.perm_append_comm.append_left _
        _ = g (k', v) ++ t.flatMap g ++ ys := (List.append_assoc ..).symm
    · have hne : (k == x.1) = false := by simpa using Ne.symm he
      rw [List.lookup_cons, hne] at h
      rw [if_neg he, List.flatMap_cons, List.flatMap_cons, List.append_assoc, List.append_assoc]
      exact (ih h).append_left _

/-- The entry found is in the table, and its key is not less. -/
theorem atLeast_spec (h : Sorted t) :
    k ≤ (atLeast t k v).1.1 ∧ Sorted (atLeast t k v).2 ∧
      (atLeast t k v).2.lookup (atLeast t k v).1.1 = some (atLeast t k v).1.2 := by
  rw [atLeast]
  cases hb : lowerBound t k with
  | some e =>
    have hk : k ≤ e.1 := by simpa using List.find?_some hb
    exact ⟨hk, h, lookup_of_mem h (List.mem_of_find?_eq_some hb)⟩
  | none =>
    have hlt : ∀ e ∈ t, e.1 < k := fun e he => by simpa using List.find?_eq_none.mp hb e he
    have hs : Sorted (t ++ [(k, v)]) := by
      rw [Sorted, List.map_append]
      refine List.pairwise_append.mpr ⟨h, List.pairwise_singleton _ _, ?_⟩
      intro a ha b hb
      obtain ⟨e, he, rfl⟩ := List.mem_map.mp ha
      obtain rfl := List.mem_singleton.mp hb
      exact hlt e he
    exact ⟨le_rfl, hs, lookup_of_mem hs (List.mem_append_right _ (.head _))⟩

/-- A new entry has the key that was looked for. -/
theorem mem_atLeast (h : e ∈ (atLeast t k v).2) : e = (k, v) ∨ e ∈ t := by
  rw [atLeast] at h
  cases hb : lowerBound t k with
  | some e =>
    rw [hb] at h
    exact .inr h
  | none =>
    rw [hb] at h
    rcases List.mem_append.mp h with h | h
    · exact .inr h
    · exact .inl (List.mem_singleton.mp h)

theorem lookup_atLeast (h : t.lookup k' = some w) : (atLeast t k v).2.lookup k' = some w := by
  rw [atLeast]
  cases lowerBound t k with
  | some e => exact h
  | none =>
    dsimp only
    rw [List.lookup_append, h]
    rfl

theorem flatMap_atLeast (h : g (k, v) = []) : (atLeast t k v).2.flatMap g = t.flatMap g := by
  rw [atLeast]
  cases lowerBound t k with
  | some e => rfl
  | none => simp [h]

/-- A key is erased with its first entry. -/
theorem eraseP_of_lookup (h : t.lookup k = some v) : ∃ l r, t = l ++ (k, v) :: r ∧
    t.eraseP (fun e => e.1 == k) = l ++ r ∧ (t.map Prod.fst).erase k = (l ++ r).map Prod.fst := by
  obtain ⟨l, r, rfl, hl⟩ := List.lookup_eq_some_iff.mp h
  have hne : ∀ e ∈ l, e.1 ≠ k := fun e he => Ne.symm (by simpa using hl e he)
  have hmem : k ∉ l.map Prod.fst := by
    intro hk
    obtain ⟨e, he, hke⟩ := List.mem_map.mp hk
    exact hne e he hke
  refine ⟨l, r, rfl, ?_, ?_⟩
  · rw [List.eraseP_append_right _ (by simpa using hne)]
    simp
  · rw [List.map_append, List.map_cons, List.erase_append_right _ hmem, List.erase_cons_head,
      List.map_append]

end OrderedTable
