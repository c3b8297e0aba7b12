import Mathlib.Data.List.Basic
import Mathlib.Data.List.Nodup
import Mathlib.Data.List.Perm.Basic
import Mathlib.Order.Lattice
import Mathlib.Order.Nat

/-!
The sorted vector behind both caches. A slot keeps its key after it was invalidated, so the search
runs over valid and invalid slots together; the mark of an invalid slot is the reference count
`len_max`, and taking a slot ages every slot whose count is below its own.
-/

namespace Ublk.Cache

/-- A slot: its key, its buffer unless it was reset, and its reference count. -/
structure Item (K β : Type) where
  key : K
  data : Option β
  refs : Nat

section Slots

variable {K β : Type} {n i r : Nat} {e : Item K β} {l A B : List (Item K β)}

def Item.isValid (n : Nat) (e : Item K β) : Bool := e.refs ≠ n

def Item.invalidate (n : Nat) (e : Item K β) : Item K β := { e with refs := n, data := none }

/-- One step of `touch`: a slot below the count `r` grows older. -/
def Item.age (r : Nat) (e : Item K β) : Item K β :=
  if e.refs < r then { e with refs := e.refs + 1 } else e

def touch (i : Nat) (l : List (Item K β)) : List (Item K β) :=
  match l[i]? with
  | none => l
  | some eo => (l.map (Item.age eo.refs)).set i { eo with refs := 0 }

/-- The loop of `evict_index_find` from slot `i` on, with the best slot so far and its count. -/
def evictLoop (n : Nat) : List (Item K β) → Nat → Nat → Nat → Nat
  | [], _, best, _ => best
  | e :: l, i, best, refs =>
    if refs < e.refs then if e.isValid n then evictLoop n l (i + 1) i e.refs else i
    else evictLoop n l (i + 1) best refs

def evictIndexFind (n : Nat) : List (Item K β) → Nat
  | [] => 0
  | e :: l => if e.isValid n then evictLoop n l 1 0 e.refs else 0

/-- `std::rotate` of the slots from `first` to `last`: the one at `middle` comes first. -/
def rotate (first middle last : Nat) (l : List (Item K β)) : List (Item K β) :=
  l.take first ++ (l.take last).drop middle ++ (l.take middle).drop first ++ l.drop last

/-- What a slot gave up: its key and its buffer, if it had one. -/
def Item.handBack (e : Item K β) : Option (K × β) := e.data.map fun b => (e.key, b)

/-- The new key and buffer put into slot `i`, and what was there. -/
def exchange (i : Nat) (k : K) (d : Option β) (l : List (Item K β)) :
    Option (K × β) × List (Item K β) :=
  match l[i]? with
  | none => (none, l)
  | some e => (e.handBack, touch i (l.set i { e with key := k, data := d }))

/-- No count exceeds the mark. -/
def Marked (n : Nat) (l : List (Item K β)) : Prop := ∀ e ∈ l, e.refs ≤ n

@[simp] theorem key_age : (e.age r).key = e.key := by unfold Item.age; split <;> rfl

@[simp] theorem data_age : (e.age r).data = e.data := by unfold Item.age; split <;> rfl

@[simp] theorem key_invalidate : (e.invalidate n).key = e.key := rfl

@[simp] theorem isValid_invalidate : (e.invalidate n).isValid n = false := by
  simp [Item.invalidate, Item.isValid]

theorem isValid_new {k : K} {d : Option β} (h : 0 < n) : (Item.mk k d 0).isValid n = true := by
  simp only [Item.isValid, ne_eq, decide_eq_true_eq]
  omega

theorem isValid_iff : e.isValid n = true ↔ e.refs ≠ n := by simp [Item.isValid]

/-- Aging below a count that is not the mark marks nothing. -/
theorem isValid_age (h : r < n) : (e.age r).isValid n = e.isValid n := by
  unfold Item.age
  split
  · simp only [Item.isValid, ne_eq, decide_eq_decide]
    omega
  · rfl

theorem isValid_of_age (h : r ≤ n) (hv : (e.age r).isValid n = true) : e.isValid n = true := by
  unfold Item.age at hv
  split at hv
  · simp only [Item.isValid, ne_eq, decide_eq_true_eq]
    omega
  · exact hv

theorem refs_age_of_lt (h : e.refs < r) : (e.age r).refs = e.refs + 1 := by simp [Item.age, h]

theorem refs_age_of_ge (h : r ≤ e.refs) : (e.age r).refs = e.refs := by
  simp [Item.age, Nat.not_lt.mpr h]

theorem refs_age_le (h : r ≤ n) (he : e.refs ≤ n) : (e.age r).refs ≤ n := by
  unfold Item.age
  split
  · exact Nat.succ_le_of_lt (Nat.lt_of_lt_of_le ‹_› h)
  · exact he

/-- Slots of other ages than `r` keep their order when those below it grow older, and none is 0. -/
theorem pairwise_age {R : List (Item K β)} {k : K} {d : Option β}
    (hp : R.Pairwise fun a b => a.refs < b.refs) (hne : ∀ x ∈ R, x.refs ≠ r) :
    (Item.mk k d 0 :: R.map (Item.age r)).Pairwise fun a b => a.refs < b.refs := by
  refine List.pairwise_cons.mpr ⟨fun y hy => ?_, List.pairwise_map.mpr ?_⟩
  · obtain ⟨x, hx, rfl⟩ := List.mem_map.mp hy
    obtain hlt | hge := Nat.lt_or_ge x.refs r
    · simp [refs_age_of_lt hlt]
    · have := hne x hx
      simp only [refs_age_of_ge hge]
      omega
  · refine hp.imp_of_mem fun {a b} ha hb hab => ?_
    have hbne := hne b hb
    obtain ha | ha := Nat.lt_or_ge a.refs r <;> obtain hb | hb := Nat.lt_or_ge b.refs r
    · rw [refs_age_of_lt ha, refs_age_of_lt hb]
      omega
    · rw [refs_age_of_lt ha, refs_age_of_ge hb]
      omega
    · rw [refs_age_of_ge ha, refs_age_of_lt hb]
      omega
    · rw [refs_age_of_ge ha, refs_age_of_ge hb]
      exact hab

/-- Nothing is marked by aging below `r` when `r` is not the mark or no live slot is next to it. -/
theorem isValid_age_iff (hr : r ≤ n) {x : Item K β} (hm : x.refs ≤ n)
    (hage : r = n → x.isValid n = true → x.refs + 1 ≠ n) :
    (x.age r).isValid n = x.isValid n := by
  obtain hr | rfl := hr.lt_or_eq
  · exact isValid_age hr
  · by_cases hv : x.isValid r = true
    · have hne := isValid_iff.mp hv
      rw [hv, isValid_iff, refs_age_of_lt (by omega)]
      exact hage rfl hv
    · have heq : x.refs = r := by simpa [isValid_iff] using hv
      simp [Item.age, heq]

theorem keys_touch : (touch i l).map Item.key = l.map Item.key := by
  unfold touch
  split
  · rfl
  · rename_i eo hi
    obtain ⟨hlt, heq⟩ := List.getElem?_eq_some_iff.mp hi
    have hmap : l.map (Item.key ∘ Item.age eo.refs) = l.map Item.key :=
      List.map_congr_left fun x _ => key_age
    have hlt' : i < (l.map Item.key).length := by simpa using hlt
    have hkey : eo.key = (l.map Item.key)[i] := by simp [heq]
    rw [List.map_set, List.map_map, hmap]
    exact hkey ▸ List.set_getElem_self _

theorem live_drop {p : K → Bool} :
    (l.map fun e => if p e.key then e.invalidate n else e).filter (Item.isValid n) =
      (l.filter (Item.isValid n)).filter fun e => !p e.key := by
  induction l with
  | nil => rfl
  | cons e l ih =>
    rw [List.map_cons, List.filter_cons, List.filter_cons, ih]
    cases hp : p e.key <;> cases hv : e.isValid n <;> simp [hp, hv]

theorem touch_append : touch A.length (A ++ e :: B) =
    A.map (Item.age e.refs) ++ { e with refs := 0 } :: B.map (Item.age e.refs) := by
  simp [touch]

theorem exchange_append {k : K} {d : Option β} : exchange A.length k d (A ++ e :: B) = (e.handBack,
    A.map (Item.age e.refs) ++ ⟨k, d, 0⟩ :: B.map (Item.age e.refs)) := by
  have h : (A ++ e :: B).set A.length { e with key := k, data := d } =
      A ++ { e with key := k, data := d } :: B := by simp
  simp [exchange, h, touch_append]

theorem modify_append {g : Item K β → Item K β} :
    (A ++ e :: B).modify A.length g = A ++ g e :: B := by
  induction A with
  | nil => rfl
  | cons x A ih => simp [ih]

theorem keys_modify {g : Item K β → Item K β} (hg : ∀ e, (g e).key = e.key) :
    (l.modify i g).map Item.key = l.map Item.key := by
  induction l generalizing i with
  | nil => simp
  | cons x l ih =>
    cases i with
    | zero => simp [hg]
    | succ i => simp [ih]

theorem mem_modify {g : Item K β → Item K β} (h : e ∈ l.modify i g) : e ∈ l ∨ ∃ x ∈ l, e = g x := by
  induction l generalizing i with
  | nil => simp at h
  | cons x l ih =>
    cases i with
    | zero =>
      obtain rfl | h := by simpa using h
      · exact .inr ⟨x, by simp, rfl⟩
      · exact .inl (by simp [h])
    | succ i =>
      obtain rfl | h := by simpa using h
      · exact .inl (by simp)
      · obtain h | ⟨y, hy, rfl⟩ := ih h
        · exact .inl (by simp [h])
        · exact .inr ⟨y, by simp [hy], rfl⟩

theorem marked_touch (h : Marked n l) : Marked n (touch i l) := by
  unfold touch
  split
  · exact h
  · rename_i eo hi
    intro x hx
    obtain hx | rfl := List.mem_or_eq_of_mem_set hx
    · obtain ⟨y, hy, rfl⟩ := List.mem_map.mp hx
      exact refs_age_le (h eo (List.mem_of_getElem? hi)) (h y hy)
    · exact Nat.zero_le n

theorem marked_modify {g : Item K β → Item K β} (hg : ∀ e, e.refs ≤ n → (g e).refs ≤ n)
    (h : Marked n l) : Marked n (l.modify i g) := by
  intro x hx
  obtain hx | ⟨y, hy, rfl⟩ := mem_modify hx
  · exact h x hx
  · exact hg y (h y hy)

theorem insertIdx_append : (A ++ B).insertIdx A.length e = A ++ e :: B := by
  induction A with
  | nil => rfl
  | cons x A ih => simp [ih]

/-- Two neighbouring stretches change places. -/
theorem rotate_append {X Y C : List (Item K β)} (hm : i = A.length + X.length)
    (hl : r = i + Y.length) : rotate A.length i r (A ++ X ++ Y ++ C) = A ++ Y ++ X ++ C := by
  have hfirst : (A ++ X ++ Y ++ C).take A.length = A := by simp [List.append_assoc]
  have hlast : (A ++ X ++ Y ++ C).take r = A ++ X ++ Y :=
    List.take_left' (by simp [hm, hl, Nat.add_assoc])
  have hmid : (A ++ X ++ Y ++ C).take i = A ++ X := by
    rw [List.append_assoc]
    exact List.take_left' (by simp [hm])
  rw [rotate, hfirst, hlast, hmid, List.drop_left' (by simp [hm]), List.drop_left' rfl,
    List.drop_left' (by simp [hm, hl, Nat.add_assoc])]

theorem evictLoop_spec {X Y : List (Item K β)} {b : Item K β} (hm : ∀ e ∈ l, e.refs ≤ n)
    (hb : ∀ x ∈ X ++ b :: Y, x.refs ≤ b.refs) :
    ∃ A e B, X ++ b :: Y ++ l = A ++ e :: B ∧
      evictLoop n l (X ++ b :: Y).length X.length b.refs = A.length ∧
      ∀ x ∈ X ++ b :: Y ++ l, x.refs ≤ e.refs := by
  induction l generalizing X b Y with
  | nil => exact ⟨X, b, Y, by simp, rfl, by simpa using hb⟩
  | cons e l ih =>
    have he := hm e (by simp)
    have hl : ∀ x ∈ l, x.refs ≤ n := fun x hx => hm x (by simp [hx])
    rw [evictLoop]
    split
    · rename_i hlt
      have hbe : ∀ x ∈ X ++ b :: Y ++ [e], x.refs ≤ e.refs := fun x hx => by
        obtain hx | hx := List.mem_append.mp hx
        · exact (hb x hx).trans hlt.le
        · rw [List.mem_singleton.mp hx]
      split
      · obtain ⟨A, e', B, heq, hi, hmax⟩ := ih (X := X ++ b :: Y) (Y := []) hl hbe
        refine ⟨A, e', B, by simpa using heq, ?_, by simpa using hmax⟩
        rw [← hi, @List.length_append _ _ [e]]
        rfl
      · -- an invalid slot carries the largest count there is
        rename_i hv
        have hmark : e.refs = n := by simpa [Item.isValid] using hv
        refine ⟨X ++ b :: Y, e, l, rfl, rfl, fun x hx => ?_⟩
        obtain hx | hx := List.mem_append.mp hx
        · exact hbe x (List.mem_append_left _ hx)
        · rw [hmark]
          exact hm x hx
    · rename_i hle
      have hbe : ∀ x ∈ X ++ b :: (Y ++ [e]), x.refs ≤ b.refs := fun x hx => by
        obtain hx | rfl : x ∈ X ++ b :: Y ∨ x = e := by simpa [or_assoc] using hx
        · exact hb x hx
        · exact not_lt.mp hle
      obtain ⟨A, e', B, heq, hi, hmax⟩ := ih (Y := Y ++ [e]) hl hbe
      refine ⟨A, e', B, by simpa using heq, ?_, by simpa using hmax⟩
      rw [← hi]
      simp [Nat.add_assoc]

theorem evictIndexFind_spec (hne : l ≠ []) (hm : ∀ e ∈ l, e.refs ≤ n) :
    ∃ A e B, l = A ++ e :: B ∧ evictIndexFind n l = A.length ∧ ∀ x ∈ l, x.refs ≤ e.refs := by
  cases l with
  | nil => exact absurd rfl hne
  | cons e l =>
    rw [evictIndexFind]
    split
    · exact evictLoop_spec (X := []) (Y := []) (fun x hx => hm x (by simp [hx])) (by simp)
    · rename_i hv
      have hmark : e.refs = n := by simpa [Item.isValid] using hv
      exact ⟨[], e, l, rfl, rfl, fun x hx => hmark ▸ hm x hx⟩

end Slots

section Keys

variable {K β : Type} [LinearOrder K] {n : Nat} {k lo hi : K} {d : Option β}
  {e : Item K β} {l A B : List (Item K β)}

/-- `lower_bound` over the keys. -/
def lowerBound (k : K) (l : List (Item K β)) : Nat := l.findIdx fun e => !decide (e.key < k)

def lowerBoundFind (n : Nat) (k : K) (l : List (Item K β)) : Nat × Bool :=
  (lowerBound k l, l[lowerBound k l]?.any fun e => decide (k = e.key) && e.isValid n)

def update (n : Nat) (k : K) (d : Option β) (l : List (Item K β)) :
    Option (K × β) × List (Item K β) :=
  let (index, exact) := lowerBoundFind n k l
  if !exact && (!decide (index < l.length) || l[index]?.any (Item.isValid n)) then
    if l.length < n then (none, touch index (l.insertIdx index ⟨k, d, n⟩))
    else
      let evict := evictIndexFind n l
      if evict < index then exchange (index - 1) k d (rotate evict (evict + 1) index l)
      else exchange index k d (rotate index evict (evict + 1) l)
  else exchange index k d l

def rangeFind (lo hi : K) (l : List (Item K β)) : Nat × Nat :=
  let first := lowerBound lo l
  (first, first + lowerBound hi (l.drop first))

def invalidateRange (n : Nat) (lo hi : K) (l : List (Item K β)) : List (Item K β) :=
  let (first, last) := rangeFind lo hi l
  l.take first ++ ((l.take last).drop first).map (Item.invalidate n) ++ l.drop last

/-- The order `lower_bound` relies on. -/
def Sorted (l : List (Item K β)) : Prop := l.Pairwise fun a b => a.key < b.key

theorem lowerBound_append (hA : ∀ e ∈ A, e.key < k) (hB : ∀ e ∈ B, k ≤ e.key) :
    lowerBound k (A ++ B) = A.length := by
  unfold lowerBound
  induction A with
  | nil =>
    cases B with
    | nil => rfl
    | cons e B =>
      have he := not_lt.mpr (hB e (by simp))
      simp [List.findIdx_cons, he]
  | cons e A ih =>
    have he := hA e (by simp)
    rw [List.cons_append, List.findIdx_cons, ih fun x hx => hA x (by simp [hx])]
    simp [he]

/-- The slots below a key and the others. -/
theorem exists_split (h : Sorted l) (k : K) :
    ∃ A B, l = A ++ B ∧ (∀ e ∈ A, e.key < k) ∧ ∀ e ∈ B, k ≤ e.key := by
  induction l with
  | nil => exact ⟨[], [], by simp⟩
  | cons x l ih =>
    obtain ⟨hx, hl⟩ := List.pairwise_cons.mp h
    by_cases hk : x.key < k
    · obtain ⟨A, B, rfl, hA, hB⟩ := ih hl
      exact ⟨x :: A, B, rfl, by simpa [hk] using hA, hB⟩
    · have hk := le_of_not_gt hk
      refine ⟨[], x :: l, rfl, by simp, fun e he => ?_⟩
      obtain rfl | he := List.mem_cons.mp he
      · exact hk
      · exact hk.trans (hx e he).le

theorem lowerBoundFind_append (hA : ∀ e ∈ A, e.key < k) (hB : ∀ e ∈ B, k ≤ e.key) :
    lowerBoundFind n k (A ++ B) =
      (A.length, B.head?.any fun e => decide (k = e.key) && e.isValid n) := by
  rw [lowerBoundFind, lowerBound_append hA hB, List.getElem?_append_right le_rfl,
    Nat.sub_self, ← List.head?_eq_getElem?]

/-- What gives way to a key: its own slot, an invalid one, nothing or the oldest. -/
inductive GivesWay (n : Nat) (k : K) (l : List (Item K β)) : Option (Item K β) → Prop
  | own (e : Item K β) (hk : e.key = k) (hv : e.isValid n) : GivesWay n k l (some e)
  | invalid (e : Item K β) (hv : e.refs = n) (hk : ∀ x ∈ l, x.key = k → ¬ x.isValid n) :
      GivesWay n k l (some e)
  | oldest (e : Item K β) (hlen : l.length = n) (hv : ∀ x ∈ l, x.isValid n)
      (hmax : ∀ x ∈ l, x.refs ≤ e.refs) (hk : ∀ x ∈ l, x.key ≠ k) : GivesWay n k l (some e)
  | free (hlen : l.length < n) (hk : ∀ x ∈ l, x.key ≠ k) : GivesWay n k l none

/-- The count below which slots age. -/
def rank (n : Nat) (v : Option (Item K β)) : Nat := (v.map Item.refs).getD n

/-- What `update` does to slots in order: `v` gives way, the others stay where the order wants. -/
structure Updates (n : Nat) (k : K) (d : Option β) (l A B : List (Item K β))
    (v : Option (Item K β)) : Prop where
  result : update n k d l = (v.bind Item.handBack,
    A.map (Item.age (rank n v)) ++ ⟨k, d, 0⟩ :: B.map (Item.age (rank n v)))
  sub : (A ++ B).Sublist l
  perm : l.Perm (v.toList ++ (A ++ B))
  below : ∀ e ∈ A, e.key < k
  above : ∀ e ∈ B, k < e.key
  way : GivesWay n k l v

/-- The branch of a key that has no slot of its own to go to. -/
theorem update_of_absent (hA : ∀ e ∈ A, e.key < k) (hB : ∀ e ∈ B, k < e.key)
    (hv : ∀ e ∈ B.head?, e.isValid n) : update n k d (A ++ B) =
      if (A ++ B).length < n then
        (none, touch A.length ((A ++ B).insertIdx A.length ⟨k, d, n⟩))
      else if evictIndexFind n (A ++ B) < A.length then
        exchange (A.length - 1) k d
          (rotate (evictIndexFind n (A ++ B)) (evictIndexFind n (A ++ B) + 1) A.length (A ++ B))
      else exchange A.length k d
        (rotate A.length (evictIndexFind n (A ++ B)) (evictIndexFind n (A ++ B) + 1) (A ++ B)) := by
  rw [update, lowerBoundFind_append hA fun e he => (hB e he).le]
  refine if_pos ?_
  cases B with
  | nil => simp
  | cons e B => simp [hv e rfl, (hB e (by simp)).ne]

theorem updates_absent (hm : Marked n (A ++ B)) (hlen : (A ++ B).length ≤ n) (hn : 0 < n)
    (hA : ∀ e ∈ A, e.key < k) (hB : ∀ e ∈ B, k < e.key) (hv : ∀ e ∈ B.head?, e.isValid n) :
    ∃ A' B' v, Updates n k d (A ++ B) A' B' v := by
  have hu := update_of_absent (d := d) hA hB hv
  have hk : ∀ x ∈ A ++ B, x.key ≠ k := fun x hx => by
    obtain hx | hx := List.mem_append.mp hx
    · exact (hA x hx).ne
    · exact (hB x hx).ne'
  split at hu
  · rename_i hlt
    rw [insertIdx_append, touch_append] at hu
    exact ⟨A, B, none, hu, List.Sublist.refl _, List.Perm.refl _, hA, hB, .free hlt hk⟩
  rename_i hfull
  have hlen := hlen.antisymm (not_lt.mp hfull)
  have hne : A ++ B ≠ [] := fun he => by
    rw [he] at hlen
    exact hn.ne hlen
  obtain ⟨X, e, Y, hXY, hi, hmax⟩ := evictIndexFind_spec hne hm
  have hway : GivesWay n k (A ++ B) (some e) := by
    by_cases hv : e.refs = n
    · exact .invalid e hv fun x hx he => absurd he (hk x hx)
    · refine .oldest e hlen (fun x hx => ?_) hmax hk
      have hx := hmax x hx
      have he := hm e (by simp [hXY])
      simp only [Item.isValid, ne_eq, decide_eq_true_eq]
      omega
  rw [hi] at hu
  split at hu
  · -- the slot lies before the place of the key
    rename_i hlt
    obtain ⟨C, rfl, rfl⟩ : ∃ C, A = X ++ e :: C ∧ Y = C ++ B := by
      obtain ⟨C, rfl, -⟩ | ⟨_ | ⟨c, C⟩, rfl, heq⟩ := List.append_eq_append_iff.mp hXY
      · rw [List.length_append] at hlt
        omega
      · simp at hlt
      · cases heq
        exact ⟨C, rfl, rfl⟩
    have hrot : rotate X.length (X.length + 1) (X ++ e :: C).length (X ++ e :: C ++ B) =
        X ++ C ++ e :: B := by
      have h := @rotate_append _ _ (X.length + 1) (X ++ e :: C).length X [e] C B rfl
        (by simp; omega)
      simpa using h
    have hpred : (X ++ e :: C).length - 1 = (X ++ C).length := by simp
    rw [hrot, hpred, exchange_append] at hu
    refine ⟨X ++ C, B, some e, hu, ?_, ?_, fun x hx => hA x ?_, hB, hway⟩
    · exact ((List.sublist_cons_self e C).append_left X).append_right B
    · have h := @List.perm_middle _ e X (C ++ B)
      simpa only [List.append_assoc, List.cons_append, Option.toList_some, List.nil_append] using h
    · simp only [List.mem_append, List.mem_cons] at hx ⊢
      tauto
  · rename_i hlt
    obtain ⟨C, rfl, rfl⟩ : ∃ C, B = C ++ e :: Y ∧ X = A ++ C := by
      obtain ⟨C, rfl, rfl⟩ | ⟨C, rfl, heq⟩ := List.append_eq_append_iff.mp hXY
      · exact ⟨C, rfl, rfl⟩
      · have : C = [] := by
          cases C with
          | nil => rfl
          | cons c C => simp at hlt
        subst this
        exact ⟨[], heq.symm, by simp⟩
    have hrot : rotate A.length (A ++ C).length ((A ++ C).length + 1) (A ++ (C ++ e :: Y)) =
        A ++ e :: (C ++ Y) := by
      have h := @rotate_append _ _ (A ++ C).length ((A ++ C).length + 1) A C [e] Y (by simp) rfl
      simpa using h
    rw [hrot, exchange_append] at hu
    refine ⟨A, C ++ Y, some e, hu, ?_, ?_, hA, fun x hx => hB x ?_, hway⟩
    · exact ((List.sublist_cons_self e Y).append_left C).append_left A
    · have h := @List.perm_middle _ e (A ++ C) Y
      simpa only [List.append_assoc, Option.toList_some, List.singleton_append] using h
    · simp only [List.mem_append, List.mem_cons] at hx ⊢
      tauto

theorem exists_updates (hs : Sorted l) (hm : Marked n l) (hn : 0 < n) (hlen : l.length ≤ n)
    (k : K) (d : Option β) : ∃ A B v, Updates n k d l A B v := by
  obtain ⟨A, B, rfl, hA, hB⟩ := exists_split hs k
  have hfind := lowerBoundFind_append (n := n) hA hB
  cases B with
  | nil => exact updates_absent hm hlen hn hA (by simp) (by simp)
  | cons e B =>
    have hmid : (A ++ e :: B)[A.length]? = some e := by simp
    have heB : ∀ x ∈ B, e.key < x.key := (List.pairwise_cons.mp (List.pairwise_append.mp hs).2.1).1
    have hke := hB e (by simp)
    have hsub : (A ++ B).Sublist (A ++ e :: B) := (List.sublist_cons_self e B).append_left A
    by_cases hv : e.isValid n
    · by_cases hk : k = e.key
      · refine ⟨A, B, some e, ?_, hsub, List.perm_middle, hA, fun x hx => hk ▸ heB x hx,
          .own e hk.symm hv⟩
        rw [update, hfind]
        simp [hv, hk, exchange_append, rank]
      · have hlt := lt_of_le_of_ne hke hk
        refine updates_absent hm hlen hn hA (fun x hx => ?_) (by simpa using hv)
        obtain rfl | hx := List.mem_cons.mp hx
        · exact hlt
        · exact hlt.trans (heB x hx)
    · -- whatever key it kept, the slot is where the new one belongs
      have hmark : e.refs = n := by simpa [Item.isValid] using hv
      refine ⟨A, B, some e, ?_, hsub, List.perm_middle, hA, fun x hx => hke.trans_lt (heB x hx),
        .invalid e hmark fun x hx hxk => ?_⟩
      · rw [update, hfind]
        simp [hv, exchange_append, rank]
      · obtain hx | hx := List.mem_append.mp hx
        · exact absurd hxk (hA x hx).ne
        · obtain rfl | hx := List.mem_cons.mp hx
          · exact hv
          · exact absurd hxk (hke.trans_lt (heB x hx)).ne'

/-- The slots of the range and no others lose their buffers. -/
theorem invalidateRange_eq (hs : Sorted l) : invalidateRange n lo hi l =
    l.map fun e => if lo ≤ e.key ∧ e.key < hi then e.invalidate n else e := by
  obtain ⟨A, R, rfl, hA, hR⟩ := exists_split hs lo
  obtain ⟨B, C, rfl, hB, hC⟩ := exists_split (List.pairwise_append.mp hs).2.1 hi
  have hB' : ∀ e ∈ B, lo ≤ e.key := fun e he => hR e (by simp [he])
  have hfirst : lowerBound lo (A ++ (B ++ C)) = A.length := lowerBound_append hA hR
  have hlast : lowerBound hi (B ++ C) = B.length := lowerBound_append hB hC
  have htake : (A ++ (B ++ C)).take (A.length + B.length) = A ++ B := by
    rw [← List.append_assoc]
    exact List.take_left' (by simp)
  have hdrop : (A ++ (B ++ C)).drop (A.length + B.length) = C := by
    rw [← List.append_assoc]
    exact List.drop_left' (by simp)
  have hsame : ∀ l : List (Item K β), (∀ e ∈ l, ¬ (lo ≤ e.key ∧ e.key < hi)) →
      l.map (fun e => if lo ≤ e.key ∧ e.key < hi then e.invalidate n else e) = l := fun l hl => by
    rw [List.map_congr_left fun e he => if_neg (hl e he), List.map_id']
  have hmid : B.map (fun e => if lo ≤ e.key ∧ e.key < hi then e.invalidate n else e) =
      B.map (Item.invalidate n) :=
    List.map_congr_left fun e he => if_pos ⟨hB' e he, hB e he⟩
  rw [List.map_append, List.map_append, hmid, hsame A fun e he hr => (hA e he).not_ge hr.1,
    hsame C fun e he hr => (hC e he).not_gt hr.2]
  simp [invalidateRange, rangeFind, hfirst, hlast, htake, hdrop]

theorem sorted_congr {l' : List (Item K β)} (h : l.map Item.key = l'.map Item.key) :
    Sorted l ↔ Sorted l' := by
  have hkeys : ∀ l : List (Item K β), Sorted l ↔ (l.map Item.key).Pairwise (· < ·) := fun l =>
    (List.pairwise_map (R := fun a b : K => a < b)).symm
  rw [hkeys, hkeys, h]

theorem keys_invalidateRange : (invalidateRange n lo hi l).map Item.key = l.map Item.key := by
  unfold invalidateRange rangeFind
  dsimp only
  generalize lowerBound lo l = i
  generalize lowerBound hi (l.drop i) = j
  have hinv : (Item.key ∘ Item.invalidate n : Item K β → K) = Item.key := rfl
  have htake : l.take i = (l.take (i + j)).take i := by
    rw [List.take_take, Nat.min_eq_left (by omega)]
  simp only [List.map_append, List.map_map, hinv]
  rw [← List.map_append, ← List.map_append, htake, List.take_append_drop, List.take_append_drop]

theorem marked_invalidateRange (h : Marked n l) : Marked n (invalidateRange n lo hi l) := by
  intro x hx
  unfold invalidateRange at hx
  dsimp only at hx
  obtain (hx | hx) | hx := (List.mem_append.mp hx).imp_left List.mem_append.mp
  · exact h x (List.mem_of_mem_take hx)
  · obtain ⟨y, hy, rfl⟩ := List.mem_map.mp hx
    exact le_rfl
  · exact h x (List.mem_of_mem_drop hx)

/-- A slot in order after the others aged. -/
theorem sorted_place (hs : Sorted (A ++ B)) (hA : ∀ e ∈ A, e.key < k) (hB : ∀ e ∈ B, k < e.key)
    {r r' : Nat} : Sorted (A.map (Item.age r) ++ ⟨k, d, r'⟩ :: B.map (Item.age r)) := by
  obtain ⟨hsA, hsB, hAB⟩ := List.pairwise_append.mp hs
  refine List.pairwise_append.mpr ⟨?_, List.pairwise_cons.mpr ⟨?_, ?_⟩, ?_⟩
  · exact List.pairwise_map.mpr (hsA.imp fun h => by simpa using h)
  · intro x hx
    obtain ⟨b, hb, rfl⟩ := List.mem_map.mp hx
    simpa using hB b hb
  · exact List.pairwise_map.mpr (hsB.imp fun h => by simpa using h)
  · intro x hx y hy
    obtain ⟨a, ha, rfl⟩ := List.mem_map.mp hx
    obtain rfl | hy := List.mem_cons.mp hy
    · simpa using hA a ha
    · obtain ⟨b, hb, rfl⟩ := List.mem_map.mp hy
      simpa using hAB a ha b hb

variable {v : Option (Item K β)}

theorem sorted_update (h : Updates n k d l A B v) (hs : Sorted l) : Sorted (update n k d l).2 := by
  rw [h.result]
  exact sorted_place (hs.sublist h.sub) h.below h.above

theorem rank_le (h : Updates n k d l A B v) (hm : Marked n l) : rank n v ≤ n := by
  cases v with
  | none => exact le_rfl
  | some e => exact hm e (h.perm.mem_iff.mpr (by simp))

theorem marked_update (h : Updates n k d l A B v) (hm : Marked n l) :
    Marked n (update n k d l).2 := by
  have hage : ∀ x ∈ A ++ B, (x.age (rank n v)).refs ≤ n := fun x hx =>
    refs_age_le (rank_le h hm) (hm x (h.sub.subset hx))
  rw [h.result]
  intro x hx
  obtain hx | rfl | hx : x ∈ A.map (Item.age (rank n v)) ∨ x = ⟨k, d, 0⟩ ∨
      x ∈ B.map (Item.age (rank n v)) := by simpa using hx
  · obtain ⟨a, ha, rfl⟩ := List.mem_map.mp hx
    exact hage a (by simp [ha])
  · exact Nat.zero_le n
  · obtain ⟨b, hb, rfl⟩ := List.mem_map.mp hx
    exact hage b (by simp [hb])

theorem length_update (h : Updates n k d l A B v) (hlen : l.length ≤ n) :
    (update n k d l).2.length ≤ n := by
  have hl := h.perm.length_eq
  have hway := h.way
  rw [h.result]
  simp only [List.length_append, List.length_map, List.length_cons] at hl ⊢
  cases hway with
  | free hlt hk =>
    simp only [Option.toList_none, List.length_nil] at hl
    omega
  | _ =>
    simp only [Option.toList_some, List.length_cons, List.length_nil] at hl
    omega

end Keys

end Ublk.Cache
