import Ublk.Cache.Slots
import Ublk.Lib.Runs

/-!
The cache of chunks. What a caller sees of it is which keys are live and with which buffer (`get`);
an update may make other live keys disappear, nothing else may.
-/

namespace Ublk.Cache

/-- What `find` returns: the buffer and the number of items in view, 0 when nothing was found. -/
structure View (β : Type) where
  data : Option β
  size : Nat

structure FlatLru (K β : Type) [LinearOrder K] where
  lenMax : Nat
  itemSz : Nat
  cache : List (Item K β)
  lenPos : 0 < lenMax
  itemPos : 0 < itemSz
  sorted : Sorted cache
  marked : Marked lenMax cache
  fits : cache.length ≤ lenMax

namespace FlatLru

variable {K β : Type} [LinearOrder K] {n sz : Nat} {c : FlatLru K β} {k j lo hi : K}
  {d d' : Option β} {f : β → β} {e : Item K β} {l A B : List (Item K β)}

def empty (n sz : Nat) (hn : 0 < n) (hsz : 0 < sz) : FlatLru K β :=
  ⟨n, sz, [], hn, hsz, .nil, fun _ he => (List.not_mem_nil he).elim, Nat.zero_le n⟩

/-- Slots put in place of others with the same keys. -/
def withSlots (c : FlatLru K β) (l : List (Item K β)) (hk : l.map Item.key = c.cache.map Item.key)
    (hm : Marked c.lenMax l) : FlatLru K β where
  lenMax := c.lenMax
  itemSz := c.itemSz
  cache := l
  lenPos := c.lenPos
  itemPos := c.itemPos
  sorted := (sorted_congr hk).mpr c.sorted
  marked := hm
  fits := by
    have h := congrArg List.length hk
    simp only [List.length_map] at h
    exact h ▸ c.fits

def dataView (c : FlatLru K β) (i : Nat) : View β := ⟨c.cache[i]?.bind Item.data, c.itemSz⟩

def find (c : FlatLru K β) (k : K) : View β × FlatLru K β :=
  let (index, exact) := lowerBoundFind c.lenMax k c.cache
  if exact then
    (c.dataView index, c.withSlots (touch index c.cache) keys_touch (marked_touch c.marked))
  else (⟨none, 0⟩, c)

/-- The client writes through the span `find_mutable` gave it. -/
def writeThrough (c : FlatLru K β) (i : Nat) (f : β → β) : FlatLru K β :=
  c.withSlots (c.cache.modify i fun e => { e with data := e.data.map f })
    (keys_modify fun _ => rfl) (marked_modify (fun _ h => h) c.marked)

/-- `find_mutable`, and what its caller writes through the span. -/
def findMutable (c : FlatLru K β) (k : K) (f : β → β) : View β × FlatLru K β :=
  let (v, c') := c.find k
  (v, if v.size = 0 then c' else c'.writeThrough (lowerBoundFind c.lenMax k c.cache).1 f)

def update (c : FlatLru K β) (k : K) (d : Option β) : Option (K × β) × FlatLru K β :=
  let r := Cache.update c.lenMax k d c.cache
  have h := exists_updates c.sorted c.marked c.lenPos c.fits k d
  (r.1, { c with
    cache := r.2
    sorted := h.elim fun _ h => h.elim fun _ h => h.elim fun _ h => sorted_update h c.sorted
    marked := h.elim fun _ h => h.elim fun _ h => h.elim fun _ h => marked_update h c.marked
    fits := h.elim fun _ h => h.elim fun _ h => h.elim fun _ h => length_update h c.fits })

/-- The source's `exists`. -/
def exist (c : FlatLru K β) (k : K) : Bool := (lowerBoundFind c.lenMax k c.cache).2

def invalidate (c : FlatLru K β) (k : K) : FlatLru K β :=
  let (index, exact) := lowerBoundFind c.lenMax k c.cache
  if exact then
    c.withSlots (c.cache.modify index (Item.invalidate c.lenMax)) (keys_modify fun _ => rfl)
      (marked_modify (fun _ _ => le_rfl) c.marked)
  else c

/-- The range is not empty: `Expects`. -/
def invalidateRange (c : FlatLru K β) (lo hi : K) : Option (FlatLru K β) :=
  if lo < hi then
    some (c.withSlots (Cache.invalidateRange c.lenMax lo hi c.cache) keys_invalidateRange
      (marked_invalidateRange c.marked))
  else none

/-- The buffer that `k` is live with. -/
def get (c : FlatLru K β) (k : K) : Option (Option β) :=
  (c.cache.find? fun e => decide (e.key = k) && e.isValid c.lenMax).map Item.data

theorem lowerBoundFind_spec (hs : Sorted l) :
    (lowerBoundFind n k l).2 = true ∧ (∃ A e B, l = A ++ e :: B ∧ e.key = k ∧ e.isValid n ∧
      (lowerBoundFind n k l).1 = A.length) ∨
    (lowerBoundFind n k l).2 = false ∧ ∀ e ∈ l, e.key = k → e.isValid n = false := by
  obtain ⟨A, B, rfl, hA, hB⟩ := exists_split hs k
  rw [lowerBoundFind_append hA hB]
  cases B with
  | nil => exact .inr ⟨rfl, fun e he hk => absurd hk (hA e (by simpa using he)).ne⟩
  | cons e B =>
    by_cases hk : k = e.key ∧ e.isValid n
    · exact .inl ⟨by simp [hk], A, e, B, rfl, hk.1.symm, hk.2, rfl⟩
    · refine .inr ⟨by simpa using hk, fun x hx hxk => ?_⟩
      obtain hx | hx := List.mem_append.mp hx
      · exact absurd hxk (hA x hx).ne
      · obtain rfl | hx := List.mem_cons.mp hx
        · exact Bool.eq_false_iff.mpr fun hv => hk ⟨hxk.symm, hv⟩
        · have hlt := (List.pairwise_cons.mp (List.pairwise_append.mp hs).2.1).1 x hx
          exact absurd hxk ((hB e (by simp)).trans_lt hlt).ne'

theorem key_inj (hs : Sorted l) {x y : Item K β} (hx : x ∈ l) (hy : y ∈ l) (h : x.key = y.key) :
    x = y := by
  have hnd : (l.map Item.key).Nodup := List.pairwise_map.mpr (hs.imp fun h => h.ne)
  exact List.inj_on_of_nodup_map hnd hx hy h

/-- A key is live when it has a valid slot. -/
theorem get_eq_some : c.get k = some d ↔
    ∃ e ∈ c.cache, e.key = k ∧ e.isValid c.lenMax = true ∧ e.data = d := by
  unfold get
  constructor
  · intro h
    obtain ⟨e, he, rfl⟩ := Option.map_eq_some_iff.mp h
    have hp := List.find?_some he
    simp only [Bool.and_eq_true, decide_eq_true_eq] at hp
    exact ⟨e, List.mem_of_find?_eq_some he, hp.1, hp.2, rfl⟩
  · rintro ⟨e, he, rfl, hv, rfl⟩
    cases hf : c.cache.find? fun x => decide (x.key = e.key) && x.isValid c.lenMax with
    | none =>
      have := List.find?_eq_none.mp hf e he
      simp [hv] at this
    | some x =>
      have hp := List.find?_some hf
      simp only [Bool.and_eq_true, decide_eq_true_eq] at hp
      rw [key_inj c.sorted (List.mem_of_find?_eq_some hf) he hp.1]
      rfl

theorem get_eq_none : c.get k = none ↔ ∀ e ∈ c.cache, e.key = k → e.isValid c.lenMax = false := by
  constructor
  · intro h e he hk
    refine Bool.eq_false_iff.mpr fun hv => ?_
    have := get_eq_some.mpr ⟨e, he, hk, hv, rfl⟩
    rw [h] at this
    cases this
  · intro h
    cases hg : c.get k with
    | none => rfl
    | some d =>
      obtain ⟨e, he, hk, hv, -⟩ := get_eq_some.mp hg
      rw [h e he hk] at hv
      cases hv

theorem get_congr {c c' : FlatLru K β} (h : ∀ d,
    (∃ e ∈ c'.cache, e.key = k ∧ e.isValid c'.lenMax = true ∧ e.data = d) ↔
      ∃ e ∈ c.cache, e.key = k ∧ e.isValid c.lenMax = true ∧ e.data = d) : c'.get k = c.get k :=
  Option.ext fun d => by rw [get_eq_some, get_eq_some, h]

/-- Where the search ends: at the valid slot of the key, or the key is not live. -/
theorem find_cases (c : FlatLru K β) (k : K) :
    (∃ A e B, c.cache = A ++ e :: B ∧ e.key = k ∧ e.isValid c.lenMax = true ∧
      lowerBoundFind c.lenMax k c.cache = (A.length, true)) ∨
    (lowerBoundFind c.lenMax k c.cache).2 = false ∧ c.get k = none := by
  obtain ⟨h, A, e, B, heq, hk, hv, hi⟩ | ⟨h, hno⟩ := lowerBoundFind_spec c.sorted (k := k)
  · exact .inl ⟨A, e, B, heq, hk, hv, Prod.ext hi h⟩
  · exact .inr ⟨h, get_eq_none.mpr hno⟩

theorem get_of_cache (h : c.cache = A ++ e :: B) (hk : e.key = k) (hv : e.isValid c.lenMax = true) :
    c.get k = some e.data :=
  get_eq_some.mpr ⟨e, by simp [h], hk, hv, rfl⟩

theorem exist_eq : c.exist k = (c.get k).isSome := by
  obtain ⟨A, e, B, heq, hk, hv, h⟩ | ⟨h, hno⟩ := c.find_cases k
  · rw [exist, h, get_of_cache heq hk hv]
    rfl
  · rw [exist, h, hno]
    rfl

theorem view_find : (c.find k).1 = ((c.get k).map fun d => ⟨d, c.itemSz⟩).getD ⟨none, 0⟩ := by
  unfold find
  obtain ⟨A, e, B, heq, hk, hv, h⟩ | ⟨h, hno⟩ := c.find_cases k
  · rw [h, get_of_cache heq hk hv]
    simp [dataView, heq]
  · simp [h, hno]

theorem refs_lt (h : c.cache = A ++ e :: B) (hv : e.isValid c.lenMax = true) :
    e.refs < c.lenMax :=
  lt_of_le_of_ne (c.marked e (by simp [h])) (isValid_iff.mp hv)

theorem get_find : (c.find k).2.get = c.get := by
  unfold find
  obtain ⟨A, e, B, heq, hk, hv, h⟩ | ⟨h, hno⟩ := c.find_cases k
  · rw [h]
    have hlt := refs_lt heq hv
    refine funext fun j => get_congr fun d => ?_
    simp only [withSlots, heq, touch_append, if_true]
    simp [or_and_right, exists_or, isValid_age hlt, isValid_new c.lenPos, hv]
  · simp [h]

theorem lenMax_find : (c.find k).2.lenMax = c.lenMax := by
  unfold find
  dsimp only
  split <;> rfl

theorem cache_findMutable (heq : c.cache = A ++ e :: B)
    (h : lowerBoundFind c.lenMax k c.cache = (A.length, true)) : (c.findMutable k f).2.cache =
      A.map (Item.age e.refs) ++ ⟨e.key, e.data.map f, 0⟩ :: B.map (Item.age e.refs) := by
  have hmod := modify_append (A := A.map (Item.age e.refs)) (e := { e with refs := 0 })
    (B := B.map (Item.age e.refs)) (g := fun e => { e with data := e.data.map f })
  rw [List.length_map] at hmod
  have hwrite : (c.findMutable k f).2.cache =
      (touch A.length c.cache).modify A.length fun e => { e with data := e.data.map f } := by
    simp [findMutable, find, h, dataView, c.itemPos.ne', writeThrough, withSlots]
  rw [hwrite, heq, touch_append, hmod]

theorem get_findMutable : (c.findMutable k f).2.get j =
    if j = k then (c.get k).map (Option.map f) else c.get j := by
  obtain ⟨A, e, B, heq, hk, hv, h⟩ | ⟨h, hno⟩ := c.find_cases k
  · have hlt := refs_lt heq hv
    have hcache := cache_findMutable (f := f) heq h
    have hmax : (c.findMutable k f).2.lenMax = c.lenMax := by
      simp [findMutable, find, h, dataView, c.itemPos.ne', writeThrough, withSlots]
    by_cases hj : j = k
    · rw [if_pos hj, hj, get_of_cache heq hk hv]
      exact get_of_cache hcache hk (isValid_new (hmax ▸ c.lenPos))
    · have hkj : e.key ≠ j := fun he => hj (he.symm.trans hk)
      rw [if_neg hj]
      refine get_congr fun d => ?_
      simp [hcache, hmax, heq, or_and_right, exists_or, isValid_age hlt, hkj]
  · have hsame : (c.findMutable k f).2 = c := by simp [findMutable, find, h]
    rw [hsame]
    split
    · rename_i hj
      rw [hj, hno]
      rfl
    · rfl

theorem get_invalidate : (c.invalidate k).get j = if j = k then none else c.get j := by
  obtain ⟨A, e, B, heq, hk, hv, h⟩ | ⟨h, hno⟩ := c.find_cases k
  · have hcache : (c.invalidate k).cache = A ++ e.invalidate c.lenMax :: B := by
      have hmod : (c.invalidate k).cache = c.cache.modify A.length (Item.invalidate c.lenMax) := by
        simp [invalidate, h, withSlots]
      rw [hmod, heq, modify_append]
    have hmax : (c.invalidate k).lenMax = c.lenMax := by simp [invalidate, h, withSlots]
    by_cases hj : j = k
    · rw [if_pos hj, hj]
      refine get_eq_none.mpr fun x hx hxk => ?_
      have hmem : e.invalidate c.lenMax ∈ (c.invalidate k).cache := by simp [hcache]
      have hx : x = e.invalidate c.lenMax :=
        key_inj (c.invalidate k).sorted hx hmem (hxk.trans hk.symm)
      rw [hx, hmax, isValid_invalidate]
    · have hkj : e.key ≠ j := fun he => hj (he.symm.trans hk)
      rw [if_neg hj]
      refine get_congr fun d => ?_
      simp [hcache, hmax, heq, or_and_right, exists_or, hkj]
  · have hsame : c.invalidate k = c := by simp [invalidate, h]
    rw [hsame]
    split
    · rename_i hj
      rw [hj, hno]
    · rfl

theorem get_invalidateRange {c' : FlatLru K β} (h : c.invalidateRange lo hi = some c') :
    c'.get j = if lo ≤ j ∧ j < hi then none else c.get j := by
  unfold invalidateRange at h
  split at h
  · cases h
    split
    · rename_i hr
      refine get_eq_none.mpr fun x hx hxk => ?_
      simp only [withSlots, invalidateRange_eq c.sorted] at hx ⊢
      obtain ⟨y, hy, rfl⟩ := List.mem_map.mp hx
      split at hxk <;> rename_i hy'
      · rw [if_pos hy', isValid_invalidate]
      · exact absurd (hxk ▸ hr) hy'
    · rename_i hr
      refine get_congr fun d => ?_
      simp only [withSlots, invalidateRange_eq c.sorted, List.mem_map]
      constructor
      · rintro ⟨x, ⟨y, hy, rfl⟩, hk, hv, hd⟩
        split at hk <;> rename_i hy'
        · exact absurd (hk ▸ hy') hr
        · rw [if_neg hy'] at hv hd
          exact ⟨y, hy, hk, hv, hd⟩
      · rintro ⟨y, hy, hk, hv, hd⟩
        have hy' : ¬ (lo ≤ y.key ∧ y.key < hi) := hk ▸ hr
        exact ⟨y, ⟨y, hy, if_neg hy'⟩, hk, hv, hd⟩
  · cases h

theorem get_update_self : (c.update k d).2.get k = some d := by
  obtain ⟨A, B, v, h⟩ := exists_updates c.sorted c.marked c.lenPos c.fits k d
  refine get_eq_some.mpr ⟨⟨k, d, 0⟩, ?_, rfl, isValid_new c.lenPos, rfl⟩
  simp [update, h.result]

theorem get_update_of_ne (hj : j ≠ k) :
    (c.update k d).2.get j = none ∨ (c.update k d).2.get j = c.get j := by
  obtain ⟨A, B, v, h⟩ := exists_updates c.sorted c.marked c.lenPos c.fits k d
  cases hg : (c.update k d).2.get j with
  | none => exact .inl rfl
  | some d' =>
    right
    obtain ⟨e, he, rfl, hv, rfl⟩ := get_eq_some.mp hg
    have hr := rank_le h c.marked
    have hmem : ∃ x ∈ A ++ B, x.age (rank c.lenMax v) = e := by
      simp only [update, h.result, List.mem_append, List.mem_cons, List.mem_map] at he
      obtain ⟨x, hx, rfl⟩ | rfl | ⟨x, hx, rfl⟩ := he
      · exact ⟨x, by simp [hx], rfl⟩
      · exact absurd rfl hj
      · exact ⟨x, by simp [hx], rfl⟩
    obtain ⟨x, hx, rfl⟩ := hmem
    refine (get_eq_some.mpr ⟨x, h.sub.subset hx, key_age.symm, ?_, data_age.symm⟩).symm
    exact isValid_of_age hr hv

end FlatLru

end Ublk.Cache
