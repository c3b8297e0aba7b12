import Ublk.Cache.FlatLru

/-! Any sequence of operations: what is found is what the history says, and no buffer has two owners. -/

namespace Ublk.Cache

section Owners

variable {K β α : Type} {addr : β → α} {l A B : List (Item K β)} {e : Item K β} {r i : Nat}

/-- Where the buffers held lie, those of slots no search finds included. -/
def addrs (addr : β → α) (l : List (Item K β)) : List α := l.filterMap fun e => e.data.map addr

theorem addrs_append : addrs addr (A ++ B) = addrs addr A ++ addrs addr B := List.filterMap_append

theorem addrs_cons : addrs addr (e :: l) = (e.data.map addr).toList ++ addrs addr l := by
  cases he : e.data <;> simp [addrs, he]

theorem mem_addrs {b : β} (he : e ∈ l) (hb : e.data = some b) : addr b ∈ addrs addr l :=
  List.mem_filterMap.mpr ⟨e, he, by rw [hb]; rfl⟩

theorem addrs_age : addrs addr (l.map (Item.age r)) = addrs addr l := by
  simp [addrs, List.filterMap_map]

/-- A list at one of its places. -/
theorem exists_at (hi : i < l.length) : ∃ A e B, l = A ++ e :: B ∧ i = A.length :=
  ⟨l.take i, l[i], l.drop (i + 1), by simp, by simp; omega⟩

theorem addrs_touch : addrs addr (touch i l) = addrs addr l := by
  by_cases hi : i < l.length
  · obtain ⟨A, e, B, rfl, rfl⟩ := exists_at hi
    rw [touch_append]
    simp only [addrs_append, addrs_age, addrs_cons]
  · simp [touch, List.getElem?_eq_none (not_lt.mp hi)]

/-- Writing into a buffer leaves it where it is. -/
theorem addrs_write {f : β → β} (hf : ∀ b, addr (f b) = addr b) :
    addrs addr (l.modify i fun e => { e with data := e.data.map f }) = addrs addr l := by
  by_cases hi : i < l.length
  · obtain ⟨A, e, B, rfl, rfl⟩ := exists_at hi
    rw [modify_append]
    simp only [addrs_append, addrs_cons, Option.map_map]
    rw [funext hf (f := addr ∘ f)]
  · rw [List.modify_eq_self (not_lt.mp hi)]

/-- Slots some of which lose their buffers. -/
theorem addrs_sublist {g : Item K β → Item K β}
    (hg : ∀ e, (g e).data = e.data ∨ (g e).data = none) :
    (addrs addr (l.map g)).Sublist (addrs addr l) := by
  induction l with
  | nil => exact .refl _
  | cons e l ih =>
    rw [List.map_cons, addrs_cons, addrs_cons]
    obtain h | h := hg e
    · rw [h]
      exact ih.append_left _
    · rw [h]
      exact ih.trans (List.sublist_append_right _ _)

theorem addrs_modify : (addrs addr (l.modify i (Item.invalidate r))).Sublist (addrs addr l) := by
  by_cases hi : i < l.length
  · obtain ⟨A, e, B, rfl, rfl⟩ := exists_at hi
    rw [modify_append, addrs_append, addrs_append, addrs_cons, addrs_cons]
    exact (List.sublist_append_right _ _).append_left _
  · rw [List.modify_eq_self (not_lt.mp hi)]

end Owners

/-- The operations of a client; `findMutable` with what is written through the span. -/
inductive Op (K β : Type)
  | update (k : K) (d : Option β)
  | find (k : K)
  | findMutable (k : K) (f : β → β)
  | exist (k : K)
  | invalidate (k : K)
  | invalidateRange (lo hi : K)

variable {K β α : Type} [LinearOrder K] {n sz : Nat} {c c' : FlatLru K β} {k j : K}
  {d : Option β} {op : Op K β} {ops : List (Op K β)} {addr : β → α}

def FlatLru.step (c : FlatLru K β) : Op K β → Option (FlatLru K β)
  | .update k d => some (c.update k d).2
  | .find k => some (c.find k).2
  | .findMutable k f => some (c.findMutable k f).2
  | .exist _ => some c
  | .invalidate k => some (c.invalidate k)
  | .invalidateRange lo hi => c.invalidateRange lo hi

/-- What an operation makes of the last known buffer of each key. -/
def note (book : K → Option (Option β)) : Op K β → K → Option (Option β)
  | .update k d => Function.update book k (some d)
  | .findMutable k f => Function.update book k ((book k).map (Option.map f))
  | .invalidate k => Function.update book k none
  | .invalidateRange lo hi => fun j => if lo ≤ j ∧ j < hi then none else book j
  | .find _ | .exist _ => book

/-- The buffer of the last update of each key, with the writes made since, unless invalidated. -/
def written (ops : List (Op K β)) : K → Option (Option β) := ops.foldl note fun _ => none

/-- A live key has the buffer the book says. -/
def Fresh (book : K → Option (Option β)) (c : FlatLru K β) : Prop :=
  ∀ k d, c.get k = some d → book k = some d

theorem fresh_step {book : K → Option (Option β)} (h : Fresh book c) (hs : c.step op = some c') :
    Fresh (note book op) c' := by
  intro j d hj
  cases op with
  | update k d' =>
    cases hs
    by_cases hk : j = k
    · subst hk
      rw [FlatLru.get_update_self] at hj
      simpa [note] using hj
    · obtain hn | he := FlatLru.get_update_of_ne (c := c) (d := d') hk
      · rw [hn] at hj
        cases hj
      · simpa [note, hk] using h j d (he ▸ hj)
  | find k =>
    cases hs
    exact h j d (FlatLru.get_find (c := c) ▸ hj)
  | findMutable k f =>
    cases hs
    rw [FlatLru.get_findMutable] at hj
    split at hj
    · rename_i hk
      obtain ⟨d', hd', rfl⟩ := Option.map_eq_some_iff.mp hj
      simp [note, hk, h k d' hd']
    · rename_i hk
      simpa [note, hk] using h j d hj
  | exist k =>
    cases hs
    exact h j d hj
  | invalidate k =>
    cases hs
    rw [FlatLru.get_invalidate] at hj
    split at hj
    · cases hj
    · rename_i hk
      simpa [note, hk] using h j d hj
  | invalidateRange lo hi =>
    rw [FlatLru.get_invalidateRange hs] at hj
    split at hj
    · cases hj
    · rename_i hr
      simpa [note, hr] using h j d hj

theorem fresh_exec {book : K → Option (Option β)} (h : Fresh book c)
    (hs : Lts.exec FlatLru.step c ops = some c') : Fresh (ops.foldl note book) c' := by
  induction ops generalizing c book with
  | nil =>
    cases hs
    exact h
  | cons op ops ih =>
    obtain ⟨t, ht, hrest⟩ := Option.bind_eq_some_iff.mp hs
    exact ih (fresh_step h ht) hrest

/-- A buffer handed over is nobody else's, and writing does not move it. -/
def Owns (addr : β → α) (c : FlatLru K β) : Op K β → Prop
  | .update _ d => ∀ b ∈ d, addr b ∉ addrs addr c.cache
  | .findMutable _ f => ∀ b, addr (f b) = addr b
  | _ => True

/-- No two slots hold one buffer. -/
def Unshared (addr : β → α) (c : FlatLru K β) : Prop := (addrs addr c.cache).Nodup

/-- What `find` shows is held. -/
theorem addr_find {b : β} (h : (c.find j).1.data = some b) : addr b ∈ addrs addr c.cache := by
  rw [FlatLru.view_find] at h
  cases hg : c.get j with
  | none =>
    rw [hg] at h
    cases h
  | some d =>
    rw [hg] at h
    obtain ⟨e, he, -, -, hd⟩ := FlatLru.get_eq_some.mp hg
    exact mem_addrs he (hd.trans h)

variable {A B : List (Item K β)} {v : Option (Item K β)}

theorem addrs_update (h : Updates c.lenMax k d c.cache A B v) :
    (addrs addr (c.update k d).2.cache).Perm ((d.map addr).toList ++ addrs addr (A ++ B)) := by
  simp only [FlatLru.update, h.result, addrs_append, addrs_age, addrs_cons]
  exact List.perm_append_comm_assoc _ _ _

theorem addrs_old (h : Updates c.lenMax k d c.cache A B v) :
    (addrs addr c.cache).Perm (((v.bind Item.data).map addr).toList ++ addrs addr (A ++ B)) := by
  have hperm := h.perm.filterMap fun e => e.data.map addr
  have hv : addrs addr v.toList = ((v.bind Item.data).map addr).toList := by
    cases v with
    | none => rfl
    | some e =>
      rw [Option.toList_some, addrs_cons]
      exact List.append_nil _
  rw [← hv, ← addrs_append]
  exact hperm

/-- What gave way is held no more, the buffer handed over is held once. -/
theorem unshared_update (h : Unshared addr c) (ho : Owns addr c (.update k d))
    (hu : Updates c.lenMax k d c.cache A B v) : Unshared addr (c.update k d).2 ∧
      ∀ b, v.bind Item.data = some b → addr b ∉ addrs addr (c.update k d).2.cache := by
  have hold : (addrs addr c.cache).Perm _ := addrs_old hu
  have hnew : (addrs addr (c.update k d).2.cache).Perm _ := addrs_update hu
  have hnd := List.nodup_append.mp (hold.nodup_iff.mp h)
  have hfresh : ∀ b ∈ d, addr b ∉ addrs addr (A ++ B) := fun b hb hmem =>
    ho b hb (hold.mem_iff.mpr (List.mem_append_right _ hmem))
  refine ⟨hnew.nodup_iff.mpr (List.nodup_append.mpr ⟨?_, hnd.2.1, ?_⟩), fun b hb hmem => ?_⟩
  · cases d <;> simp
  · intro x hx y hy hxy
    obtain ⟨b, hb, rfl⟩ := Option.map_eq_some_iff.mp (Option.mem_toList.mp hx)
    exact hfresh b hb (hxy ▸ hy)
  · have hin : addr b ∈ ((v.bind Item.data).map addr).toList := by simp [hb]
    obtain hd | hAB := List.mem_append.mp (hnew.mem_iff.mp hmem)
    · obtain ⟨b', hb', he⟩ := Option.map_eq_some_iff.mp (Option.mem_toList.mp hd)
      exact ho b' hb' (he ▸ hold.mem_iff.mpr (List.mem_append_left _ hin))
    · exact hnd.2.2 _ hin _ hAB rfl

theorem unshared_step (h : Unshared addr c) (ho : Owns addr c op) (hs : c.step op = some c') :
    Unshared addr c' := by
  cases op with
  | update k d =>
    cases hs
    obtain ⟨A, B, v, hu⟩ := exists_updates c.sorted c.marked c.lenPos c.fits k d
    exact (unshared_update h ho hu).1
  | find k =>
    cases hs
    unfold FlatLru.find Unshared
    dsimp only
    split
    · exact addrs_touch.symm ▸ h
    · exact h
  | findMutable k f =>
    cases hs
    have hfind : Unshared addr (c.find k).2 := by
      unfold FlatLru.find Unshared
      dsimp only
      split
      · exact addrs_touch.symm ▸ h
      · exact h
    unfold FlatLru.findMutable
    dsimp only
    split
    · exact hfind
    · have hw := addrs_write (l := (c.find k).2.cache) (i := (lowerBoundFind c.lenMax k c.cache).1) ho
      exact (congrArg List.Nodup hw).mpr hfind
  | exist k =>
    cases hs
    exact h
  | invalidate k =>
    cases hs
    unfold FlatLru.invalidate
    dsimp only
    split
    · exact h.sublist addrs_modify
    · exact h
  | invalidateRange lo hi =>
    change c.invalidateRange lo hi = some c' at hs
    unfold FlatLru.invalidateRange at hs
    split at hs
    · cases hs
      refine h.sublist ?_
      simp only [FlatLru.withSlots, invalidateRange_eq c.sorted]
      refine addrs_sublist fun e => ?_
      split
      · exact .inr rfl
      · exact .inl rfl
    · cases hs

/-- What an update hands back is not held any more. -/
theorem update_handBack (h : Unshared addr c) (ho : Owns addr c (.update k d)) {b : β}
    (hb : (c.update k d).1 = some (j, b)) :
    addr b ∉ addrs addr (c.update k d).2.cache ∧ (j = k ∨ (c.update k d).2.exist j = false) := by
  obtain ⟨A, B, v, hu⟩ := exists_updates c.sorted c.marked c.lenPos c.fits k d
  have hr : (Cache.update c.lenMax k d c.cache).1 = some (j, b) := hb
  rw [hu.result] at hr
  obtain ⟨e, rfl, he⟩ := Option.bind_eq_some_iff.mp hr
  obtain ⟨b', hd, heq⟩ := Option.map_eq_some_iff.mp he
  cases heq
  refine ⟨(unshared_update h ho hu).2 b hd, or_iff_not_imp_left.mpr fun hj => ?_⟩
  have hkeys : (c.cache.map Item.key).Nodup := List.pairwise_map.mpr (c.sorted.imp fun h => h.ne)
  have hgone := (List.nodup_cons.mp ((hu.perm.map Item.key).nodup_iff.mp hkeys)).1
  rw [FlatLru.exist_eq, FlatLru.get_eq_none.mpr, Option.isSome_none]
  intro x hx hxk
  simp only [FlatLru.update, hu.result, List.mem_append, List.mem_cons, List.mem_map] at hx
  obtain ⟨y, hy, rfl⟩ | rfl | ⟨y, hy, rfl⟩ := hx
  · exact absurd (List.mem_map.mpr ⟨y, by simp [hy], key_age.symm.trans hxk⟩) hgone
  · exact absurd hxk.symm hj
  · exact absurd (List.mem_map.mpr ⟨y, by simp [hy], key_age.symm.trans hxk⟩) hgone

/-- What holds of a cache of `n` slots after the operations `ops`. -/
structure Sound (addr : β → α) (n : Nat) (ops : List (Op K β)) (c : FlatLru K β) : Prop where
  ordered : c.cache.Pairwise fun a b => a.key < b.key
  fits : c.cache.length ≤ n
  existing : ∀ k, c.exist k = true ↔ (c.find k).1.size ≠ 0
  found : ∀ k, (c.find k).1.size ≠ 0 → written ops k = some (c.find k).1.data
  handed : ∀ k d, Owns addr c (.update k d) → ∀ j b, (c.update k d).1 = some (j, b) →
    (∀ i, ((c.update k d).2.find i).1.data.map addr ≠ some (addr b)) ∧
      (j = k ∨ (c.update k d).2.exist j = false)

theorem lenMax_step (hs : c.step op = some c') : c'.lenMax = c.lenMax := by
  cases op with
  | update k d => cases hs; rfl
  | find k => cases hs; exact FlatLru.lenMax_find
  | findMutable k f =>
    cases hs
    refine Eq.trans ?_ (FlatLru.lenMax_find (k := k))
    unfold FlatLru.findMutable
    dsimp only
    split <;> rfl
  | exist k => cases hs; rfl
  | invalidate k =>
    cases hs
    unfold FlatLru.invalidate
    dsimp only
    split <;> rfl
  | invalidateRange lo hi =>
    change c.invalidateRange lo hi = some c' at hs
    unfold FlatLru.invalidateRange at hs
    split at hs
    · cases hs; rfl
    · cases hs

theorem lenMax_exec (hs : Lts.exec FlatLru.step c ops = some c') : c'.lenMax = c.lenMax := by
  induction ops generalizing c with
  | nil => cases hs; rfl
  | cons op ops ih =>
    obtain ⟨t, ht, hrest⟩ := Option.bind_eq_some_iff.mp hs
    exact (ih hrest).trans (lenMax_step ht)

theorem unshared_exec (h : Unshared addr c) (ho : Lts.Along FlatLru.step (Owns addr) c ops)
    (hs : Lts.exec FlatLru.step c ops = some c') : Unshared addr c' := by
  induction ops generalizing c with
  | nil =>
    cases hs
    exact h
  | cons op ops ih =>
    obtain ⟨t, ht, hrest⟩ := Option.bind_eq_some_iff.mp hs
    exact ih (unshared_step h ho.1 ht) (ho.2 t ht) hrest

/-- After any operations on an empty cache by clients that own what they hand over. -/
theorem sound_exec {hn : 0 < n} {hsz : 0 < sz}
    (ho : Lts.Along FlatLru.step (Owns addr) (.empty n sz hn hsz) ops)
    (hs : Lts.exec FlatLru.step (.empty n sz hn hsz) ops = some c) : Sound addr n ops c := by
  have hfresh : Fresh (written ops) c := by
    refine fresh_exec (fun k d h => ?_) hs
    obtain ⟨e, he, -⟩ := FlatLru.get_eq_some.mp h
    cases he
  have hempty : Unshared addr (FlatLru.empty (K := K) n sz hn hsz) := List.nodup_nil
  have hun := unshared_exec hempty ho hs
  have hsize : ∀ k, (c.find k).1.size ≠ 0 ↔ (c.get k).isSome := fun k => by
    rw [FlatLru.view_find]
    cases c.get k with
    | none => simp
    | some d => simpa using c.itemPos.ne'
  refine ⟨c.sorted, c.fits.trans (lenMax_exec hs).le, fun k => ?_, fun k hk => ?_,
    fun k d hown j b hb => ?_⟩
  · rw [FlatLru.exist_eq, hsize]
  · obtain ⟨d, hd⟩ := Option.isSome_iff_exists.mp ((hsize k).mp hk)
    rw [hfresh k d hd, FlatLru.view_find, hd]
    rfl
  · obtain ⟨hnot, hj⟩ := update_handBack hun hown hb
    refine ⟨fun i hi => ?_, hj⟩
    obtain ⟨b', hb', he⟩ := Option.map_eq_some_iff.mp hi
    exact hnot (he ▸ addr_find hb')

/-- Two slots, three keys: the third update takes the slot of the key not used for longest. -/
theorem sound_exec_evicting : ∃ c : FlatLru Nat (Nat × Nat),
    Lts.exec FlatLru.step (.empty 2 1 (by decide) (by decide))
      [.update 4 (some (0, 7)), .update 2 (some (1, 8)), .findMutable 4 fun b => (b.1, 9),
        .update 3 (some (2, 6))] = some c ∧ c.exist 2 = false ∧
    Sound Prod.fst 2 [.update 4 (some (0, 7)), .update 2 (some (1, 8)),
      .findMutable 4 fun b => (b.1, 9), .update 3 (some (2, 6))] c := by
  refine ⟨_, rfl, by decide, sound_exec ?_ rfl⟩
  simp only [Lts.Along, Owns, Option.mem_def, Option.some.injEq, forall_eq', FlatLru.step,
    implies_true, and_true, true_and]
  decide

end Ublk.Cache
