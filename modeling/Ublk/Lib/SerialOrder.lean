import Ublk.Lib.SerialTrace

/-!
The order of jobs. A job that waits is taken from the front of the list, but the last one of the
list is put in its place. As long as that never puts a job of a key ahead of another of that key,
jobs of the key are worked on in the order in which they were made.
-/
namespace Serial

open Shared Machine

variable {J σ R A F T : Type} {M : Machine J σ R A F} {s t : State J σ} {l : Label R A F}
  {j w : J} {tag : J → T} {tkey : T → Nat} {made : σ → List T} {book : σ → List J} {p q : J → Bool}
  {xs ys : List J} {k : Nat}

/-- With the first element that meets `p` replaced by the last one of the list, the last one does
not stand ahead of one that meets `q`, or does not meet `q` itself. -/
def keepsOrder (p q : J → Bool) (l : List J) : Bool :=
  let behind := (l.dropWhile fun x => !p x).tail
  behind.dropLast.all (fun y => !q y) || behind.getLast?.all fun z => !q z

/-- No search of this step puts a job of key `k` ahead of another one. -/
def Steady (M : Machine J σ R A F) (k : Nat) (s : State J σ) : Label R A F → Prop
  | .tick => ∀ f ∈ s.frames.head?, f.finish = false →
    keepsOrder (fun w => M.key w == M.key f.job) (fun w => M.key w == k) s.pending = true
  | _ => True

instance : Decidable (Steady M k s l) :=
  match l with
  | .tick => inferInstanceAs (Decidable (∀ f ∈ s.frames.head?, f.finish = false → _ = true))
  | .arrive _ => isTrue trivial
  | .act _ _ => isTrue trivial
  | .aside _ => isTrue trivial

/-- The jobs that ended, those at work, those waiting, those still to be started. -/
def line (tag : J → T) (book : σ → List J) (s : State J σ) : List T :=
  (book s.inner ++ s.active ++ (s.pending ++ making s.issue)).map tag

/-- Jobs of key `k` are in line as they were made. -/
def InTurn (tag : J → T) (tkey : T → Nat) (made : σ → List T) (book : σ → List J) (k : Nat)
    (s : State J σ) : Prop :=
  (made s.inner).filter (fun v => tkey v == k) = (line tag book s).filter fun v => tkey v == k

theorem keepsOrder_append {as bs : List J} {z : J} (ha : ∀ a ∈ as, p a = false) (hw : p w = true)
    (h : keepsOrder p q (as ++ w :: (bs ++ [z])) = true) :
    (∀ b ∈ bs, q b = false) ∨ q z = false := by
  have hdrop : (as ++ w :: (bs ++ [z])).dropWhile (fun x => !p x) = w :: (bs ++ [z]) := by
    rw [List.dropWhile_append_of_pos fun a hmem => by simp [ha a hmem]]
    simp [hw]
  simpa [keepsOrder, hdrop] using h

/-- What is left of the jobs that meet `q` once the first that meets `p` is taken out. -/
theorem filter_popFirst (h : popFirst p xs = some (w, ys)) (ho : keepsOrder p q xs = true)
    (hpq : q w = true → ∀ x, q x = true → p x = true) :
    xs.filter q = [w].filter q ++ ys.filter q := by
  obtain ⟨as, bs, rfl, ha, hw, hbs⟩ := popFirst_cases h
  have hfront : as.filter q ++ [w].filter q = [w].filter q ++ as.filter q := by
    by_cases hq : q w = true
    · have : as.filter q = [] := List.filter_eq_nil_iff.mpr fun a hmem hqa => by
        have := hpq hq a hqa
        simp_all
      simp [this]
    · simp [hq]
  have hrest : bs.filter q = (ys.drop as.length).filter q := by
    rcases hbs with ⟨rfl, rfl⟩ | ⟨cs, z, rfl, rfl⟩
    · simp
    · rcases keepsOrder_append ha hw ho with hcs | hz
      · have : cs.filter q = [] := List.filter_eq_nil_iff.mpr fun c hmem => by simp [hcs c hmem]
        simp [List.filter_cons, this]
      · simp [hz]
  have hys : ys = as ++ ys.drop as.length := by
    rcases hbs with ⟨rfl, rfl⟩ | ⟨cs, z, rfl, rfl⟩ <;> simp
  calc (as ++ w :: bs).filter q = (as.filter q ++ [w].filter q) ++ bs.filter q := by
        rw [← List.singleton_append, List.filter_append, List.filter_append, List.append_assoc]
    _ = [w].filter q ++ (as.filter q ++ (ys.drop as.length).filter q) := by
        rw [hfront, hrest, List.append_assoc]
    _ = [w].filter q ++ ys.filter q := by rw [← List.filter_append, ← hys]

/-- A key has one job at work at a time. -/
theorem one_at_work (h : Ordered M s) : (s.active.filter fun j => M.key j == k).length ≤ 1 := by
  have hnodup : (s.active.map M.key).Nodup := h.nodup.sublist (List.sublist_append_left _ _)
  have hcount := List.nodup_iff_count_le_one.mp hnodup k
  rwa [List.count, List.countP_map, List.countP_eq_length_filter] at hcount

section InTurn

variable (hT : Tracing M tag made book) (hkey : ∀ j, tkey (tag j) = M.key j)

include hkey

theorem filter_tags : (xs.map tag).filter (fun v => tkey v == k) =
    (xs.filter fun j => M.key j == k).map tag := by
  simp [List.filter_map, Function.comp_def, hkey]

theorem no_tags (h : ∀ x ∈ xs, M.key x ≠ k) : (xs.map tag).filter (fun v => tkey v == k) = [] := by
  rw [filter_tags hkey, List.map_eq_nil_iff, List.filter_eq_nil_iff]
  intro x hx
  simpa using h x hx

theorem filter_tag_comm (h : M.key j = k → ∀ x ∈ xs, M.key x ≠ k) :
    (xs.map tag).filter (fun v => tkey v == k) ++ [tag j].filter (fun v => tkey v == k) =
      [tag j].filter (fun v => tkey v == k) ++ (xs.map tag).filter fun v => tkey v == k := by
  by_cases hj : M.key j = k
  · simp [no_tags hkey (h hj)]
  · simp [hkey, hj]

include hT

/-- A job that is placed is next in line if no other of its key is at work. -/
theorem line_place (h : M.key j = k → ∀ a ∈ s.active, M.key a ≠ k) :
    (line tag book (M.place j s)).filter (fun v => tkey v == k) =
      ((book s.inner ++ s.active).map tag).filter (fun v => tkey v == k) ++
      ([tag j].filter (fun v => tkey v == k) ++
      ((s.pending ++ making s.issue).map tag).filter fun v => tkey v == k) := by
  unfold place line
  split
  · simp only [List.map_append, List.filter_append, List.append_assoc, List.map_cons, List.map_nil]
  · simp only [(hT.enter j s.inner).2, List.map_append, List.filter_append, List.append_assoc,
      List.map_cons, List.map_nil]
    rw [← List.append_assoc ([tag j].filter _), ← filter_tag_comm hkey h, List.append_assoc]

/-- One step keeps the jobs of a key in line. -/
theorem inTurn_step (hK : M.Fixed) (hstart : ∀ w x, (M.start w x).1 = 0) (ho : Ordered M s)
    (h : InTurn tag tkey made book k s) (hc : Steady M k s l) (hs : M.step s l = some t)
    (hd : t.dead = false) : InTurn tag tkey made book k t := by
  unfold InTurn at h ⊢
  cases step_sound hs with
  | @arrive r hq =>
    simp only [Machine.arrive, (hT.split _ _ _).1, line, (hT.split _ _ _).2] at h ⊢
    rw [List.filter_append, h]
    simp [hq.2.1, making]
  | unlock hd' hf hl hp hu => exact h
  | crash hd' hf hl hp hu => exact h
  | @restart f fs w pending hd' hf hl hp =>
    obtain ⟨htag, hmade, hbook⟩ := hT.start w s.inner
    have hw : M.key w = M.key f.job := by simpa using (popFirst_some hp).1
    have hone : ∀ a ∈ s.active, M.key a ≠ M.key f.job := by
      have hown : M.owners s = s.active.map M.key ++
          M.key f.job :: (fs.filter (fun f => !f.finish)).map (fun f => M.key f.job) := by
        simp [owners, hf, hl]
      have hnot := (List.nodup_cons.mp (List.nodup_middle.mp (hown ▸ ho.nodup))).1
      exact fun a ha he => hnot (List.mem_append_left _ (List.mem_map.mpr ⟨a, ha, he⟩))
    have htaken : (s.pending.map tag).filter (fun v => tkey v == k) =
        [tag w].filter (fun v => tkey v == k) ++
        (pending.map tag).filter fun v => tkey v == k := by
      have hfirst := filter_popFirst (q := fun j => M.key j == k) hp (hc f (by simp [hf]) hl) ?_
      · rw [filter_tags hkey, hfirst, List.map_append, ← filter_tags hkey, ← filter_tags hkey]
        rfl
      · intro hwk x hx
        simp_all
    rw [made_place hT, line_place hT hkey]
    · simp only [hmade, hbook, htag, h, line, List.map_append, List.filter_append, htaken,
        List.append_assoc]
    · intro hk a ha
      rw [hK.start] at hk
      exact hk ▸ hw ▸ hone a ha
  | @back f fs hd' hf hl =>
    simpa only [line, Machine.back, (hT.leave _ _).1, (hT.leave _ _).2] using h
  | @launch c j rest ret locks hd' hf hi ht =>
    obtain ⟨htag, hmade, hbook⟩ := hT.start j s.inner
    obtain ⟨hact, hpend, -⟩ := ordered_unlocked ho (LockTable.tryLock_true ht).1
    have hnext : (s.pending.map tag).filter (fun v => tkey v == k) ++
        [tag j].filter (fun v => tkey v == k) = _ :=
      filter_tag_comm hkey fun hk x hx => hk ▸ hpend x hx
    rw [made_place hT, line_place hT hkey]
    · simp only [hmade, hbook, htag, h, line, hi, hstart, making, if_true, List.map_append,
        List.filter_append, List.map_cons, List.append_assoc]
      rw [← List.singleton_append (l := rest.map tag), List.filter_append,
        ← List.append_assoc ((s.pending.map tag).filter _), hnext, List.append_assoc]
    · intro hk a ha
      rw [hK.start] at hk
      exact hk ▸ hact a ha
  | @wait c j rest ret locks hd' hf hi ht =>
    simp only [line, hi, making] at h ⊢
    rw [h]
    simp [hT.park]
  | @overrun c j rest ret hd' hf hi ht => cases hd
  | @conclude q hd' hf hi hr =>
    simpa [line, State.conclude, hi, making, hr] using h
  | @act i a j j' inner hq hj hr =>
    obtain ⟨htag, hmade, hbook⟩ := hT.react _ _ _ _ _ hr
    obtain ⟨hlt, rfl⟩ := List.getElem?_eq_some_iff.mp hj
    have hsplit : s.active = s.active.take i ++ s.active[i] :: s.active.drop (i + 1) := by simp
    have hrest : s.active.eraseIdx i = s.active.take i ++ s.active.drop (i + 1) :=
      List.eraseIdx_eq_take_drop_succ ..
    have hone : ∀ a ∈ s.active.eraseIdx i, M.key a ≠ M.key s.active[i] := by
      have hown := ho.nodup.sublist (List.sublist_append_left _ _)
      rw [((List.getElem_cons_eraseIdx_perm hlt).symm.map M.key).nodup_iff] at hown
      intro a ha he
      exact (List.nodup_cons.mp hown).1 (List.mem_map.mpr ⟨a, ha, he⟩)
    have hlast : (s.active.map tag).filter (fun v => tkey v == k) =
        ((s.active.eraseIdx i).map tag).filter (fun v => tkey v == k) ++
        [tag s.active[i]].filter fun v => tkey v == k := by
      have hcomm : ((s.active.drop (i + 1)).map tag).filter (fun v => tkey v == k) ++
          [tag s.active[i]].filter (fun v => tkey v == k) = _ :=
        filter_tag_comm hkey fun hk a ha => hk ▸ hone a (by simp [hrest, ha])
      conv_lhs => rw [hsplit]
      rw [List.map_append, List.map_cons, ← List.singleton_append (l := (s.active.drop _).map tag),
        List.filter_append, List.filter_append, ← hcomm, hrest, List.map_append, List.filter_append,
        List.append_assoc]
    rw [made_place hT, line_place hT hkey]
    · simp only [hmade, hbook, htag, h, line, hlast, List.map_append, List.filter_append,
        List.append_assoc]
    · intro hk a ha
      rw [hK.react _ _ _ _ _ hr] at hk
      exact hk ▸ hone a ha
  | @aside f inner reqs hq hr =>
    obtain ⟨hmade, hbook⟩ := hT.aside _ _ _ _ _ hr
    simpa only [line, hmade, hbook] using h

/-- In a run that puts no job of a key ahead of another, jobs of the key come in turn. -/
theorem inTurn_run {x : σ} (hK : M.Fixed) (hstart : ∀ w x, (M.start w x).1 = 0) (hm : made x = [])
    (hb : book x = []) (h : Lts.Run M.step (Steady M k) (.initial x) s) :
    Ordered M s ∧ (s.dead = false → InTurn tag tkey made book k s) := by
  refine Lts.run_invariant (I := fun s => Ordered M s ∧
    (s.dead = false → InTurn tag tkey made book k s)) h ⟨ordered_initial x, fun _ => ?_⟩ ?_
  · simp [InTurn, line, making, State.initial, hm, hb]
  · rintro a l b ⟨ho, ha⟩ hc hs
    have hr : Restarts M a l := by
      cases l with
      | tick => exact fun _ _ _ _ _ _ _ => hstart _ _
      | _ => trivial
    exact ⟨ordered_step hK ho hr hs,
      inTurn_step hT hkey hK hstart ho (ha (dead_of_step hs)) hc hs⟩

omit hT in
/-- Where no job of a key is at work or to be started, those that ended are all that were made. -/
theorem ended_inTurn (ho : Ordered M s) (h : InTurn tag tkey made book k s)
    (hk : ¬ s.locks.Locked k) (hi : ∀ j ∈ making s.issue, M.key j ≠ k) :
    (made s.inner).filter (fun v => tkey v == k) =
      ((book s.inner).map tag).filter fun v => tkey v == k := by
  obtain ⟨hact, hpend, -⟩ := ordered_unlocked ho hk
  rw [h, line]
  simp only [List.map_append, List.filter_append, no_tags hkey hact, no_tags hkey hpend,
    no_tags hkey hi, List.append_nil]

end InTurn

end Serial
