import Ublk.Lib.SerialOwn
import Ublk.Lib.SerialTrace

/-!
What holds of each job by itself, whatever becomes of the locks, and how often a completer
searched for the end of a job.
-/
namespace Serial

open Shared Machine

variable {J σ R A F T : Type} {M : Machine J σ R A F} {s t : State J σ} {l : Label R A F}
  {j w : J} {tag : J → T} {made : σ → List T} {book : σ → List J} {x : σ}

/-- `fresh` of a job as it is made, `parked` of one that waits, `live` of one that was started. -/
structure JobRule (M : Machine J σ R A F) (fresh parked live : J → Prop) (okA : A → J → Prop) :
    Prop where
  launch : ∀ w x, fresh w → live (M.start w x).2.1
  restart : ∀ w x, parked w → live (M.start w x).2.1
  react : ∀ a j x j' x', okA a j → live j → M.react a j x = some (j', x') → live j'
  park : ∀ j, fresh j → parked (M.park j)
  split : ∀ r c x, ∀ j ∈ (M.split r c x).1, fresh j

variable {fresh parked live : J → Prop} {okA : A → J → Prop} {okF : F → σ → Prop}

structure Jobs (M : Machine J σ R A F) (book : σ → List J) (fresh parked live : J → Prop)
    (s : State J σ) : Prop where
  active : ∀ j ∈ s.active, live j
  frames : ∀ f ∈ s.frames, live f.job
  book : ∀ j ∈ book s.inner, live j ∧ M.busy j = false
  pending : ∀ j ∈ s.pending, parked j
  making : ∀ j ∈ making s.issue, fresh j

theorem jobs_place (hT : Tracing M tag made book) (h : Jobs M book fresh parked live s)
    (hj : live j) : Jobs M book fresh parked live (M.place j s) := by
  unfold place
  cases hb : M.busy j with
  | true =>
    refine ⟨fun y hy => ?_, h.frames, h.book, h.pending, h.making⟩
    obtain hy | hy := List.mem_append.mp hy
    · exact h.active y hy
    · exact List.mem_singleton.mp hy ▸ hj
  | false =>
    refine ⟨h.active, fun f hf => ?_, fun y hy => ?_, h.pending, h.making⟩
    · obtain rfl | hf := List.mem_cons.mp hf
      · exact hj
      · exact h.frames f hf
    · rw [if_neg Bool.false_ne_true, (hT.enter j s.inner).2] at hy
      obtain hy | hy := List.mem_append.mp hy
      · exact h.book y hy
      · exact List.mem_singleton.mp hy ▸ ⟨hj, hb⟩

/-- A state whose jobs were all there before. -/
theorem jobs_of_sub (h : Jobs M book fresh parked live s) (ha : ∀ j ∈ t.active, j ∈ s.active)
    (hf : ∀ f ∈ t.frames, ∃ g ∈ s.frames, f.job = g.job) (hb : book t.inner = book s.inner)
    (hp : ∀ j ∈ t.pending, j ∈ s.pending) (hm : ∀ j ∈ making t.issue, j ∈ making s.issue) :
    Jobs M book fresh parked live t where
  active j hj := h.active j (ha j hj)
  frames f hf' := by
    obtain ⟨g, hg, he⟩ := hf f hf'
    exact he ▸ h.frames g hg
  book j hj := h.book j (hb ▸ hj)
  pending j hj := h.pending j (hp j hj)
  making j hj := h.making j (hm j hj)

theorem jobs_step (hT : Tracing M tag made book) (hR : JobRule M fresh parked live okA)
    (h : Jobs M book fresh parked live s) (hok : Guarded okA okF s l)
    (hs : M.step s l = some t) : Jobs M book fresh parked live t := by
  have hself : ∀ f ∈ s.frames, ∃ g ∈ s.frames, f.job = g.job := fun f hf => ⟨f, hf, rfl⟩
  cases step_sound hs with
  | @arrive r hq =>
    refine ⟨h.active, h.frames, fun y hy => ?_, h.pending, fun y hy => hR.split _ _ _ y hy⟩
    exact h.book y ((hT.split _ _ _).2 ▸ hy)
  | @unlock f fs locks hd hf hl hp hu =>
    refine jobs_of_sub h (fun _ => id) (fun g hg => ?_) rfl (fun _ => id) fun _ => id
    obtain rfl | hg := List.mem_cons.mp hg
    · exact ⟨f, by simp [hf], rfl⟩
    · exact ⟨g, by simp [hf, hg], rfl⟩
  | @crash f fs hd hf hl hp hu =>
    refine jobs_of_sub h (fun _ => id) (fun g hg => ?_) rfl (fun _ => id) fun _ => id
    obtain rfl | hg := List.mem_cons.mp hg
    · exact ⟨f, by simp [hf], rfl⟩
    · exact ⟨g, by simp [hf, hg], rfl⟩
  | @restart f fs w pending hd hf hl hp =>
    obtain ⟨-, hperm⟩ := popFirst_some hp
    have hw := h.pending w (hperm.mem_iff.mpr (.head _))
    refine jobs_place hT (jobs_of_sub h (fun _ => id) (fun g hg => ?_) (hT.start _ _).2.2
      (fun y hy => hperm.mem_iff.mpr (.tail _ hy)) fun _ => id) (hR.restart w _ hw)
    obtain rfl | hg := List.mem_cons.mp hg
    · exact ⟨f, by simp [hf], by split <;> rfl⟩
    · exact ⟨g, by simp [hf, hg], rfl⟩
  | @back f fs hd hf hl =>
    exact jobs_of_sub h (fun _ => id) (fun g hg => ⟨g, by rw [hf]; exact .tail _ hg, rfl⟩)
      (hT.leave _ _).2 (fun _ => id) fun _ => id
  | @launch c j rest ret locks hd hf hi ht =>
    have hj := h.making j (by rw [hi]; exact .head _)
    refine jobs_place hT (jobs_of_sub h (fun _ => id) hself (hT.start _ _).2.2 (fun _ => id)
      fun y hy => ?_) (hR.launch j _ hj)
    rw [hi]
    dsimp only [making] at hy
    split at hy
    · exact .tail _ hy
    · cases hy
  | @wait c j rest ret locks hd hf hi ht =>
    have hj := h.making j (by rw [hi]; exact .head _)
    refine ⟨h.active, h.frames, h.book, fun y hy => ?_, fun y hy => h.making y ?_⟩
    · obtain hy | hy := List.mem_append.mp hy
      · exact h.pending y hy
      · exact List.mem_singleton.mp hy ▸ hR.park j hj
    · rw [hi]; exact .tail _ hy
  | @overrun c j rest ret hd hf hi ht =>
    refine jobs_of_sub h (fun _ => id) hself rfl (fun _ => id) fun y hy => ?_
    rw [hi]
    exact .tail _ hy
  | conclude hd hf hi hr =>
    exact jobs_of_sub h (fun _ => id) hself rfl (fun _ => id) fun y hy => by cases hy
  | @act i a j j' inner hq hj hr =>
    have hlive := h.active j (List.mem_of_getElem? hj)
    refine jobs_place hT (jobs_of_sub h (fun y hy => List.mem_of_mem_eraseIdx hy) hself
      (hT.react _ _ _ _ _ hr).2.2 (fun _ => id) fun _ => id) ?_
    exact hR.react _ _ _ _ _ (hok j hj) hlive hr
  | aside hq hr =>
    exact jobs_of_sub h (fun _ => id) hself (hT.aside _ _ _ _ _ hr).2 (fun _ => id) fun _ => id

theorem jobs_run (hT : Tracing M tag made book) (hR : JobRule M fresh parked live okA)
    (hb : book x = []) (h : Lts.Run M.step (Guarded okA okF) (.initial x) s) :
    Jobs M book fresh parked live s := by
  refine Lts.run_invariant (I := Jobs M book fresh parked live) h ?_
    fun _ _ _ hj hok hs => jobs_step hT hR hj hok hs
  constructor <;> simp [State.initial, making, hb]

section Begun

variable {P : J → Prop}

/-- Some job that was started has `P`. -/
def Begun (book : σ → List J) (P : J → Prop) (s : State J σ) : Prop :=
  ∃ j, (j ∈ s.active ∨ j ∈ book s.inner) ∧ P j

theorem begun_congr (ha : t.active = s.active) (hb : book t.inner = book s.inner) :
    Begun book P t ↔ Begun book P s := by
  rw [Begun, Begun, ha, hb]

theorem begun_place (hT : Tracing M tag made book) :
    Begun book P (M.place j s) ↔ Begun book P s ∨ P j := by
  unfold Begun place
  split
  · simp only [List.mem_append, List.mem_singleton, or_and_right, exists_or, exists_eq_left]
    exact or_right_comm
  · simp only [(hT.enter j s.inner).2, List.mem_append, List.mem_singleton, or_and_right, exists_or,
      exists_eq_left]
    exact or_assoc.symm

/-- The job acted on is set apart. -/
theorem begun_eraseIdx {i : Nat} {inner : σ} (hj : s.active[i]? = some j)
    (hb : book inner = book s.inner) : Begun book P s ↔
      Begun book P { s with active := s.active.eraseIdx i, inner } ∨ P j := by
  obtain ⟨hlt, rfl⟩ := List.getElem?_eq_some_iff.mp hj
  have hmem : ∀ y, y ∈ s.active ↔ y = s.active[i] ∨ y ∈ s.active.eraseIdx i := fun y => by
    rw [← (List.getElem_cons_eraseIdx_perm hlt).mem_iff, List.mem_cons]
  unfold Begun
  simp only [hmem, hb, or_and_right, exists_or, exists_eq_left]
  rw [or_assoc, or_comm]

/-- What acting on a job keeps is kept of it to the end. -/
theorem begun_step (hT : Tracing M tag made book)
    (hP : ∀ a j x j' x', M.react a j x = some (j', x') → P j → P j')
    (h : Begun book P s) (hs : M.step s l = some t) : Begun book P t := by
  have hsame : ∀ {u : State J σ}, u.active = s.active → book u.inner = book s.inner →
      Begun book P u := fun ha hb => (begun_congr ha hb).mpr h
  cases step_sound hs with
  | arrive hq => exact hsame rfl (hT.split _ _ _).2
  | unlock hd hf hl hp hu => exact h
  | crash hd hf hl hp hu => exact h
  | restart hd hf hl hp => exact (begun_place hT).mpr (.inl (hsame rfl (hT.start _ _).2.2))
  | back hd hf hl => exact hsame rfl (hT.leave _ _).2
  | launch hd hf hi ht => exact (begun_place hT).mpr (.inl (hsame rfl (hT.start _ _).2.2))
  | wait hd hf hi ht => exact h
  | overrun hd hf hi ht => exact h
  | conclude hd hf hi hr => exact h
  | act hq hj hr =>
    rw [begun_eraseIdx hj (hT.react _ _ _ _ _ hr).2.2] at h
    exact (begun_place hT).mpr (h.imp_right (hP _ _ _ _ _ hr))
  | aside hq hr => exact hsame rfl (hT.aside _ _ _ _ _ hr).2

theorem prefix_place (hT : Tracing M tag made book) (h : book s.inner = book x) :
    book x <+: book (M.place j s).inner := by
  unfold place
  split
  · exact h ▸ List.prefix_rfl
  · exact (hT.enter j s.inner).2 ▸ h ▸ List.prefix_append _ _

/-- Jobs stay on record once they have ended. -/
theorem prefix_step (hT : Tracing M tag made book) (hs : M.step s l = some t) :
    book s.inner <+: book t.inner := by
  cases step_sound hs with
  | arrive hq => exact (hT.split _ _ _).2 ▸ List.prefix_rfl
  | restart hd hf hl hp => exact prefix_place hT (hT.start _ _).2.2
  | back hd hf hl => exact (hT.leave _ _).2 ▸ List.prefix_rfl
  | launch hd hf hi ht => exact prefix_place hT (hT.start _ _).2.2
  | act hq hj hr => exact prefix_place hT (hT.react _ _ _ _ _ hr).2.2
  | aside hq hr => exact (hT.aside _ _ _ _ _ hr).2 ▸ List.prefix_rfl
  | _ => exact List.prefix_rfl

/-- Jobs that were started differ in their tags if all that were made do. -/
theorem nodup_of_tags (hle : tags tag book s ≤ (made s.inner : Multiset T))
    (hnd : (made s.inner).Nodup) : ((s.active ++ book s.inner).map tag).Nodup := by
  have hsub : (((s.active ++ book s.inner).map tag : List T) : Multiset T) ≤
      tags tag book s := by
    rw [List.map_append, ← Multiset.coe_add, tags, add_assoc]
    exact Multiset.le_add_left _ _
  exact Multiset.coe_nodup.mp (Multiset.nodup_of_le (hsub.trans hle) (Multiset.coe_nodup.mpr hnd))

theorem eq_of_tag (hnd : ((s.active ++ book s.inner).map tag).Nodup)
    (hj : j ∈ s.active ∨ j ∈ book s.inner) (hw : w ∈ s.active ∨ w ∈ book s.inner)
    (he : tag j = tag w) : j = w :=
  List.inj_on_of_nodup_map hnd (List.mem_append.mpr hj) (List.mem_append.mpr hw) he

end Begun

section Rounds

/-- `again` marks a job whose restart failed: the completer that restarted it searches for it. -/
structure Again (M : Machine J σ R A F) (fresh parked : J → Prop) (again : J → Bool) : Prop where
  start : ∀ w x, M.ident (M.start w x).2.1 = M.ident w
  react : ∀ a j x j' x', M.react a j x = some (j', x') → M.ident j' = M.ident j ∧ again j' = again j
  launch : ∀ w x, fresh w → again (M.start w x).2.1 = false
  restart : ∀ w x, parked w → again (M.start w x).2.1 = decide ((M.start w x).1 ≠ 0)

variable {again : J → Bool} {n : Nat}

/-- The searches made or to be made for the end of job `n`. -/
def searches (s : State J σ) (n : Nat) : Nat :=
  s.rounds.count n + s.frames.countP fun f => !f.finish && f.acct == n

/-- Those due: one for its end, one more for a restart that failed. -/
def due (M : Machine J σ R A F) (book : σ → List J) (again : J → Bool) (s : State J σ)
    (n : Nat) : Nat :=
  (book s.inner).countP (fun j => M.ident j == n) +
    ((book s.inner).countP (fun j => again j && M.ident j == n) +
      s.active.countP fun j => again j && M.ident j == n)

theorem searches_place (hT : Tracing M tag made book) :
    (searches (M.place j s) n = due M book again (M.place j s) n ↔
      searches s n = due M book again s n + if again j && M.ident j == n then 1 else 0) := by
  unfold searches due place
  split
  · simp only [List.countP_append, List.countP_cons, List.countP_nil]
    omega
  · simp only [(hT.enter j s.inner).2, List.countP_append, List.countP_cons, List.countP_nil,
      Bool.not_false, Bool.true_and]
    omega

theorem searches_step (hT : Tracing M tag made book) (hA : Again M fresh parked again)
    (hj : Jobs M book fresh parked live s) (h : ∀ n, searches s n = due M book again s n)
    (hs : M.step s l = some t) (n : Nat) : searches t n = due M book again t n := by
  have hn := h n
  cases step_sound hs with
  | arrive hq => simpa only [searches, due, Machine.arrive, (hT.split _ _ _).2] using hn
  | @unlock f fs locks hd hf hl hp hu =>
    simp only [searches, due, hf, hl, List.countP_cons, List.count_append, List.count_singleton,
      Bool.not_false, Bool.not_true, Bool.true_and, Bool.false_and, Bool.false_eq_true, if_false]
      at hn ⊢
    omega
  | @crash f fs hd hf hl hp hu =>
    simp only [searches, due, hf, hl, List.countP_cons, List.count_append, List.count_singleton,
      Bool.not_false, Bool.not_true, Bool.true_and, Bool.false_and, Bool.false_eq_true, if_false]
      at hn ⊢
    omega
  | @restart f fs w pending hd hf hl hp =>
    obtain ⟨-, hperm⟩ := popFirst_some hp
    have hw := hj.pending w (hperm.mem_iff.mpr (.head _))
    rw [searches_place hT, hA.restart w _ hw, hA.start]
    simp only [searches, due, hf, hl, List.countP_cons, Bool.not_false, Bool.true_and,
      List.count_append, List.count_singleton, (hT.start w s.inner).2.2] at hn ⊢
    by_cases h₀ : (M.start w s.inner).1 = 0
    · simp only [h₀, if_true, Bool.not_true, Bool.false_and, Bool.false_eq_true, if_false, ne_eq,
        not_true_eq_false, decide_false]
      omega
    · simp only [h₀, if_false, Bool.not_false, Bool.true_and, ne_eq, not_false_eq_true, decide_true]
      omega
  | @back f fs hd hf hl =>
    simpa [searches, due, Machine.back, hf, hl, (hT.leave f.job s.inner).2] using hn
  | @launch c j rest ret locks hd hf hi ht =>
    have hf := hj.making j (by rw [hi]; exact .head _)
    rw [searches_place hT, hA.launch j _ hf]
    simpa [searches, due, (hT.start j s.inner).2.2] using hn
  | wait hd hf hi ht => exact hn
  | overrun hd hf hi ht => exact hn
  | conclude hd hf hi hr => exact hn
  | @act i a j j' inner hq hj' hr =>
    obtain ⟨hlt, rfl⟩ := List.getElem?_eq_some_iff.mp hj'
    obtain ⟨hid, hagain⟩ := hA.react _ _ _ _ _ hr
    rw [searches_place hT, hid, hagain]
    rw [searches, due, ← (List.getElem_cons_eraseIdx_perm hlt).countP_eq, List.countP_cons] at hn
    rw [searches, due, (hT.react _ _ _ _ _ hr).2.2]
    dsimp only
    omega
  | aside hq hr => simpa only [searches, due, (hT.aside _ _ _ _ _ hr).2] using hn

/-- A job that ended, and that no completer is still to search for, was searched for once, and
once more if its restart failed. -/
theorem searches_run (hT : Tracing M tag made book) (hR : JobRule M fresh parked live okA)
    (hA : Again M fresh parked again) (hb : book x = [])
    (h : Lts.Run M.step (Guarded okA okF) (.initial x) s) (n : Nat) :
    searches s n = due M book again s n := by
  have hI : Jobs M book fresh parked live s ∧ ∀ n, searches s n = due M book again s n := by
    refine Lts.run_invariant
      (I := fun s => Jobs M book fresh parked live s ∧ ∀ n, searches s n = due M book again s n)
      h ⟨?_, fun n => ?_⟩ fun _ _ _ hj hok hs =>
        ⟨jobs_step hT hR hj.1 hok hs, searches_step hT hA hj.1 hj.2 hs⟩
    · constructor <;> simp [State.initial, making, hb]
    · simp [searches, due, State.initial, hb]
  exact hI.2 n

/-- The searches made for the end of a job, once none is to come. -/
theorem rounds_of_ended (h : searches s (M.ident w) = due M book again s (M.ident w))
    (hnd : ((s.active ++ book s.inner).map M.ident).Nodup) (hw : w ∈ book s.inner)
    (hset : ∀ f ∈ s.frames, f.finish = true ∨ f.acct ≠ M.ident w) :
    s.rounds.count (M.ident w) = 1 + if again w then 1 else 0 := by
  classical
  have hinj : ∀ j, j ∈ s.active ∨ j ∈ book s.inner → M.ident j = M.ident w → j = w :=
    fun j hj he => eq_of_tag hnd hj (.inr hw) he
  obtain ⟨-, hbn, hdisj⟩ := List.nodup_append.mp (List.Nodup.of_map _ hnd)
  have hframes : (s.frames.countP fun f => !f.finish && f.acct == M.ident w) = 0 := by
    rw [List.countP_eq_zero]
    intro f hf
    obtain hf | hf := hset f hf <;> simp [hf]
  have hbook : (book s.inner).countP (fun j => M.ident j == M.ident w) = 1 := by
    rw [← List.count_eq_one_of_mem hbn hw, List.count]
    refine List.countP_congr fun j hj => ?_
    simp only [beq_iff_eq]
    exact ⟨hinj j (.inr hj), fun he => he ▸ rfl⟩
  have hagain : (book s.inner).countP (fun j => again j && M.ident j == M.ident w) =
      if again w then 1 else 0 := by
    split
    · rename_i ha
      rw [← hbook]
      refine List.countP_congr fun j hj => ?_
      simp only [Bool.and_eq_true, beq_iff_eq, and_iff_right_iff_imp]
      exact fun he => hinj j (.inr hj) he ▸ ha
    · rename_i ha
      rw [List.countP_eq_zero]
      intro j hj
      simp only [Bool.and_eq_true, beq_iff_eq, not_and]
      exact fun haj he => ha (hinj j (.inr hj) he ▸ haj)
  have hactive : (s.active.countP fun j => again j && M.ident j == M.ident w) = 0 := by
    rw [List.countP_eq_zero]
    intro j hj
    simp only [Bool.and_eq_true, beq_iff_eq, not_and]
    exact fun _ he => hdisj j hj w hw (hinj j (.inl hj) he)
  rw [searches, due, hframes, hbook, hagain, hactive] at h
  omega

end Rounds

end Serial
