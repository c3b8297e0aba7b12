import Mathlib.Algebra.Order.Group.Multiset
import Mathlib.Tactic.Abel
import Ublk.Lib.SerialShare

/-!
Jobs over a run: no job is made twice, what holds of each of them, how often it was searched for
another job after its end. As long as no start reports a failure, the jobs made are those still
to be started, those waiting, those busy, and those that ended.
-/
namespace Serial

open Shared Machine

variable {J σ R A F T : Type} {M : Machine J σ R A F} {s t : State J σ} {l : Label R A F}
  {j w : J} {tag : J → T} {made : σ → List T} {book : σ → List J}

/-- The jobs of the call in progress that are still to be started. -/
def making : Option (Issue J) → List J
  | some q => q.rest
  | none => []

/-- The inner state records each job as it is made and as it ends; `tag` is what a job keeps. -/
structure Tracing (M : Machine J σ R A F) (tag : J → T) (made : σ → List T)
    (book : σ → List J) : Prop where
  start : ∀ w x, tag (M.start w x).2.1 = tag w ∧ made (M.start w x).2.2 = made x ∧
    book (M.start w x).2.2 = book x
  react : ∀ a j x j' x', M.react a j x = some (j', x') →
    tag j' = tag j ∧ made x' = made x ∧ book x' = book x
  park : ∀ j, tag (M.park j) = tag j
  split : ∀ r c x, made (M.split r c x).2 = made x ++ (M.split r c x).1.map tag ∧
    book (M.split r c x).2 = book x
  enter : ∀ j x, made (M.enter j x).2 = made x ∧ book (M.enter j x).2 = book x ++ [j]
  leave : ∀ j x, made (M.leave j x).2 = made x ∧ book (M.leave j x).2 = book x
  aside : ∀ f x q x' q', M.aside f x q = some (x', q') → made x' = made x ∧ book x' = book x

/-- The tags of all jobs, wherever they are. -/
def tags (tag : J → T) (book : σ → List J) (s : State J σ) : Multiset T :=
  (making s.issue).map tag + s.pending.map tag + s.active.map tag + (book s.inner).map tag

theorem coe_concat (a : J) (xs : List J) :
    (((xs ++ [a]).map tag : List T) : Multiset T) = xs.map tag + {tag a} := by
  rw [List.map_append, ← Multiset.coe_add]
  rfl

theorem coe_cons (a : J) (xs : List J) :
    (((a :: xs).map tag : List T) : Multiset T) = {tag a} + xs.map tag := rfl

theorem coe_map_perm {xs ys : List J} (h : xs.Perm ys) :
    ((xs.map tag : List T) : Multiset T) = ys.map tag := Multiset.coe_eq_coe.mpr (h.map tag)

theorem tags_place (hT : Tracing M tag made book) :
    tags tag book (M.place j s) = {tag j} + tags tag book s := by
  unfold place
  split
  · simp only [tags, coe_concat]
    abel
  · simp only [tags, (hT.enter j s.inner).2, coe_concat]
    abel

theorem made_place (hT : Tracing M tag made book) :
    made (M.place j s).inner = made s.inner := by
  unfold place
  split
  · rfl
  · exact (hT.enter j s.inner).1

/-- Jobs are made when a request comes in. -/
theorem made_step (hT : Tracing M tag made book) (hl : ∀ r, l ≠ .arrive r)
    (hs : M.step s l = some t) : made t.inner = made s.inner := by
  cases step_sound hs with
  | arrive hq => exact absurd rfl (hl _)
  | restart hd hf hl hp => exact (made_place hT).trans (hT.start _ _).2.1
  | back hd hf hl => exact (hT.leave _ _).1
  | launch hd hf hi ht => exact (made_place hT).trans (hT.start _ _).2.1
  | act hq hj hr => exact (made_place hT).trans (hT.react _ _ _ _ _ hr).2.1
  | aside hq hr => exact (hT.aside _ _ _ _ _ hr).1
  | _ => rfl

/-- A step loses a job only when a start fails or the program stops. -/
theorem traced_step (hT : Tracing M tag made book) {lost : Multiset T}
    (h : (made s.inner : Multiset T) = tags tag book s + lost) (hs : M.step s l = some t) :
    ∃ lost', (made t.inner : Multiset T) = tags tag book t + lost' ∧
      ((∀ w x, (M.start w x).1 = 0) → t.dead = false → lost' = lost) := by
  cases step_sound hs with
  | @arrive r hq =>
    refine ⟨lost, ?_, fun _ _ => rfl⟩
    simp only [tags, Machine.arrive, (hT.split _ _ _).1, (hT.split _ _ _).2, ← Multiset.coe_add, h,
      hq.2.1, making]
    simp only [List.map_nil, Multiset.coe_nil]
    abel
  | unlock hd' hf hl hp hu => exact ⟨lost, h, fun _ _ => rfl⟩
  | crash hd' hf hl hp hu => exact ⟨lost, h, fun _ _ => rfl⟩
  | @restart f fs w pending hd' hf hl hp =>
    obtain ⟨-, hperm⟩ := popFirst_some hp
    obtain ⟨htag, hmade, hbook⟩ := hT.start w s.inner
    refine ⟨lost, ?_, fun _ _ => rfl⟩
    rw [tags_place hT, made_place hT, htag]
    simp only [tags, hmade, hbook, h, coe_map_perm hperm, coe_cons]
    abel
  | @back f fs hd' hf hl =>
    refine ⟨lost, ?_, fun _ _ => rfl⟩
    simp only [tags, Machine.back, (hT.leave f.job s.inner).1, (hT.leave f.job s.inner).2, h]
  | @launch c j rest ret locks hd' hf hi ht =>
    obtain ⟨htag, hmade, hbook⟩ := hT.start j s.inner
    by_cases h₀ : (M.start j s.inner).1 = 0
    · refine ⟨lost, ?_, fun _ _ => rfl⟩
      rw [tags_place hT, made_place hT, htag]
      simp only [tags, hmade, hbook, h, hi, h₀, making, if_true, coe_cons]
      abel
    · refine ⟨lost + rest.map tag, ?_, fun hall => absurd (hall _ _) h₀⟩
      rw [tags_place hT, made_place hT, htag]
      simp only [tags, hmade, hbook, h, hi, h₀, making, if_false, coe_cons, List.map_nil,
        Multiset.coe_nil]
      abel
  | @wait c j rest ret locks hd' hf hi ht =>
    refine ⟨lost, ?_, fun _ _ => rfl⟩
    simp only [tags, h, hi, making, coe_cons, coe_concat, hT.park]
    abel
  | @overrun c j rest ret hd' hf hi ht =>
    refine ⟨lost + {tag j}, ?_, fun _ hd => by cases hd⟩
    simp only [tags, h, hi, making, coe_cons]
    abel
  | @conclude q hd' hf hi hr =>
    refine ⟨lost, ?_, fun _ _ => rfl⟩
    simp only [tags, h, State.conclude, hi, making, hr]
  | @act i a j j' inner hq hj hr =>
    obtain ⟨hlt, rfl⟩ := List.getElem?_eq_some_iff.mp hj
    obtain ⟨htag, hmade, hbook⟩ := hT.react _ _ _ _ _ hr
    refine ⟨lost, ?_, fun _ _ => rfl⟩
    rw [tags_place hT, made_place hT, htag]
    simp only [tags, hmade, hbook, h, coe_map_perm (List.getElem_cons_eraseIdx_perm hlt).symm,
      coe_cons]
    abel
  | aside hq hr =>
    obtain ⟨hmade, hbook⟩ := hT.aside _ _ _ _ _ hr
    refine ⟨lost, ?_, fun _ _ => rfl⟩
    simp only [tags, hmade, hbook, h]

variable {ok : State J σ → Label R A F → Prop} {x : σ}

theorem tags_initial (hb : book x = []) : tags tag book (.initial x : State J σ) = 0 := by
  simp [tags, making, State.initial, hb]

theorem traced_run (hT : Tracing M tag made book) (hstart : ∀ w x, (M.start w x).1 = 0)
    (hm : made x = []) (hb : book x = []) (h : Lts.Run M.step ok (.initial x) s)
    (hd : s.dead = false) : (made s.inner : Multiset T) = tags tag book s := by
  refine Lts.run_invariant
    (I := fun s => s.dead = false → (made s.inner : Multiset T) = tags tag book s) h
    (fun _ => ?_) (fun s l t ht _ hs hd => ?_) hd
  · rw [tags_initial hb, show made (State.initial x : State J σ).inner = [] from hm]
    rfl
  · obtain ⟨lost, hl, h₀⟩ :=
      traced_step hT (show _ = _ + (0 : Multiset T) by rw [add_zero]; exact ht (dead_of_step hs)) hs
    rw [hl, h₀ hstart hd, add_zero]

/-- Whatever happens, no job is there twice. -/
theorem tags_le_run (hT : Tracing M tag made book) (hb : book x = [])
    (h : Lts.Run M.step ok (.initial x) s) : tags tag book s ≤ (made s.inner : Multiset T) := by
  refine Lts.run_invariant (I := fun s => tags tag book s ≤ (made s.inner : Multiset T)) h ?_
    fun s l t ht _ hs => ?_
  · rw [tags_initial hb]
    exact Multiset.zero_le _
  · obtain ⟨lost, hl⟩ := Multiset.le_iff_exists_add.mp ht
    obtain ⟨lost', hl', -⟩ := traced_step hT hl hs
    exact Multiset.le_iff_exists_add.mpr ⟨lost', hl'⟩

end Serial
