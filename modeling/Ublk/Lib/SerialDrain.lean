import Ublk.Lib.SerialOwn
import Ublk.Lib.SerialShare
import Ublk.Lib.SerialTrace
import Mathlib.Data.Prod.Lex

/-!
Requests come to an end. Jobs are started a bounded number of times, each is at work for a bounded
number of acts, and a job that waits has one of its key at work. So once no request comes in any more
all jobs end, whatever the order of the steps, and every request has been completed.
-/
namespace Serial

open Shared Machine

variable {J σ R A F : Type} {M : Machine J σ R A F} {s t : State J σ} {l : Label R A F} {j : J}
  {outside : Nat → σ → Nat} {rank : J → Nat} {spare : σ → Nat} {okA : A → J → Prop}
  {okF : F → σ → Prop} {P : σ → Prop}

/-- An act in `okA` brings a job on, one in `okF` what is kept beside the jobs. As long as there is
a job at work, or something is kept, there is such an act. -/
structure Draining (M : Machine J σ R A F) (outside : Nat → σ → Nat) (P : σ → Prop)
    (rank : J → Nat) (spare : σ → Nat) (okA : A → J → Prop) (okF : F → σ → Prop) : Prop where
  react : ∀ a j x j' x', okA a j → M.react a j x = some (j', x') → rank j' < rank j
  busy : ∀ j x, M.busy j = true → ∃ a, okA a j ∧ M.react a j x ≠ none
  aside : ∀ f x q x' q', okF f x → M.aside f x q = some (x', q') → spare x' < spare x
  kept : ∀ x q c, P x → outside c x ≠ 0 → ∃ f, okF f x ∧ M.aside f x q ≠ none

/-- Nothing is asked of the steps where anything goes. -/
theorem run_unguarded {ok : State J σ → Label R A F → Prop} (h : Lts.Run M.step ok s t) :
    Lts.Run M.step (Guarded (fun _ _ => True) fun _ _ => True) s t := by
  refine Lts.run_mono (fun s l _ => ?_) h
  cases l with
  | act i a => exact fun _ _ => trivial
  | _ => trivial

/-- The steps of a program that takes in no more requests. -/
def Closing (okA : A → J → Prop) (okF : F → σ → Prop) (s : State J σ) : Label R A F → Prop
  | .arrive _ => False
  | l => Guarded okA okF s l

/-- Nothing is left to do, and every request was completed once. -/
structure Drained (outside : Nat → σ → Nat) (s : State J σ) : Prop where
  frames : s.frames = []
  issue : s.issue = none
  active : s.active = []
  pending : s.pending = []
  locks : ∀ k, ¬ s.locks.Locked k
  kept : ∀ c, outside c s.inner = 0
  runs : ∀ c < s.reqs.count, (s.reqs.req c).runs = 1

/-- Jobs that are yet to be started; one still to be made may have to wait first. -/
def unstarted (s : State J σ) : Nat := 2 * (making s.issue).length + s.pending.length

def atWork (rank : J → Nat) (s : State J σ) : Nat := (s.active.map rank).sum

/-- The calls that are to return. A completer that searches is two steps from its end. -/
def unreturned (s : State J σ) : Nat :=
  (s.frames.map fun f => if f.finish then 1 else 2).sum + s.issue.toList.length

/-- How far a state is from its end. -/
def distance (rank : J → Nat) (spare : σ → Nat) (s : State J σ) : Nat ×ₗ Nat ×ₗ Nat ×ₗ Nat :=
  toLex (unstarted s, toLex (atWork rank s, toLex (unreturned s, spare s.inner)))

theorem distance_lt_of_unstarted (h : unstarted t < unstarted s) :
    distance rank spare t < distance rank spare s :=
  Prod.Lex.toLex_lt_toLex.mpr (.inl h)

theorem distance_lt_of_atWork (h : unstarted t = unstarted s) (ha : atWork rank t < atWork rank s) :
    distance rank spare t < distance rank spare s :=
  Prod.Lex.toLex_lt_toLex.mpr (.inr ⟨h, Prod.Lex.toLex_lt_toLex.mpr (.inl ha)⟩)

theorem distance_lt_of_unreturned (h : unstarted t = unstarted s)
    (ha : atWork rank t = atWork rank s) (hu : unreturned t < unreturned s) :
    distance rank spare t < distance rank spare s :=
  Prod.Lex.toLex_lt_toLex.mpr (.inr ⟨h, Prod.Lex.toLex_lt_toLex.mpr
    (.inr ⟨ha, Prod.Lex.toLex_lt_toLex.mpr (.inl hu)⟩)⟩)

theorem unstarted_place : unstarted (M.place j s) = unstarted s := by
  rw [unstarted, unstarted, issue_place, pending_place]

theorem distance_step (hD : Draining M outside P rank spare okA okF) (hok : Closing okA okF s l)
    (hs : M.step s l = some t) : distance rank spare t < distance rank spare s := by
  cases step_sound hs with
  | arrive hq => exact hok.elim
  | unlock hd hf hl hp hu =>
    refine distance_lt_of_unreturned rfl rfl ?_
    simp [unreturned, hf, hl]
  | crash hd hf hl hp hu =>
    refine distance_lt_of_unreturned rfl rfl ?_
    simp [unreturned, hf, hl]
  | restart hd hf hl hp =>
    obtain ⟨-, hperm⟩ := popFirst_some hp
    refine distance_lt_of_unstarted ?_
    rw [unstarted_place]
    simp [unstarted, hperm.length_eq]
  | back hd hf hl =>
    refine distance_lt_of_unreturned rfl rfl ?_
    simp only [unreturned, Machine.back, hf, hl, List.map_cons, List.sum_cons, if_true]
    omega
  | @launch c j rest ret locks hd hf hi ht =>
    refine distance_lt_of_unstarted ?_
    rw [unstarted_place]
    simp only [unstarted, hi, making, List.length_cons]
    split
    · omega
    · simp only [List.length_nil]
      omega
  | wait hd hf hi ht =>
    refine distance_lt_of_unstarted ?_
    simp only [unstarted, hi, making, List.length_cons, List.length_append, List.length_nil]
    omega
  | overrun hd hf hi ht =>
    refine distance_lt_of_unstarted ?_
    simp [unstarted, hi, making]
  | @conclude q hd hf hi hr =>
    refine distance_lt_of_unreturned ?_ rfl ?_
    · simp [unstarted, State.conclude, hi, making, hr]
    · simp [unreturned, State.conclude, hi]
  | @act i a j j' inner hq hj hr =>
    obtain ⟨hlt, rfl⟩ := List.getElem?_eq_some_iff.mp hj
    have hrank := hD.react _ _ _ _ _ (hok _ hj) hr
    refine distance_lt_of_atWork unstarted_place ?_
    have hsum := ((List.getElem_cons_eraseIdx_perm hlt).map rank).sum_nat
    rw [List.map_cons, List.sum_cons] at hsum
    unfold atWork place
    split
    · simp only [List.map_append, List.map_cons, List.map_nil, List.sum_append, List.sum_cons,
        List.sum_nil]
      omega
    · dsimp only
      omega
  | @aside f inner reqs hq hr =>
    refine Prod.Lex.toLex_lt_toLex.mpr (.inr ⟨rfl, Prod.Lex.toLex_lt_toLex.mpr
      (.inr ⟨rfl, Prod.Lex.toLex_lt_toLex.mpr (.inr ⟨rfl, ?_⟩)⟩)⟩)
    exact hD.aside _ _ _ _ _ hok hr

/-- Where no step is left to a program that goes on, nothing is left to do. -/
theorem drained_of_stuck (hD : Draining M outside P rank spare okA okF) (ho : Ordered M s)
    (hc : Counted M outside s) (hp : P s.inner) (hd : s.dead = false)
    (h : ∀ l, Closing okA okF s l → M.step s l = none) : Drained outside s := by
  have htick : M.tick s = none := h .tick trivial
  have hframes : s.frames = [] := by
    cases hf : s.frames with
    | nil => rfl
    | cons f fs => simp [tick, hd, hf] at htick
  have hissue : s.issue = none := by
    cases hi : s.issue with
    | none => rfl
    | some q =>
      obtain ⟨c, rest, ret⟩ := q
      cases rest <;> simp [tick, hd, hframes, hi] at htick
  have hq : s.Quiet := ⟨hframes, hissue, hd⟩
  have hactive : s.active = [] := by
    cases ha : s.active with
    | nil => rfl
    | cons j js =>
      obtain ⟨a, hok, hr⟩ := hD.busy j s.inner (ho.busy j (by simp [ha]))
      have hnone := h (.act 0 a) fun j' hj' => by
        rw [ha, List.getElem?_cons_zero, Option.some.injEq] at hj'
        exact hj' ▸ hok
      simp only [step, if_pos hq, ha, List.getElem?_cons_zero, Option.bind_some,
        Option.map_eq_none_iff] at hnone
      exact absurd hnone hr
  have howners : M.owners s = [] := by simp [owners, hactive, hframes]
  have hlocks : ∀ k, ¬ s.locks.Locked k := fun k hk => by
    rw [ho.locked, howners] at hk
    cases hk
  have hpending : s.pending = [] :=
    List.eq_nil_iff_forall_not_mem.mpr fun w hw => hlocks _ (ho.pending w hw)
  have hkept : ∀ c, outside c s.inner = 0 := fun c => by
    by_contra hout
    obtain ⟨f, hok, hf⟩ := hD.kept s.inner s.reqs c hp hout
    have hnone := h (.aside f) hok
    simp only [step, if_pos hq, Option.map_eq_none_iff] at hnone
    exact hf hnone
  refine ⟨hframes, hissue, hactive, hpending, hlocks, hkept, fun c hlt => ?_⟩
  rw [runs_of_counted hc hlt, if_pos]
  simp [shares, hframes, hissue, hactive, hpending, hkept]

/-- From wherever a run leads: once no more requests come in, all that are there are completed,
unless a waiting job that is restarted reports a failure. -/
theorem ends_drained (hK : M.Fixed) (hS : Sharing M outside) (hP : Kept M (fun _ _ => True) P)
    (hD : Draining M outside P rank spare okA okF) (hd : Disciplined M s) (hc : Counted M outside s)
    (hp : P s.inner) :
    Lts.Ends M.step (fun s l => Closing okA okF s l ∧ Restarts M s l)
      (fun s => Drained outside s ∨ ¬ Restarts M s .tick) s := by
  refine Lts.ends_of_measure (I := fun s => Disciplined M s ∧ Counted M outside s ∧ P s.inner)
    wellFounded_lt (distance rank spare) (fun s l t hi hok hs => ⟨?_, distance_step hD hok.1 hs⟩)
    (fun s hi hstuck => ?_) ⟨hd, hc, hp⟩
  · have hcovers : Covers M s l := by
      rintro r rfl
      exact hok.1.elim
    have hd := disciplined_step hK hcovers hi.1 hok.2 hs
    have hany : Guarded (fun _ _ => True) (fun _ _ => True) s l := by cases l <;> simp [Guarded]
    exact ⟨hd, counted_step hS hi.2.1 hs hd.alive, kept_step hP hi.2.2 hany hs⟩
  · by_cases hr : Restarts M s .tick
    · refine .inl (drained_of_stuck hD hi.1.ordered hi.2.1 hi.2.2 hi.1.alive
        fun l hl => hstuck l ⟨hl, ?_⟩)
      cases l with
      | tick => exact hr
      | _ => trivial
    · exact .inr hr

end Serial
