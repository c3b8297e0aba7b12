import Ublk.Lib.SerialLocks

/-! The job that a step starts, and machines that differ in what they start or do only. -/
namespace Serial

open Shared Machine

variable {J σ R A F : Type} {M : Machine J σ R A F} {s t : State J σ} {l : Label R A F} {j w : J}

/-- The job that the next step by itself starts. -/
def Machine.starting (M : Machine J σ R A F) (s : State J σ) : Option J :=
  match s.frames, s.issue with
  | f :: _, _ =>
    if f.finish then none
    else (popFirst (fun w => M.key w == M.key f.job) s.pending).map Prod.fst
  | [], some ⟨_, j :: _, _⟩ =>
    if (s.locks.tryLock (M.key j)).map Prod.fst = some true then some j else none
  | [], _ => none

/-- A job that is started was waiting or being made. -/
theorem mem_of_starting (h : M.starting s = some w) :
    w ∈ s.pending ∨ ∃ q, s.issue = some q ∧ w ∈ q.rest := by
  unfold Machine.starting at h
  split at h
  · split at h
    · cases h
    · obtain ⟨r, hr, rfl⟩ := Option.map_eq_some_iff.mp h
      exact .inl ((popFirst_some hr).2.mem_iff.mpr (.head _))
  · rename_i c j rest ret hf hi
    split at h
    · obtain rfl := Option.some.inj h
      exact .inr ⟨_, hi, .head _⟩
    · cases h
  · cases h

variable {start : J → σ → Int × J × σ} {react : A → J → σ → Option (J × σ)}
  {aside : F → σ → Requests → Option (σ × Requests)}

theorem tick_congr (h : ∀ w, M.starting s = some w → start w s.inner = M.start w s.inner) :
    ({ M with start, react, aside } : Machine J σ R A F).tick s = M.tick s := by
  unfold Machine.tick
  split
  · rfl
  · split
    · rename_i f fs hf
      cases hl : f.finish with
      | true => rfl
      | false =>
        simp only [Bool.false_eq_true, if_false, Option.some.injEq, Machine.round]
        cases hp : popFirst (fun w => M.key w == M.key f.job) s.pending with
        | none => rfl
        | some r =>
          have hw : start r.1 s.inner = M.start r.1 s.inner := h r.1 (by simp [starting, hf, hl, hp])
          simp only [hw]
          rfl
    · rename_i c j rest ret hf hi
      simp only [Option.some.injEq, dispatch]
      cases ht : s.locks.tryLock (M.key j) with
      | none => rfl
      | some r =>
        obtain ⟨b, locks⟩ := r
        cases b with
        | false => rfl
        | true =>
          have hw : start j s.inner = M.start j s.inner := h j (by simp [starting, hf, hi, ht])
          simp only [hw]
          rfl
    · rfl
    · rfl

/-- Machines that do the same with what a step starts or acts on make the same step. -/
theorem step_congr (hs : ∀ w, l = .tick → M.starting s = some w → start w s.inner = M.start w s.inner)
    (hr : ∀ i a j, l = .act i a → s.active[i]? = some j → react a j s.inner = M.react a j s.inner)
    (ha : ∀ f, l = .aside f → aside f s.inner s.reqs = M.aside f s.inner s.reqs) :
    ({ M with start, react, aside } : Machine J σ R A F).step s l = M.step s l := by
  cases l with
  | arrive r => rfl
  | tick => exact tick_congr fun w => hs w rfl
  | act i a =>
    unfold step
    dsimp only
    split
    · cases hj : s.active[i]? with
      | none => rfl
      | some j =>
        simp only [Option.bind_some, hr i a j rfl hj]
        rfl
    · rfl
  | aside f =>
    unfold step
    dsimp only
    split
    · simp only [ha f rfl]
    · rfl

end Serial
