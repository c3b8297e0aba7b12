import Ublk.Lib.SerialLocks

/-!
Requests and their parts. A request lives exactly as long as the call that received
it, its waiting, busy and ending jobs, and what the inner state keeps of it.
-/
namespace Serial

open Shared Machine

variable {J σ R A F : Type} {M : Machine J σ R A F} {s t : State J σ} {l : Label R A F}
  {j w : J} {outside : Nat → σ → Nat} {c : Nat}

/-- The call that makes jobs holds its request. -/
def calling : Option (Issue J) → Nat → Nat
  | some q, c => if c = q.client then 1 else 0
  | none, _ => 0

@[simp] theorem calling_none : calling (none : Option (Issue J)) c = 0 := rfl

@[simp] theorem calling_some {q : Issue J} :
    calling (some q) c = if c = q.client then 1 else 0 := rfl

/-- How many parts of request `c` are left. `outside` counts what the inner state keeps. -/
def shares (M : Machine J σ R A F) (outside : Nat → σ → Nat) (s : State J σ) (c : Nat) : Nat :=
  s.pending.countP (fun j => c == M.owner j) + s.active.countP (fun j => c == M.owner j) +
    s.frames.countP (fun f => c == M.owner f.job) +
    calling s.issue c + outside c s.inner

/-- Jobs keep their request, and only steps beside the jobs change what is kept outside. -/
structure Sharing (M : Machine J σ R A F) (outside : Nat → σ → Nat) : Prop where
  start : ∀ w x, M.owner (M.start w x).2.1 = M.owner w
  react : ∀ a j x j' x', M.react a j x = some (j', x') → M.owner j' = M.owner j
  park : ∀ j, M.owner (M.park j) = M.owner j
  split : ∀ r c x, ∀ j ∈ (M.split r c x).1, M.owner j = c
  split_outside : ∀ r d x c, outside c (M.split r d x).2 = outside c x
  start_outside : ∀ w x c, outside c (M.start w x).2.2 = outside c x
  react_outside : ∀ a j x j' x' c, M.react a j x = some (j', x') → outside c x' = outside c x
  enter_outside : ∀ j x c, outside c (M.enter j x).2 = outside c x
  leave_outside : ∀ j x c, outside c (M.leave j x).2 = outside c x
  aside : ∀ f x q x' q' (base : Nat → Nat), M.aside f x q = some (x', q') →
    q.Balanced (fun c => base c + outside c x) none →
    q'.Balanced (fun c => base c + outside c x') none

structure Counted (M : Machine J σ R A F) (outside : Nat → σ → Nat) (s : State J σ) : Prop where
  balanced : s.reqs.Balanced (shares M outside s) (s.issue.map (·.client))
  making : ∀ q, s.issue = some q → ∀ j ∈ q.rest, M.owner j = q.client

theorem shares_pos {q : Issue J} (hi : s.issue = some q) : 0 < shares M outside s q.client := by
  simp only [shares, hi, calling_some, if_true]
  omega

theorem counted_initial (x : σ) (hx : ∀ c, outside c x = 0) :
    Counted M outside (.initial x) := by
  constructor
  · have : shares M outside (.initial x) = fun _ => 0 := by
      funext c; simp [shares, State.initial, hx]
    rw [this]
    exact Requests.balanced_empty
  · simp [State.initial]

theorem shares_place (hS : Sharing M outside) :
    shares M outside (M.place j s) c =
      shares M outside s c + if c = M.owner j then 1 else 0 := by
  unfold place shares
  split
  · simp only [List.countP_append, List.countP_cons, List.countP_nil, beq_iff_eq]
    omega
  · simp only [List.countP_cons, beq_iff_eq, hS.enter_outside]
    omega

theorem balanced_place {f : Nat → Nat} {p : Option Nat} (h : s.reqs.Balanced f p) :
    (M.place j s).reqs.Balanced f p := by
  unfold place
  split
  · exact h
  · exact Requests.balanced_setErr h

theorem counted_restart (hS : Sharing M outside) (h : Counted M outside s) {f : Frame J}
    {fs : List (Frame J)} {pending : List J} (hf : s.frames = f :: fs)
    (hp : popFirst (fun w => M.key w == M.key f.job) s.pending = some (w, pending)) :
    Counted M outside (M.place (M.start w s.inner).2.1 { s with
      rounds := s.rounds ++ [f.acct], pending, inner := (M.start w s.inner).2.2
      frames := (if (M.start w s.inner).1 = 0 then ⟨f.job, f.acct, true⟩
        else ⟨f.job, M.ident w, false⟩) :: fs }) := by
  obtain ⟨-, hperm⟩ := popFirst_some hp
  constructor
  · rw [issue_place]
    refine balanced_place (Eq.mp ?_ h.balanced)
    congr 1
    funext c
    rw [shares_place hS, hS.start, shares, shares, hf, hperm.countP_eq]
    simp only [List.countP_cons, beq_iff_eq, hS.start_outside, apply_ite Frame.job, ite_self]
    omega
  · rw [issue_place]; exact h.making

theorem counted_launch (hS : Sharing M outside) (h : Counted M outside s) {rest : List J}
    {ret ret' : Int} {locks : LockTable} {rest' : List J} (hsub : ∀ x ∈ rest', x ∈ rest)
    (hi : s.issue = some ⟨c, j :: rest, ret⟩) :
    Counted M outside (M.place (M.start j s.inner).2.1 { s with
      reqs := s.reqs.share c, locks, inner := (M.start j s.inner).2.2
      issue := some ⟨c, rest', ret'⟩ }) := by
  have hown : M.owner j = c := h.making _ hi j (.head _)
  constructor
  · rw [issue_place]
    have hb := h.balanced
    rw [hi] at hb
    refine balanced_place (Requests.balanced_share hb (shares_pos hi) fun d => ?_)
    · rw [shares_place hS, hS.start, hown, shares, shares, hi]
      simp [hS.start_outside]
  · rw [issue_place]
    intro q hq x hx
    cases hq
    exact h.making _ hi x (.tail _ (hsub x hx))

theorem counted_act (hS : Sharing M outside) (h : Counted M outside s) {i : Nat} {a : A}
    {j' : J} {inner : σ} (hj : s.active[i]? = some j)
    (hr : M.react a j s.inner = some (j', inner)) :
    Counted M outside (M.place j' { s with active := s.active.eraseIdx i, inner }) := by
  obtain ⟨hlt, rfl⟩ := List.getElem?_eq_some_iff.mp hj
  constructor
  · rw [issue_place]
    refine balanced_place (Eq.mp ?_ h.balanced)
    congr 1
    funext c
    rw [shares_place hS, hS.react _ _ _ _ _ hr, shares, shares,
      ← (List.getElem_cons_eraseIdx_perm hlt).countP_eq]
    simp only [List.countP_cons, beq_iff_eq, hS.react_outside _ _ _ _ _ c hr]
    omega
  · rw [issue_place]; exact h.making

theorem counted_step (hS : Sharing M outside) (h : Counted M outside s)
    (hs : M.step s l = some t) (hd : t.dead = false) : Counted M outside t := by
  cases step_sound hs with
  | @arrive r hq =>
    constructor
    · have hb := h.balanced
      rw [hq.2.1] at hb
      refine Requests.balanced_create hb fun d => ?_
      simp [shares, Machine.arrive, hq.2.1, hS.split_outside]
      omega
    · intro q hq' j hj
      cases hq'
      exact hS.split _ _ _ j hj
  | @unlock f fs locks hd' hf hl hp hu =>
    refine ⟨Eq.mp ?_ h.balanced, h.making⟩
    congr 1
    funext c
    simp [shares, hf, List.countP_cons]
  | @crash f fs hd' hf hl hp hu => cases hd
  | restart hd' hf hl hp => exact counted_restart hS h hf hp
  | @back f fs hd' hf hl =>
    refine ⟨Requests.balanced_drop (Requests.balanced_setErr h.balanced) fun d => ?_, h.making⟩
    simp [shares, Machine.back, hf, List.countP_cons, hS.leave_outside]
    omega
  | @launch c j rest ret locks hd' hf hi ht =>
    refine counted_launch hS h (fun x hx => ?_) hi
    split at hx
    · exact hx
    · cases hx
  | @wait c j rest ret locks hd' hf hi ht =>
    have hown : M.owner j = c := h.making _ hi j (.head _)
    constructor
    · have hb := h.balanced
      rw [hi] at hb
      refine Requests.balanced_share hb (shares_pos hi) fun d => ?_
      · simp only [shares, hi, List.countP_append, List.countP_cons, List.countP_nil, hS.park,
          hown, beq_iff_eq, calling_some]
        omega
    · intro q hq x hx
      cases hq
      exact h.making _ hi x (.tail _ hx)
  | overrun hd' hf hi ht => cases hd
  | @conclude q hd' hf hi hr =>
    have hb := h.balanced
    rw [hi] at hb
    refine ⟨Requests.balanced_returned hb fun d => ?_, fun q' hq' => (by cases hq')⟩
    simp [shares, State.conclude, hi]
    omega
  | act hq hj hr => exact counted_act hS h hj hr
  | @aside f inner reqs hq hr =>
    have hi : s.issue.map (·.client) = none := by rw [hq.2.1]; rfl
    have hb := h.balanced
    rw [hi] at hb
    refine ⟨?_, h.making⟩
    change reqs.Balanced _ (s.issue.map (·.client))
    rw [hi]
    exact hS.aside _ _ _ _ _ (shares M (fun _ _ => 0) s) hr hb

theorem dead_of_step (hs : M.step s l = some t) : s.dead = false := by
  cases step_sound hs with
  | arrive hq => exact hq.2.2
  | act hq _ _ => exact hq.2.2
  | aside hq _ => exact hq.2.2
  | _ => assumption

/-- The step with which the program stops changes no job and completes no request. -/
theorem same_of_dead (hs : M.step s l = some t) (hd : t.dead = true) :
    t.active = s.active ∧ t.inner = s.inner ∧ t.reqs.count = s.reqs.count ∧
      t.reqs.alarms = s.reqs.alarms ∧ ∀ c, (t.reqs.req c).ret = (s.reqs.req c).ret ∧
        (t.reqs.req c).err = (s.reqs.req c).err ∧ (t.reqs.req c).runs = (s.reqs.req c).runs := by
  have hlive := dead_of_step hs
  cases step_sound hs with
  | crash => exact ⟨rfl, rfl, rfl, rfl, fun _ => ⟨rfl, rfl, rfl⟩⟩
  | overrun => exact ⟨rfl, rfl, rfl, rfl, fun _ => by simp⟩
  | restart | launch | act =>
    rw [dead_place] at hd
    exact absurd (hlive.symm.trans hd) Bool.false_ne_true
  | _ => exact absurd (hlive.symm.trans hd) Bool.false_ne_true

/-- Holders and parts agree as long as the program has not stopped. -/
theorem counted_run (hS : Sharing M outside) {ok : State J σ → Label R A F → Prop} {x : σ}
    (hx : ∀ c, outside c x = 0) (h : Lts.Run M.step ok (.initial x) s) (hd : s.dead = false) :
    Counted M outside s :=
  Lts.run_invariant (I := fun s => s.dead = false → Counted M outside s) h
    (fun _ => counted_initial x hx)
    (fun _ _ _ hc _ hs hd => counted_step hS (hc (dead_of_step hs)) hs hd) hd

/-- A completer runs at most once, and not before the last part of its request has ended. -/
theorem runs_of_counted (h : Counted M outside s) (hc : c < s.reqs.count) :
    (s.reqs.req c).runs = if shares M outside s c = 0 then 1 else 0 :=
  h.balanced.runs c hc

end Serial
