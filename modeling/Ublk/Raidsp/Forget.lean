import Ublk.Raidsp.Acceptor

/-! The sub-writes on record that have ended decide nothing of what the acceptor does. -/
namespace Ublk.Raidsp

open Serial Acceptor

variable {G : Geometry} {E : Env} {w w' : SubWrite} {x x' : Inner} {r : Role} {parity buf : Nat → Byte}
  {ss : List Sub} {act : Act}

/-- Without the history of sub-writes that ended. -/
def Inner.forget (x : Inner) : Inner := { x with done := [] }

/-- The history decides nothing. -/
def Blind (f : SubWrite → Inner → SubWrite × Inner) : Prop :=
  ∀ w x, f w x.forget = ((f w x).1, (f w x).2.forget)

theorem blind_whenIdle {f : SubWrite → Inner → SubWrite × Inner} (hf : Blind f)
    (s : SubWrite × Inner) : whenIdle r f (s.1, s.2.forget) =
      ((whenIdle r f s).1, (whenIdle r f s).2.forget) := by
  unfold whenIdle
  split
  · exact hf s.1 s.2
  · rfl

theorem blind_writeDone : Blind (writeDone G r) := by
  intro w x
  unfold writeDone
  split
  · split <;> rfl
  · split
    · split <;> rfl
    · rfl

theorem blind_coherent : Blind fun w x => (stripeCoherentParityWrite G E w parity x).2 := by
  intro w x
  unfold stripeCoherentParityWrite
  have hb : (backendWrite G E w parity x.forget).2 = ((backendWrite G E w parity x).2.1,
    (backendWrite G E w parity x).2.2.forget) := rfl
  dsimp only
  rw [hb, blind_whenIdle blind_writeDone, blind_whenIdle blind_writeDone]

theorem blind_rpqDone : Blind (rpqDone G E) := by
  intro w x
  unfold rpqDone
  dsimp only
  split
  · exact blind_coherent w x
  · rfl

theorem forget_incoherent : stripeIncoherentParityWrite G E w parity x.forget =
    ((stripeIncoherentParityWrite G E w parity x).1,
      (stripeIncoherentParityWrite G E w parity x).2.1,
      (stripeIncoherentParityWrite G E w parity x).2.2.forget) := by
  unfold stripeIncoherentParityWrite
  have hb : backendWrite G E w parity x.forget = ((backendWrite G E w parity x).1,
    (backendWrite G E w parity x).2.1, (backendWrite G E w parity x).2.2.forget) := rfl
  dsimp only
  rw [hb]
  dsimp only
  split
  · split <;> rfl
  · rfl

theorem forget_submitRead : submitRead E r buf ss w x.forget =
    ((submitRead E r buf ss w x).1, (submitRead E r buf ss w x).2.1,
      (submitRead E r buf ss w x).2.2.forget) := rfl

theorem blind_rqdDone : Blind (rqdDone G E) := by
  intro w x
  unfold rqdDone
  dsimp only
  split
  · split
    · rw [forget_submitRead, blind_whenIdle blind_rpqDone]
    · rw [forget_incoherent]
  · rfl

theorem forget_stripePartWrite : stripePartWrite G E w x.forget =
    ((stripePartWrite G E w x).1, (stripePartWrite G E w x).2.1,
      (stripePartWrite G E w x).2.2.forget) := by
  unfold stripePartWrite
  dsimp only
  rw [forget_submitRead, blind_whenIdle blind_rqdDone]

theorem forget_stripeDataWrite : stripeDataWrite G E w x.forget =
    ((stripeDataWrite G E w x).1, (stripeDataWrite G E w x).2.1,
      (stripeDataWrite G E w x).2.2.forget) := by
  unfold stripeDataWrite stripeWrite
  split
  · exact congrArg (fun s : SubWrite × Inner => ((stripeCoherentParityWrite G E w _ x).1, s))
      (blind_coherent w x)
  · exact forget_incoherent

theorem forget_process : process G E w x.forget = ((process G E w x).1, (process G E w x).2.1,
    (process G E w x).2.2.forget) := by
  unfold process
  dsimp only [Inner.forget]
  split
  · exact congrArg (fun s : Int × SubWrite × Inner => (s.1, { s.2.1 with res := s.1 }, s.2.2))
      forget_stripePartWrite
  · exact congrArg (fun s : Int × SubWrite × Inner => (s.1, { s.2.1 with res := s.1 }, s.2.2))
      forget_stripeDataWrite

theorem blind_queryDone : Blind (queryDone G E r) := by
  cases r with
  | rqd => exact blind_rqdDone
  | rpq => exact blind_rpqDone
  | wqd => exact blind_writeDone
  | wqp => exact blind_writeDone

theorem forget_react (h : react G E act w x = some (w', x')) :
    react G E act w x.forget = some (w', x'.forget) := by
  cases act with
  | effect r k hit =>
    obtain ⟨q, hq, he⟩ := Option.map_eq_some_iff.mp h
    cases he
    exact Option.map_eq_some_iff.mpr ⟨q, hq, rfl⟩
  | settle r k e =>
    obtain ⟨q, hq, he⟩ := Option.map_eq_some_iff.mp h
    refine Option.map_eq_some_iff.mpr ⟨q, hq, ?_⟩
    rw [blind_whenIdle blind_queryDone (w.set r q, x), he]

end Ublk.Raidsp
