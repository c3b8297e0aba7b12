import Ublk.Raidsp.Frame

/-!
Starting a sub-write. `process` returns the code of the first submit a handler rejects; the
submits it makes itself are those of the first phase.
-/
namespace Ublk.Raidsp

open Shared Serial Acceptor

variable {G : Geometry} {E : Env} {w : SubWrite} {x : Inner} {parity : Nat → Byte}

/-- The subqueries `process` submits itself, before any completer runs. -/
def firstSubs (G : Geometry) (w : SubWrite) (coherent : Bool) : List Sub :=
  if w.size < G.stripeDataSz then
    G.dataRead w.stripe (if coherent then w.off else 0)
      (if coherent then w.size else G.stripeDataSz)
  else G.dataWrite w.stripe w.off w.size ++ G.parityWrite w.stripe 0 G.stripSz

/-- No handler rejects one of the submits `process` makes itself. -/
def Accepted (G : Geometry) (E : Env) (w : SubWrite) (x : Inner) : Prop :=
  ∀ i < (firstSubs G w (x.coh w.stripe)).length,
    (E.beh (decide (¬ w.size < G.stripeDataSz)) (x.disk.next + i)).Accepts

theorem backendWrite_eq_zero : (backendWrite G E w parity x).1 = 0 ↔
    ∀ i < (G.dataWrite w.stripe w.off w.size ++ G.parityWrite w.stripe 0 G.stripSz).length,
      (E.beh true (x.disk.next + i)).Accepts := by
  have hd := @Query.submitAll_eq_zero E (Query.writing w.src) (G.dataWrite w.stripe w.off w.size)
    x.disk
  rw [List.length_append]
  unfold backendWrite
  dsimp only
  split
  · rename_i h₀
    rw [Query.submitAll_eq_zero, Query.next_submitAll h₀]
    constructor
    · intro h i hi
      by_cases hlt : i < (G.dataWrite w.stripe w.off w.size).length
      · exact hd.mp h₀ i hlt
      · have := h (i - (G.dataWrite w.stripe w.off w.size).length) (by omega)
        rwa [Nat.add_assoc, Nat.add_sub_cancel' (by omega)] at this
    · intro h i hi
      rw [Nat.add_assoc]
      exact h _ (by omega)
  · rename_i h₀
    exact ⟨fun h => absurd h h₀, fun h => absurd (hd.mpr fun i hi => h i (by omega)) h₀⟩

theorem process_eq_zero : (process G E w x).1 = 0 ↔ Accepted G E w x := by
  unfold Accepted firstSubs process
  by_cases hpart : w.size < G.stripeDataSz
  · simp only [hpart, if_true, not_true_eq_false, decide_false]
    exact Query.submitAll_eq_zero
  · simp only [hpart, if_false, not_false_eq_true, decide_true]
    refine Iff.trans ?_ (@backendWrite_eq_zero _ _ _ _ (parityRenew w.src G.stripeDataSz G.stripSz))
    unfold stripeDataWrite stripeWrite
    split <;> rfl

/-- A step in which no waiting sub-write that is restarted has one of its first submits rejected. -/
def RestartAccepted (G : Geometry) (E : Env) (s : State SubWrite Inner) :
    Label WriteReq Act Beside → Prop
  | .tick => ∀ f fs w ws, s.frames = f :: fs → f.finish = false →
      popFirst (fun w => w.stripe == f.job.stripe) s.pending = some (w, ws) →
      Accepted G E w s.inner
  | _ => True

theorem restarts_iff {s : State SubWrite Inner} {l : Label WriteReq Act Beside} :
    Restarts (acceptor G E) s l ↔ RestartAccepted G E s l := by
  cases l with
  | tick =>
    refine forall₄_congr fun f fs w ws => ?_
    rw [← process_eq_zero]
    rfl
  | _ => exact Iff.rfl

end Ublk.Raidsp
