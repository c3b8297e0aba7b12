import Ublk.Lib.SerialJobs
import Ublk.Raidsp.Accounting

/-! What holds of each query by itself holds of the queries of a sub-write. -/
namespace Ublk.Raidsp

open Shared Serial Acceptor

/-- The codes that subqueries complete with in a step. -/
def Act.Settles (okE : Int → Prop) : Act → Prop
  | .effect _ _ _ => True
  | .settle _ _ e => okE e

def Beside.Settles (okE : Int → Prop) : Beside → Prop
  | .settle _ _ e => okE e
  | _ => True

/-- All queries of the sub-write have `P`. -/
def SubWrite.Have (P : Query → Prop) (w : SubWrite) : Prop := ∀ r, P (w.query r)

variable {G : Geometry} {E : Env} {w w' : SubWrite} {x x' : Inner} {r : Role} {q : Query} {e : Int}
  {parity : Nat → Byte} {act : Act} {P : Query → Prop} {okE : Int → Prop}

theorem beside_settles_any {b : Beside} : b.Settles fun _ => True := by cases b <;> trivial

theorem have_setErr (h : w.Have P) : (w.setErr e).Have P := by simpa [SubWrite.Have] using h

theorem have_set (h : w.Have P) (hq : P q) : (w.set r q).Have P := by
  intro r'
  by_cases hr : r' = r
  · subst hr
    rwa [SubWrite.query_set_self]
  · rw [SubWrite.query_set_of_ne hr]
    exact h r'

theorem have_of_query (h : w.Have P) (hq : w'.query = w.query) : w'.Have P := fun r => hq ▸ h r

theorem have_whenIdle {s : SubWrite × Inner} {f : SubWrite → Inner → SubWrite × Inner}
    (hs : s.1.Have P) (hf : (f s.1 s.2).1.Have P) : (whenIdle r f s).1.Have P := by
  unfold whenIdle
  split
  · exact hf
  · exact hs

section Rule

variable (hP : Query.Rule E okE P)

include hP

theorem have_submitRead {buf : Nat → Byte} {ss : List Sub} (h : w.Have P) :
    (submitRead E r buf ss w x).2.1.Have P := have_set h (hP.submit _ _ _ _)

theorem have_backendWrite (h : w.Have P) : (backendWrite G E w parity x).2.1.Have P := by
  refine have_set (have_set h (hP.submit _ _ _ _)) ?_
  split
  · exact hP.submit _ _ _ _
  · exact hP.submit true parity [] x.disk

theorem have_stripeCoherentParityWrite (h : w.Have P) :
    (stripeCoherentParityWrite G E w parity x).2.1.Have P := by
  refine have_of_query (@have_backendWrite G _ _ x parity _ _ hP h) ?_
  unfold stripeCoherentParityWrite
  exact query_whenIdle.1.trans query_whenIdle.1

theorem have_stripeIncoherentParityWrite (h : w.Have P) :
    (stripeIncoherentParityWrite G E w parity x).2.1.Have P := by
  refine have_of_query (@have_backendWrite G _ _ x parity _ _ hP h) ?_
  obtain ⟨r, r', -, -, -, he⟩ := stripeIncoherentParityWrite_eq G E w parity x
  rw [he]
  dsimp only
  split
  · simp [combinedCompleterGuard]
  · rfl

theorem have_rpqDone (h : w.Have P) : (rpqDone G E w x).1.Have P := by
  unfold rpqDone
  dsimp only
  split
  · exact have_stripeCoherentParityWrite hP h
  · exact have_setErr h

theorem have_rqdDone (h : w.Have P) : (rqdDone G E w x).1.Have P := by
  unfold rqdDone
  dsimp only
  split
  · split
    · exact have_setErr (have_whenIdle (have_submitRead hP h)
        (have_rpqDone hP (have_submitRead hP h)))
    · exact have_setErr (have_stripeIncoherentParityWrite hP h)
  · exact have_setErr h

theorem have_process (h : w.Have P) : (process G E w x).2.1.Have P := by
  have h' : SubWrite.Have P { w with coherent := x.coh w.stripe } := h
  suffices hs : ∀ s : Int × SubWrite × Inner, s.2.1.Have P →
      SubWrite.Have P { s.2.1 with res := s.1 } by
    refine hs _ ?_
    split
    · exact have_whenIdle (have_submitRead hP h') (have_rqdDone hP (have_submitRead hP h'))
    · unfold stripeDataWrite stripeWrite
      split
      · exact have_stripeCoherentParityWrite hP h'
      · exact have_stripeIncoherentParityWrite hP h'
  exact fun _ hs => hs

theorem have_queryDone (h : w.Have P) : (queryDone G E r w x).1.Have P := by
  cases r with
  | rqd => exact have_rqdDone hP h
  | rpq => exact have_rpqDone hP h
  | wqd => exact have_of_query h query_writeDone.1
  | wqp => exact have_of_query h query_writeDone.1

theorem have_react (hok : act.Settles okE) (h : w.Have P)
    (hr : react G E act w x = some (w', x')) : w'.Have P := by
  cases act with
  | effect r n hit =>
    obtain ⟨⟨q, dev'⟩, hq, he⟩ := Option.map_eq_some_iff.mp hr
    cases he
    exact have_set h (hP.effect _ _ _ _ _ _ hq (h r))
  | settle r n e =>
    obtain ⟨q, hq, he⟩ := Option.map_eq_some_iff.mp hr
    have hs : (w.set r q).Have P := have_set h (hP.settle _ _ _ _ hok hq (h r))
    have := have_whenIdle (r := r) (f := queryDone G E r) (s := (w.set r q, x)) hs
      (have_queryDone hP hs)
    rwa [he] at this

theorem have_split {wr : WriteReq} {c : Nat} (h : w ∈ (split G wr c x).1) : w.Have P := by
  intro r
  obtain ⟨_, -, -, hq, -⟩ := mem_split h
  rw [hq]
  exact hP.submit false (fun _ => 0) [] x.disk

theorem have_rule : JobRule (acceptor G E) (SubWrite.Have P) (SubWrite.Have P) (SubWrite.Have P)
    fun act _ => act.Settles okE where
  launch _ _ h := have_process hP h
  restart _ _ h := have_process hP h
  react _ _ _ _ _ hok h hr := have_react hP hok h hr
  park _ h := h
  split _ _ _ _ h := have_split hP h

end Rule

end Ublk.Raidsp
