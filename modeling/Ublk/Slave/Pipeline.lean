import Ublk.Cfq.Calls
import Ublk.Cmd.Loop
import Ublk.Cmd.Work

/-!
What `slave::run` puts together: the queue of commands, the event loop, the handler of the commands,
the acknowledger and the queue of acknowledgements, with the driver at the other end of both queues.
All but the driver is one thread, which carries out one handler of the executor after the other.
-/
namespace Ublk.Slave

open CmdHandler (Cmd Setup)

/-- `ublkdrv_cmd_ack` -/
structure CmdAck where
  id : Nat
  err : Nat
  deriving DecidableEq

/-- Where `CmdAcknowledger::handle` is. -/
inductive Acknowledger
  | idle
  /-- In the loop around `push`. -/
  | pushing (ack : CmdAck)
  /-- In front of the write that notifies the driver. -/
  | notifying
  deriving DecidableEq

structure Config where
  qcmd : Cfq.Ring
  qcmdAck : Cfq.Ring
  setup : Setup

structure State where
  qcmd : Cfq.State Cmd
  loop : EventLoop.State
  /-- The calls of the handler that the loop posted and that have not begun. -/
  posted : List Cmd
  handler : CmdHandler.State
  acknowledger : Acknowledger
  qcmdAck : Cfq.State CmdAck
  notified : Nat

inductive Label
  /-- The driver's side of the queues: it adds a command where there is room. -/
  | give (cmd : Cmd)
  | giving
  | collect
  | collecting
  /-- A step of the event loop, its pops excepted. -/
  | loop (a : EventLoop.Action)
  /-- An access of the loop's pop. -/
  | pop
  /-- The `i`-th posted call begins. The executor may choose any. -/
  | handle (i : Nat)
  /-- A step of a call or of a submitter. -/
  | work (l : CmdHandler.Label)
  /-- An access of the acknowledger's push. -/
  | push
  | notify (ok : Bool)

namespace State

def initial (i j : Nat) (cmds : Nat → Cmd) (acks : Nat → CmdAck) : State :=
  ⟨.initial i cmds, EventLoop.initial, [], .initial, .idle, .initial j acks, 0⟩

/-- The thread is in no call of the handler. -/
def Free (s : State) : Prop := s.acknowledger = .idle ∧ s.handler.call = none

instance (s : State) : Decidable s.Free := inferInstanceAs (Decidable (_ ∧ _))

def stepLoop (s : State) : EventLoop.Action → Option EventLoop.State
  | .pop _ => none
  | .finish => EventLoop.step s.loop .finish
  | a => if s.loop.phase = .popping then none else EventLoop.step s.loop a

/-- The loop over a batch. A command that is popped is posted to the handler. -/
def stepPop (C : Config) (s : State) : Option State :=
  match s.qcmd.pop with
  | .idle =>
    if s.loop.phase = .popping ∧ s.loop.cmds ≠ 0 then
      (Cfq.callPop s.qcmd).map fun q => { s with qcmd := q }
    else none
  | _ =>
    (Cfq.stepPop C.qcmd s.qcmd).bind fun q =>
      match q.pop with
      | .idle =>
        let cmd := q.log.getLast?.bind Cfq.Ret.taken
        (EventLoop.step s.loop (.pop cmd)).map fun l =>
          { s with qcmd := q, loop := l, posted := s.posted ++ cmd.toList }
      | _ => some { s with qcmd := q }

/-- The handler goes on to `h`; a request that is over is acknowledged first. -/
def worked (s : State) (h : CmdHandler.State) : State :=
  { s with
    handler := h
    acknowledger :=
      match h.acks.drop s.handler.acks.length with
      | [] => s.acknowledger
      | a :: _ => .pushing ⟨a.id, a.err⟩ }

/-- `while (!qcmd_ack_->push(cmd))` -/
def stepPush (C : Config) (s : State) : Option State :=
  match s.acknowledger, s.qcmdAck.push with
  | .pushing ack, .idle => (Cfq.callPush ack s.qcmdAck).map fun q => { s with qcmdAck := q }
  | .pushing ack, _ =>
    (Cfq.stepPush C.qcmdAck s.qcmdAck).map fun q =>
      { s with
        qcmdAck := q
        acknowledger :=
          if q.pushed.length = s.qcmdAck.pushed.length then .pushing ack else .notifying }
  | _, _ => none

end State

def step (C : Config) (s : State) : Label → Option State
  | .give cmd => (Cfq.callPush cmd s.qcmd).map fun q => { s with qcmd := q }
  | .giving => (Cfq.stepPush C.qcmd s.qcmd).map fun q => { s with qcmd := q }
  | .collect => (Cfq.callPop s.qcmdAck).map fun q => { s with qcmdAck := q }
  | .collecting => (Cfq.stepPop C.qcmdAck s.qcmdAck).map fun q => { s with qcmdAck := q }
  | .loop a => if s.Free then (s.stepLoop a).map fun l => { s with loop := l } else none
  | .pop => if s.Free then s.stepPop C else none
  | .handle i =>
    if s.Free ∧ s.loop.phase ≠ .popping then
      s.posted[i]?.bind fun cmd => (s.handler.handle C.setup cmd).map fun h =>
        { s with posted := s.posted.eraseIdx i, handler := h }
    else none
  | .work (.handle _) => none
  | .work l =>
    if s.acknowledger = .idle ∧ s.loop.phase ≠ .popping then
      (s.handler.step C.setup l).map s.worked
    else none
  | .push => s.stepPush C
  | .notify ok =>
    if s.acknowledger = .notifying then
      some { s with
        acknowledger := .idle
        notified := if ok then s.notified + 1 else s.notified }
    else none

variable {C : Config} {s t : State} {l : Label} {i j : Nat}

/-- The acknowledgement that is being pushed. -/
def Acknowledger.ack : Acknowledger → Option CmdAck
  | .pushing ack => some ack
  | _ => none

def ofAck (a : CmdHandler.Ack) : CmdAck := ⟨a.id, a.err⟩

/-- Nothing is lost between the parts, and nothing comes in twice. -/
structure Inv (C : Config) (i j : Nat) (s : State) : Prop where
  qcmd : Cfq.Inv C.qcmd i s.qcmd
  qcmdAck : Cfq.Inv C.qcmdAck j s.qcmdAck
  handler : CmdHandler.Inv s.handler
  handled : (s.handler.cmds ++ s.posted).Perm s.qcmd.popped
  acked : s.qcmdAck.pushed ++ s.acknowledger.ack.toList = s.handler.acks.map ofAck
  pushing : ∀ v, s.qcmdAck.push.value = some v → s.acknowledger = .pushing v

theorem inv_initial {cmds : Nat → Cmd} {acks : Nat → CmdAck} (hi : i < C.qcmd.full)
    (hj : j < C.qcmdAck.full) : Inv C i j (.initial i j cmds acks) := by
  refine ⟨Cfq.inv_initial hi, Cfq.inv_initial hj, CmdHandler.inv_initial, ?_, rfl, ?_⟩
  · exact List.Perm.refl _
  · simp [State.initial, Cfq.State.initial, Cfq.Push.value]

/-- What a step does. -/
inductive Step (C : Config) (s : State) : Label → State → Prop
  | give {cmd : Cmd} (hp : s.qcmd.push = .idle) :
      Step C s (.give cmd) { s with qcmd := { s.qcmd with push := .start cmd } }
  | giving {q : Cfq.State Cmd} (hq : Cfq.stepPush C.qcmd s.qcmd = some q) :
      Step C s .giving { s with qcmd := q }
  | collect (hp : s.qcmdAck.pop = .idle) :
      Step C s .collect { s with qcmdAck := { s.qcmdAck with pop := .start } }
  | collecting {q : Cfq.State CmdAck} (hq : Cfq.stepPop C.qcmdAck s.qcmdAck = some q) :
      Step C s .collecting { s with qcmdAck := q }
  | loop {a : EventLoop.Action} {l : EventLoop.State} (hf : s.Free) (hl : s.stepLoop a = some l) :
      Step C s (.loop a) { s with loop := l }
  | look (hf : s.Free) (hb : s.loop.phase = .popping ∧ s.loop.cmds ≠ 0)
      (hp : s.qcmd.pop = .idle) : Step C s .pop { s with qcmd := { s.qcmd with pop := .start } }
  | looking {q : Cfq.State Cmd} (hf : s.Free) (hq : Cfq.stepPop C.qcmd s.qcmd = some q)
      (hp : q.pop ≠ .idle) : Step C s .pop { s with qcmd := q }
  | popped {q : Cfq.State Cmd} {l : EventLoop.State} (hf : s.Free)
      (hq : Cfq.stepPop C.qcmd s.qcmd = some q) (hp : q.pop = .idle) (cmd : Option Cmd)
      (hc : cmd = q.log.getLast?.bind Cfq.Ret.taken)
      (hl : EventLoop.step s.loop (.pop cmd) = some l) :
      Step C s .pop { s with qcmd := q, loop := l, posted := s.posted ++ cmd.toList }
  | handle {k : Nat} {cmd : Cmd} {h : CmdHandler.State} (hf : s.Free)
      (hb : s.loop.phase ≠ .popping) (hk : s.posted[k]? = some cmd)
      (hh : s.handler.handle C.setup cmd = some h) :
      Step C s (.handle k) { s with posted := s.posted.eraseIdx k, handler := h }
  | work {l : CmdHandler.Label} {h : CmdHandler.State} (hf : s.acknowledger = .idle)
      (hb : s.loop.phase ≠ .popping) (hl : ∀ cmd, l ≠ .handle cmd)
      (hh : s.handler.step C.setup l = some h) : Step C s (.work l) (s.worked h)
  | push {ack : CmdAck} (ha : s.acknowledger = .pushing ack) (hp : s.qcmdAck.push = .idle) :
      Step C s .push { s with qcmdAck := { s.qcmdAck with push := .start ack } }
  | pushing {ack : CmdAck} {q : Cfq.State CmdAck} (ha : s.acknowledger = .pushing ack)
      (hq : Cfq.stepPush C.qcmdAck s.qcmdAck = some q) :
      Step C s .push { s with
        qcmdAck := q
        acknowledger :=
          if q.pushed.length = s.qcmdAck.pushed.length then .pushing ack else .notifying }
  | notify {ok : Bool} (ha : s.acknowledger = .notifying) :
      Step C s (.notify ok) { s with
        acknowledger := .idle
        notified := if ok then s.notified + 1 else s.notified }

theorem step_sound (h : step C s l = some t) : Step C s l t := by
  cases l with
  | give cmd =>
    obtain ⟨q, hq, rfl⟩ := Option.map_eq_some_iff.mp h
    obtain ⟨hp, rfl⟩ := Cfq.callPush_cases hq
    exact .give hp
  | giving =>
    obtain ⟨q, hq, rfl⟩ := Option.map_eq_some_iff.mp h
    exact .giving hq
  | collect =>
    obtain ⟨q, hq, rfl⟩ := Option.map_eq_some_iff.mp h
    obtain ⟨hp, rfl⟩ := Cfq.callPop_cases hq
    exact .collect hp
  | collecting =>
    obtain ⟨q, hq, rfl⟩ := Option.map_eq_some_iff.mp h
    exact .collecting hq
  | loop a =>
    obtain ⟨hf, h⟩ := Option.ite_none_right_eq_some.mp h
    obtain ⟨l, hl, rfl⟩ := Option.map_eq_some_iff.mp h
    exact .loop hf hl
  | pop =>
    obtain ⟨hf, h⟩ := Option.ite_none_right_eq_some.mp h
    unfold State.stepPop at h
    split at h
    · obtain ⟨hb, h⟩ := Option.ite_none_right_eq_some.mp h
      obtain ⟨q, hq, rfl⟩ := Option.map_eq_some_iff.mp h
      obtain ⟨hp, rfl⟩ := Cfq.callPop_cases hq
      exact .look hf hb hp
    · obtain ⟨q, hq, h⟩ := Option.bind_eq_some_iff.mp h
      split at h
      · rename_i hp
        obtain ⟨l, hl, rfl⟩ := Option.map_eq_some_iff.mp h
        exact .popped hf hq hp _ rfl hl
      · rename_i hp
        cases h
        exact .looking hf hq hp
  | handle k =>
    obtain ⟨⟨hf, hb⟩, h⟩ := Option.ite_none_right_eq_some.mp h
    obtain ⟨cmd, hk, h⟩ := Option.bind_eq_some_iff.mp h
    obtain ⟨u, hh, rfl⟩ := Option.map_eq_some_iff.mp h
    exact .handle hf hb hk hh
  | work l =>
    have hw : (∀ cmd, l ≠ .handle cmd) ∧ (if s.acknowledger = .idle ∧ s.loop.phase ≠ .popping then
        (s.handler.step C.setup l).map s.worked else none) = some t := by
      cases l with
      | handle cmd => cases h
      | _ => exact ⟨nofun, h⟩
    obtain ⟨hl, h⟩ := hw
    obtain ⟨⟨hf, hb⟩, h⟩ := Option.ite_none_right_eq_some.mp h
    obtain ⟨u, hh, rfl⟩ := Option.map_eq_some_iff.mp h
    exact .work hf hb hl hh
  | push =>
    change s.stepPush C = some t at h
    unfold State.stepPush at h
    split at h
    · rename_i ack ha hp
      obtain ⟨q, hq, rfl⟩ := Option.map_eq_some_iff.mp h
      obtain ⟨-, rfl⟩ := Cfq.callPush_cases hq
      exact .push ha hp
    · rename_i ack _ ha _
      obtain ⟨q, hq, rfl⟩ := Option.map_eq_some_iff.mp h
      exact .pushing ha hq
    · cases h
  | notify ok =>
    obtain ⟨ha, he⟩ := Option.ite_none_right_eq_some.mp h
    cases he
    exact .notify ha

/-- What the acknowledger was given is what the handler acknowledged since. -/
theorem ack_worked {h : CmdHandler.State} (ha : s.acknowledger = .idle)
    (hh : CmdHandler.Acknowledges s.handler h) :
    h.acks.map ofAck = s.handler.acks.map ofAck ++ (s.worked h).acknowledger.ack.toList := by
  unfold State.worked
  obtain hsame | ⟨a, hone⟩ := hh
  · simp [hsame, ha, Acknowledger.ack]
  · simp [hone, Acknowledger.ack, ofAck]

theorem popped_log {q : Cfq.State Cmd} (hq : Cfq.stepPop C.qcmd s.qcmd = some q)
    (hp : q.pop = .idle) :
    q.popped = s.qcmd.popped ++ (q.log.getLast?.bind Cfq.Ret.taken).toList := by
  obtain ⟨-, -, hpops⟩ := Cfq.stepPop_cases hq
  cases hpops with
  | on hp' => exact absurd hp hp'
  | empty _ hlog =>
    rw [Cfq.popped_of_log hlog, hlog]
    simp
  | done v _ hlog =>
    rw [Cfq.popped_of_log hlog, hlog]
    simp

theorem popped_looking {q : Cfq.State Cmd} (hq : Cfq.stepPop C.qcmd s.qcmd = some q)
    (hp : q.pop ≠ .idle) : q.log = s.qcmd.log := by
  obtain ⟨-, -, hpops⟩ := Cfq.stepPop_cases hq
  cases hpops with
  | on _ _ hlog => exact hlog
  | empty hp' => exact absurd hp' hp
  | done _ hp' => exact absurd hp' hp

/-- The acknowledger's access of the queue. -/
theorem inv_pushing {ack : CmdAck} {q : Cfq.State CmdAck} (h : Inv C i j s)
    (ha : s.acknowledger = .pushing ack) (hq : Cfq.stepPush C.qcmdAck s.qcmdAck = some q) :
    Inv C i j { s with
      qcmdAck := q
      acknowledger :=
        if q.pushed.length = s.qcmdAck.pushed.length then .pushing ack else .notifying } := by
  have hinv := Cfq.inv_stepPush h.qcmdAck hq
  have hacked := h.acked
  rw [ha] at hacked
  obtain ⟨-, v, hv, hpush⟩ := Cfq.stepPush_cases hq
  obtain rfl : ack = v := by
    have := (h.pushing v hv).symm.trans ha
    cases this
    rfl
  cases hpush with
  | on hv' _ hlog =>
    have hpushed : q.pushed = s.qcmdAck.pushed := by rw [Cfq.State.pushed, hlog]; rfl
    have hon : (if q.pushed.length = s.qcmdAck.pushed.length then .pushing ack else .notifying) =
      Acknowledger.pushing ack := if_pos (by rw [hpushed])
    rw [hon]
    refine ⟨h.qcmd, hinv, h.handler, h.handled, ?_, fun w hw => ?_⟩
    · rw [hpushed]
      exact hacked
    · rw [hv'] at hw
      cases hw
      rfl
  | full hp hlog =>
    have hpushed : q.pushed = s.qcmdAck.pushed := by simp [Cfq.pushed_of_log hlog, Cfq.Ret.given]
    have hon : (if q.pushed.length = s.qcmdAck.pushed.length then .pushing ack else .notifying) =
      Acknowledger.pushing ack := if_pos (by rw [hpushed])
    rw [hon]
    refine ⟨h.qcmd, hinv, h.handler, h.handled, ?_, fun w hw => ?_⟩
    · rw [hpushed]
      exact hacked
    · rw [hp] at hw
      cases hw
  | done hp hlog =>
    have hpushed : q.pushed = s.qcmdAck.pushed ++ [ack] := by
      simp [Cfq.pushed_of_log hlog, Cfq.Ret.given]
    have hoff : (if q.pushed.length = s.qcmdAck.pushed.length then .pushing ack else .notifying) =
      Acknowledger.notifying := if_neg (by simp [hpushed])
    rw [hoff]
    refine ⟨h.qcmd, hinv, h.handler, h.handled, ?_, fun w hw => ?_⟩
    · rw [hpushed]
      simpa [Acknowledger.ack] using hacked
    · rw [hp] at hw
      cases hw

theorem inv_step (h : Inv C i j s) (hs : step C s l = some t) : Inv C i j t := by
  obtain ⟨hqcmd, hqack, hhandler, hhandled, hacked, hpushing⟩ := h
  cases step_sound hs with
  | give hp => exact ⟨Cfq.inv_callPush hqcmd, hqack, hhandler, hhandled, hacked, hpushing⟩
  | giving hq =>
    refine ⟨Cfq.inv_stepPush hqcmd hq, hqack, hhandler, ?_, hacked, hpushing⟩
    rw [Cfq.popped_stepPush hq]
    exact hhandled
  | collect hp => exact ⟨hqcmd, Cfq.inv_callPop hqack, hhandler, hhandled, hacked, hpushing⟩
  | collecting hq =>
    obtain ⟨hpush, -⟩ := Cfq.stepPop_cases hq
    refine ⟨hqcmd, Cfq.inv_stepPop hqack hq, hhandler, hhandled, ?_, ?_⟩
    · rw [Cfq.pushed_stepPop hq]
      exact hacked
    · rw [hpush]
      exact hpushing
  | loop hf hl => exact ⟨hqcmd, hqack, hhandler, hhandled, hacked, hpushing⟩
  | look hf hb hp => exact ⟨Cfq.inv_callPop hqcmd, hqack, hhandler, hhandled, hacked, hpushing⟩
  | looking hf hq hp =>
    refine ⟨Cfq.inv_stepPop hqcmd hq, hqack, hhandler, ?_, hacked, hpushing⟩
    rw [Cfq.State.popped, popped_looking hq hp]
    exact hhandled
  | popped hf hq hp cmd hc hl =>
    refine ⟨Cfq.inv_stepPop hqcmd hq, hqack, hhandler, ?_, hacked, hpushing⟩
    rw [popped_log hq hp, ← hc, ← List.append_assoc]
    exact hhandled.append_right _
  | @handle k cmd u hf hb hk hh =>
    obtain ⟨hcmds, hacks⟩ := CmdHandler.handle_keeps hh
    refine ⟨hqcmd, hqack, CmdHandler.inv_handle hhandler hh, ?_, ?_, hpushing⟩
    · obtain ⟨hlt, rfl⟩ := List.getElem?_eq_some_iff.mp hk
      rw [hcmds, List.append_assoc]
      exact ((List.getElem_cons_eraseIdx_perm hlt).append_left _).trans hhandled
    · rw [hacks]
      exact hacked
  | @work l u hf hb hl hh =>
    obtain ⟨hcmds, hacks⟩ := CmdHandler.work_keeps hh hl
    refine ⟨hqcmd, hqack, CmdHandler.inv_step hhandler hh, ?_, ?_, fun v hv => ?_⟩
    · change (u.cmds ++ s.posted).Perm s.qcmd.popped
      rw [hcmds]
      exact hhandled
    · rw [hf] at hacked
      change s.qcmdAck.pushed ++ (s.worked u).acknowledger.ack.toList = u.acks.map ofAck
      rw [ack_worked hf hacks, ← hacked]
      simp [Acknowledger.ack]
    · have hidle := hpushing v hv
      rw [hf] at hidle
      cases hidle
  | push ha hp =>
    refine ⟨hqcmd, Cfq.inv_callPush hqack, hhandler, hhandled, hacked, fun v hv => ?_⟩
    cases hv
    exact ha
  | pushing ha hq => exact inv_pushing ⟨hqcmd, hqack, hhandler, hhandled, hacked, hpushing⟩ ha hq
  | notify ha =>
    refine ⟨hqcmd, hqack, hhandler, hhandled, ?_, fun v hv => ?_⟩
    · rw [ha] at hacked
      exact hacked
    · have hidle := hpushing v hv
      rw [ha] at hidle
      cases hidle

theorem inv_run {ok : State → Label → Prop} {cmds : Nat → Cmd} {acks : Nat → CmdAck}
    (hi : i < C.qcmd.full) (hj : j < C.qcmdAck.full)
    (h : Lts.Run (step C) ok (.initial i j cmds acks) s) : Inv C i j s :=
  Lts.run_invariant h (inv_initial hi hj) fun _ _ _ hinv _ hs => inv_step hinv hs

/-- Nothing is left to do for the commands given, and the driver has all acknowledgements. -/
structure AtRest (s : State) : Prop where
  qcmd : s.qcmd.popped = s.qcmd.pushed
  posted : s.posted = []
  call : s.handler.call = none
  queries : ∀ q ∈ s.handler.queries, ¬ q.Held
  acknowledger : s.acknowledger = .idle
  qcmdAck : s.qcmdAck.popped = s.qcmdAck.pushed

/-- What the driver may rely on. -/
structure Acknowledged (s : State) : Prop where
  /-- Each command that was popped is with the handler or posted to it, once. -/
  handled : (s.handler.cmds ++ s.posted).Perm s.qcmd.popped ∧ s.qcmd.popped <+: s.qcmd.pushed
  /-- What the driver gets are the handler's acknowledgements, in their order. -/
  acked : s.qcmdAck.popped <+: s.handler.acks.map ofAck
  once : (s.qcmdAck.popped.map CmdAck.id).Subperm (s.qcmd.pushed.map Cmd.id)
  all : AtRest s → (s.qcmdAck.popped.map CmdAck.id).Perm (s.qcmd.pushed.map Cmd.id)

theorem acked_of_inv (h : Inv C i j s) : s.qcmdAck.popped <+: s.handler.acks.map ofAck := by
  rw [← h.acked]
  exact h.qcmdAck.order.trans (List.prefix_append _ _)

theorem ids_ofAck (as : List CmdHandler.Ack) :
    (as.map ofAck).map CmdAck.id = as.map CmdHandler.Ack.id := by
  rw [List.map_map]
  rfl

theorem acknowledged_of_inv (h : Inv C i j s) : Acknowledged s := by
  have hacked := acked_of_inv h
  have hgiven : (s.handler.cmds.map Cmd.id).Subperm (s.qcmd.pushed.map Cmd.id) := by
    have hsub : (s.handler.cmds.map Cmd.id).Subperm (s.qcmd.popped.map Cmd.id) :=
      ((List.sublist_append_left _ _).map _).subperm.trans (h.handled.map _).subperm
    exact hsub.trans (h.qcmd.order.sublist.map _).subperm
  refine ⟨⟨h.handled, h.qcmd.order⟩, hacked, ?_, fun hr => ?_⟩
  · refine List.Subperm.trans ?_ hgiven
    refine (hacked.sublist.map CmdAck.id).subperm.trans ?_
    rw [ids_ofAck]
    exact CmdHandler.ids_subperm h.handler
  · have hz : ∀ c < s.handler.cmds.length, s.handler.shares c = 0 := by
      intro c _
      refine CmdHandler.shares_eq_zero.mpr ⟨?_, ?_⟩
      · rintro ⟨q, hq, -, hheld⟩
        exact hr.queries q hq hheld
      · simp [CmdHandler.State.pending, hr.call]
    have hall := h.acked
    rw [hr.acknowledger, ← hr.qcmdAck] at hall
    have hperm := h.handled
    rw [hr.posted, hr.qcmd, List.append_nil] at hperm
    have hids := CmdHandler.ids_perm h.handler hz
    rw [← ids_ofAck, ← hall] at hids
    simpa [Acknowledger.ack] using hids.trans (hperm.map Cmd.id)

/-- Whatever the driver, the thread and the submitters do, in any order of their memory accesses. -/
theorem acknowledged_of_run (C : Config) (i j : Nat) (cmds : Nat → Cmd) (acks : Nat → CmdAck)
    (hi : i < C.qcmd.full) (hj : j < C.qcmdAck.full) (s : State)
    (h : Lts.Run (step C) (fun _ _ => True) (.initial i j cmds acks) s) : Acknowledged s :=
  acknowledged_of_inv (inv_run hi hj h)

/-- Queues of two items, one cell, and two files to flush. -/
def small : Config := ⟨Cfq.twoSlots, Cfq.twoSlots, CmdHandler.oneCell⟩

/-- A command comes through the queue, and the loop pops it. -/
def flushGiven : List Label :=
  [.give ⟨7, .flush, 0, 0, 0, 0⟩, .giving, .giving, .giving, .giving, .loop (.read 1), .pop, .pop, .pop,
    .pop, .pop, .loop .finish]

/-- The flushers are called, and the acknowledgement goes back to the driver. -/
def flushServed : List Label :=
  [.handle 0, .work .advance, .work (.drop 0), .work (.returned 0), .work .advance, .work (.drop 0),
    .work (.returned 5), .work .advance, .work .advance, .push, .push, .push, .push, .push,
    .notify true, .collect, .collecting, .collecting, .collecting, .collecting]

theorem acknowledged_of_run_flush : ∃ s, Lts.exec (step small)
    (.initial 0 1 (fun _ => ⟨0, .read, 0, 0, 0, 0⟩) fun _ => ⟨0, 0⟩) (flushGiven ++ flushServed) = some s ∧
      s.qcmdAck.popped = [⟨7, 0⟩] ∧ Acknowledged s := by
  have hend : (Lts.exec (step small) (.initial 0 1 (fun _ => ⟨0, .read, 0, 0, 0, 0⟩) fun _ => ⟨0, 0⟩)
      (flushGiven ++ flushServed)).map (fun s => s.qcmdAck.popped) = some [⟨7, 0⟩] := by decide
  obtain ⟨s, hs, hp⟩ := Option.map_eq_some_iff.mp hend
  exact ⟨s, hs, hp, acknowledged_of_run small 0 1 _ _ (by decide) (by decide) s
    (Lts.run_of_exec (fun _ _ _ => trivial) hs)⟩

end Ublk.Slave
