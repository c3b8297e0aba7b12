import Ublk.Slave.Pipeline

/-!
Each command that the driver gave comes back acknowledged. A rank for each part counts what is left
to do there; a step lowers the rank of its part and raises only those further down the line.
-/
namespace Ublk.Slave

open CmdHandler (Cmd Setup)

variable {C : Config} {s t : State} {l : Label} {i j : Nat}

/-- The driver counts no more commands than it has put into the queue, and its counts can be read. -/
def Honest (s : State) : Label → Prop
  | .loop (.read total) => s.loop.total ≤ total ∧ total < s.loop.total + 2 ^ 32 ∧
      total ≤ s.qcmd.pushed.length
  | .loop .readFails => False
  | _ => True

instance (s : State) : (l : Label) → Decidable (Honest s l)
  | .loop (.read total) => inferInstanceAs (Decidable (s.loop.total ≤ total ∧
      total < s.loop.total + 2 ^ 32 ∧ total ≤ s.qcmd.pushed.length))
  | .loop .readFails => isFalse id
  | .loop (.pop _) | .loop .finish | .loop .write | .loop .writeFails => isTrue trivial
  | .give _ | .giving | .collect | .collecting | .pop | .handle _ | .work _ | .push | .notify _ =>
    isTrue trivial

/-- Steps that bring something on: no new command comes, the driver's count is read when it grew,
submitters let go of what they hold, and nobody looks for room in a full queue or for something in
an empty one. -/
def Useful (C : Config) (s : State) : Label → Prop
  | .give _ | .loop .readFails | .work (.share _) | .work (.setErr _ _) => False
  | .loop (.read total) => s.loop.total < total ∧ total < s.loop.total + 2 ^ 32 ∧
      total ≤ s.qcmd.pushed.length
  | .push => s.qcmdAck.Room C.qcmdAck
  | .collect | .collecting => s.qcmdAck.Filled
  | _ => True

theorem honest_of_useful (h : Useful C s l) : Honest s l := by
  cases l with
  | loop a =>
    cases a with
    | read total => exact ⟨Nat.le_of_lt h.1, h.2⟩
    | readFails => exact h
    | _ => trivial
  | _ => trivial

/-- The thread does one thing after the other, and the loop pops what the driver counted. -/
structure Orderly (s : State) : Prop where
  loop : EventLoop.Inv s.loop
  running : s.loop.phase ≠ .stopped
  counted : s.qcmd.popped.length + s.loop.cmds = s.loop.total
  total : s.loop.total ≤ s.qcmd.pushed.length
  reading : s.loop.phase ≠ .popping → s.loop.cmds = 0
  inside : s.qcmd.pop ≠ .idle → s.loop.phase = .popping ∧ s.loop.cmds ≠ 0
  alone : s.loop.phase = .popping → s.Free
  owns : s.handler.Owns

theorem orderly_initial {cmds : Nat → Cmd} {acks : Nat → CmdAck} :
    Orderly (.initial i j cmds acks) := by
  refine ⟨EventLoop.inv_initial, nofun, rfl, Nat.zero_le _, fun _ => rfl, fun h => absurd rfl h,
    nofun, CmdHandler.owns_initial⟩

theorem allowed_of_honest {a : EventLoop.Action} (h : Honest s (.loop a)) :
    EventLoop.Allowed s.loop a := by
  cases a with
  | read total => exact ⟨h.1, h.2.1⟩
  | _ => trivial

theorem pushed_le_stepPush {T : Type} {D : Cfq.Ring} {q r : Cfq.State T}
    (h : Cfq.stepPush D q = some r) : q.pushed.length ≤ r.pushed.length := by
  obtain ⟨-, v, -, hpush⟩ := Cfq.stepPush_cases h
  cases hpush with
  | on _ _ hlog => rw [Cfq.State.pushed, Cfq.State.pushed, hlog]
  | full _ hlog => simp [Cfq.pushed_of_log hlog]
  | done _ hlog => simp [Cfq.pushed_of_log hlog]

/-- The steps of the loop that are none of the thread's pops. -/
theorem orderly_loop {a : EventLoop.Action} {u : EventLoop.State} (h : Orderly s)
    (hok : Honest s (.loop a)) (hf : s.Free) (hu : s.stepLoop a = some u) :
    Orderly { s with loop := u } := by
  have hinv : EventLoop.Inv u := by
    have hstep : EventLoop.step s.loop a = some u := by
      cases a with
      | pop cmd => cases hu
      | finish => exact hu
      | _ =>
        obtain ⟨-, hu⟩ := Option.ite_none_left_eq_some.mp hu
        exact hu
    exact EventLoop.inv_step h.loop (allowed_of_honest hok) hstep
  have hinside : s.loop.phase ≠ .popping ∨ s.loop.cmds = 0 → s.qcmd.pop = .idle := by
    intro hn
    by_contra hp
    obtain ⟨hphase, hcmds⟩ := h.inside hp
    exact hn.elim (fun hn => hn hphase) hcmds
  cases a with
  | pop cmd => cases hu
  | read total =>
    obtain ⟨hphase, hu⟩ := Option.ite_none_left_eq_some.mp hu
    cases EventLoop.step_sound hu with
    | read hp =>
      have hcmds := EventLoop.cmds_begin h.loop.last ⟨hok.1, hok.2.1⟩
      have hzero := h.reading hphase
      have hcount := h.counted
      have hle := hok.1
      refine ⟨hinv, nofun, ?_, hok.2.2, fun hn => absurd rfl hn,
        fun hn => absurd (hinside (.inl hphase)) hn, fun _ => hf, h.owns⟩
      simp only [hcmds]
      change _ = total
      omega
  | readFails => exact hok.elim
  | finish =>
    have hu : EventLoop.step s.loop .finish = some u := hu
    cases EventLoop.step_sound hu with
    | finish hp hc =>
      exact ⟨hinv, nofun, h.counted, h.total, fun _ => hc,
        fun hn => absurd (hinside (.inr hc)) hn, nofun, h.owns⟩
  | write =>
    obtain ⟨hphase, hu⟩ := Option.ite_none_left_eq_some.mp hu
    cases EventLoop.step_sound hu with
    | write hw =>
      exact ⟨hinv, h.running, h.counted, h.total, h.reading, h.inside, h.alone, h.owns⟩
  | writeFails =>
    obtain ⟨hphase, hu⟩ := Option.ite_none_left_eq_some.mp hu
    cases EventLoop.step_sound hu with
    | writeFails hw =>
      exact ⟨hinv, h.running, h.counted, h.total, h.reading, h.inside, h.alone, h.owns⟩

/-- The loop's pop returns. -/
theorem orderly_popped {q : Cfq.State Cmd} {u : EventLoop.State} {cmd : Option Cmd}
    (h : Orderly s) (hq : Cfq.stepPop C.qcmd s.qcmd = some q) (hp : q.pop = .idle)
    (hc : cmd = q.log.getLast?.bind Cfq.Ret.taken) (hu : EventLoop.step s.loop (.pop cmd) = some u) :
    Orderly { s with qcmd := q, loop := u, posted := s.posted ++ cmd.toList } := by
  have hallowed : EventLoop.Allowed s.loop (.pop cmd) := trivial
  have hinv := EventLoop.inv_step h.loop hallowed hu
  have hpushed := Cfq.pushed_stepPop hq
  have hpopped := popped_log hq hp
  rw [← hc] at hpopped
  have hcount := h.counted
  have htotal := h.total
  rw [← hpushed] at htotal
  cases EventLoop.step_sound hu with
  | @take cmd hphase hne =>
    refine ⟨hinv, by simp [EventLoop.State.take, hphase], ?_, htotal, fun hn => absurd hphase hn,
      fun hn => absurd hp hn, fun _ => h.alone hphase, h.owns⟩
    simp only [hpopped, Option.toList_some, List.length_append, List.length_singleton]
    change _ + (s.loop.cmds - 1) = s.loop.total
    omega
  | spin hphase hne =>
    refine ⟨hinv, h.running, ?_, htotal, h.reading, fun hn => absurd hp hn, h.alone, h.owns⟩
    simp only [hpopped, Option.toList_none, List.append_nil]
    exact hcount

theorem orderly_step (h : Orderly s) (hok : Honest s l) (hs : step C s l = some t) : Orderly t := by
  have hbusy : ¬ s.Free → s.loop.phase ≠ .popping := fun hn hp => hn (h.alone hp)
  cases step_sound hs with
  | give hp =>
    exact ⟨h.loop, h.running, h.counted, h.total, h.reading, h.inside, h.alone, h.owns⟩
  | giving hq =>
    obtain ⟨hpop, -⟩ := Cfq.stepPush_cases hq
    refine ⟨h.loop, h.running, ?_, h.total.trans (pushed_le_stepPush hq), h.reading, ?_, h.alone,
      h.owns⟩
    · rw [Cfq.popped_stepPush hq]
      exact h.counted
    · rw [hpop]
      exact h.inside
  | collect hp =>
    exact ⟨h.loop, h.running, h.counted, h.total, h.reading, h.inside, h.alone, h.owns⟩
  | collecting hq =>
    exact ⟨h.loop, h.running, h.counted, h.total, h.reading, h.inside, h.alone, h.owns⟩
  | loop hf hl => exact orderly_loop h hok hf hl
  | look hf hb hp =>
    exact ⟨h.loop, h.running, h.counted, h.total, h.reading, fun _ => hb, h.alone, h.owns⟩
  | looking hf hq hp =>
    have hlog := popped_looking hq hp
    obtain ⟨-, hne, -⟩ := Cfq.stepPop_cases hq
    refine ⟨h.loop, h.running, ?_, ?_, h.reading, fun _ => h.inside hne, h.alone, h.owns⟩
    · rw [Cfq.State.popped, hlog]
      exact h.counted
    · rw [Cfq.State.pushed, hlog]
      exact h.total
  | popped hf hq hp cmd hc hl => exact orderly_popped h hq hp hc hl
  | handle hf hb hk hh =>
    exact ⟨h.loop, h.running, h.counted, h.total, h.reading, h.inside, fun hp => absurd hp hb,
      CmdHandler.owns_handle h.owns hh⟩
  | work hf hb hl hh =>
    exact ⟨h.loop, h.running, h.counted, h.total, h.reading, h.inside, fun hp => absurd hp hb,
      CmdHandler.owns_step h.owns hh⟩
  | push ha hp =>
    exact ⟨h.loop, h.running, h.counted, h.total, h.reading, h.inside, h.alone, h.owns⟩
  | pushing ha hq =>
    have hphase := hbusy fun hf => by simp [hf.1] at ha
    exact ⟨h.loop, h.running, h.counted, h.total, h.reading, h.inside, fun hp => absurd hp hphase,
      h.owns⟩
  | notify ha =>
    have hphase := hbusy fun hf => by simp [hf.1] at ha
    exact ⟨h.loop, h.running, h.counted, h.total, h.reading, h.inside, fun hp => absurd hp hphase,
      h.owns⟩

/-- The accesses that a call under way has yet to make. -/
def rest (p : Cfq.Push Cmd) : Nat := if p.value = none then 0 else p.left

def Acknowledger.left (a : Acknowledger) (p : Cfq.Push CmdAck) : Nat :=
  match a with
  | .idle => 0
  | .notifying => 1
  | .pushing _ => 1 + p.left

/-- What is left to do, the front of the line first. -/
def ranks : List (State → Nat) := [
  fun s => rest s.qcmd.push,
  fun s => s.qcmd.pushed.length - s.loop.total,
  fun s => s.qcmd.pushed.length - s.qcmd.popped.length,
  fun s => if s.loop.phase = .popping then 1 else 0,
  fun s => s.qcmd.pop.left,
  fun s => s.loop.writes.length,
  fun s => s.posted.length,
  fun s => s.handler.left,
  fun s => s.handler.held,
  fun s => s.acknowledger.left s.qcmdAck.push,
  fun s => s.qcmdAck.pushed.length - s.qcmdAck.popped.length,
  fun s => s.qcmdAck.pop.left]

open Lts.Lowers

theorem lowers_giving {q : Cfq.State Cmd} (hq : Cfq.stepPush C.qcmd s.qcmd = some q) :
    Lts.Lowers ranks { s with qcmd := q } s := by
  obtain ⟨-, v, hv, hpush⟩ := Cfq.stepPush_cases hq
  refine here ?_
  have hs : rest s.qcmd.push = s.qcmd.push.left := if_neg (by simp [hv])
  have hpos : 0 < s.qcmd.push.left := Cfq.left_pos
  change rest q.push < rest s.qcmd.push
  rw [hs]
  cases hpush with
  | on hv' hl => exact Nat.lt_of_le_of_lt (by unfold rest; split <;> omega) hl
  | full hp => simpa [rest, hp, Cfq.Push.value] using hpos
  | done hp => simpa [rest, hp, Cfq.Push.value] using hpos

theorem lowers_collecting {q : Cfq.State CmdAck} (h : Inv C i j s) (hf : s.qcmdAck.Filled)
    (hq : Cfq.stepPop C.qcmdAck s.qcmdAck = some q) :
    Lts.Lowers ranks { s with qcmdAck := q } s := by
  obtain ⟨hpush, -, hpop⟩ := Cfq.stepPop_cases hq
  have hleft : s.acknowledger.left q.push ≤ s.acknowledger.left s.qcmdAck.push := by rw [hpush]
  have hpushed := Cfq.pushed_stepPop hq
  iterate 9 refine there (Nat.le_refl _) ?_
  refine there hleft ?_
  cases hpop with
  | on _ hl hlog =>
    refine there ?_ (here hl)
    simp only [Cfq.State.pushed, Cfq.State.popped, hlog]
    exact Nat.le_refl _
  | empty _ hlog => exact absurd hlog (Cfq.not_empty_of_filled h.qcmdAck hf hq)
  | done v _ hlog =>
    have hpopped := Cfq.popped_of_log hlog
    refine here ?_
    simp only [hpushed, hpopped, Cfq.Ret.taken, Option.toList_some, List.length_append,
      List.length_singleton]
    unfold Cfq.State.Filled at hf
    omega

theorem lowers_loop {a : EventLoop.Action} {u : EventLoop.State} (hok : Useful C s (.loop a))
    (hu : s.stepLoop a = some u) :
    Lts.Lowers ranks { s with loop := u } s := by
  refine there (Nat.le_refl _) ?_
  cases a with
  | pop cmd => cases hu
  | read total =>
    obtain ⟨hphase, hu⟩ := Option.ite_none_left_eq_some.mp hu
    cases EventLoop.step_sound hu with
    | read hp =>
      obtain ⟨hlt, -, hle⟩ := hok
      refine here ?_
      change s.qcmd.pushed.length - total < s.qcmd.pushed.length - s.loop.total
      omega
  | readFails => exact hok.elim
  | finish =>
    have hu : EventLoop.step s.loop .finish = some u := hu
    cases EventLoop.step_sound hu with
    | finish hp hc =>
      refine there (Nat.le_refl _) (there (Nat.le_refl _) (here ?_))
      simp [EventLoop.State.finish, hp]
  | write =>
    obtain ⟨hphase, hu⟩ := Option.ite_none_left_eq_some.mp hu
    cases EventLoop.step_sound hu with
    | write hw =>
      iterate 4 refine there (Nat.le_refl _) ?_
      refine here ?_
      simp [EventLoop.State.deliver, hw]
  | writeFails =>
    obtain ⟨hphase, hu⟩ := Option.ite_none_left_eq_some.mp hu
    cases EventLoop.step_sound hu with
    | writeFails hw =>
      iterate 4 refine there (Nat.le_refl _) ?_
      refine here ?_
      simp [hw]

/-- The driver counted no more than there is, so the loop finds what it looks for. -/
theorem filled_of_orderly (h : Orderly s) (hc : s.loop.cmds ≠ 0) : s.qcmd.Filled := by
  have hcount := h.counted
  have htotal := h.total
  unfold Cfq.State.Filled
  omega

theorem lowers_looking {q : Cfq.State Cmd} (hq : Cfq.stepPop C.qcmd s.qcmd = some q)
    (hp : q.pop ≠ .idle) : Lts.Lowers ranks { s with qcmd := q } s := by
  obtain ⟨hpush, -, hpops⟩ := Cfq.stepPop_cases hq
  have hlog := popped_looking hq hp
  have hpushed : q.pushed = s.qcmd.pushed := by rw [Cfq.State.pushed, hlog]; rfl
  have hpopped : q.popped = s.qcmd.popped := by rw [Cfq.State.popped, hlog]; rfl
  refine there ?_ (there ?_ (there ?_ (there (Nat.le_refl _) (here ?_))))
  · simp only [hpush]
    exact Nat.le_refl _
  · simp only [hpushed]
    exact Nat.le_refl _
  · simp only [hpushed, hpopped]
    exact Nat.le_refl _
  · cases hpops with
    | on _ hl => exact hl
    | empty hp' => exact absurd hp' hp
    | done _ hp' => exact absurd hp' hp

theorem lowers_popped {q : Cfq.State Cmd} {u : EventLoop.State} {cmd : Option Cmd}
    (hinv : Inv C i j s) (h : Orderly s) (hq : Cfq.stepPop C.qcmd s.qcmd = some q)
    (hp : q.pop = .idle) (hc : cmd = q.log.getLast?.bind Cfq.Ret.taken)
    (hu : EventLoop.step s.loop (.pop cmd) = some u) :
    Lts.Lowers ranks { s with qcmd := q, loop := u, posted := s.posted ++ cmd.toList } s := by
  obtain ⟨hpush, hne, hpops⟩ := Cfq.stepPop_cases hq
  have hfilled := filled_of_orderly h (h.inside hne).2
  have hpushed := Cfq.pushed_stepPop hq
  have hpopped := popped_log hq hp
  rw [← hc] at hpopped
  cases hpops with
  | on hp' => exact absurd hp hp'
  | empty _ hlog => exact absurd hlog (Cfq.not_empty_of_filled hinv.qcmd hfilled hq)
  | done v _ hlog =>
    obtain rfl : cmd = some v := by rw [hc, hlog]; simp [Cfq.Ret.taken]
    cases EventLoop.step_sound hu with
    | take hphase hcmds =>
      refine there ?_ (there ?_ (here ?_))
      · simp only [hpush]
        exact Nat.le_refl _
      · simp only [hpushed]
        exact Nat.le_refl _
      · simp only [hpushed, hpopped, Option.toList_some, List.length_append, List.length_singleton]
        unfold Cfq.State.Filled at hfilled
        omega

/-- A call, or a submitter that lets go, comes closer to its end; what it acknowledges is further
down the line. -/
theorem lowers_work {m : CmdHandler.Label} {u : CmdHandler.State} (hok : Useful C s (.work m))
    (hm : ∀ cmd, m ≠ .handle cmd) (hu : s.handler.step C.setup m = some u) :
    Lts.Lowers ranks (s.worked u) s := by
  iterate 7 refine there (Nat.le_refl _) ?_
  cases m with
  | handle cmd => exact absurd rfl (hm cmd)
  | advance =>
    obtain ⟨-, hl, -⟩ := CmdHandler.advance_keeps hu
    exact here hl
  | returned r =>
    obtain ⟨-, hl, -⟩ := CmdHandler.returned_keeps hu
    exact here hl
  | share k => exact hok.elim
  | setErr k e => exact hok.elim
  | drop k =>
    obtain ⟨-, hcall, hl, -⟩ := CmdHandler.drop_keeps hu
    refine there ?_ (here hl)
    change u.left ≤ s.handler.left
    rw [CmdHandler.State.left, hcall]
    exact Nat.le_refl _

theorem lowers_pushing {ack : CmdAck} {q : Cfq.State CmdAck} (h : Inv C i j s)
    (hr : s.qcmdAck.Room C.qcmdAck) (ha : s.acknowledger = .pushing ack)
    (hq : Cfq.stepPush C.qcmdAck s.qcmdAck = some q) :
    Lts.Lowers ranks { s with
      qcmdAck := q
      acknowledger :=
        if q.pushed.length = s.qcmdAck.pushed.length then .pushing ack else .notifying } s := by
  obtain ⟨-, v, -, hpush⟩ := Cfq.stepPush_cases hq
  have hpos : 0 < s.qcmdAck.push.left := Cfq.left_pos
  iterate 9 refine there (Nat.le_refl _) ?_
  refine here ?_
  simp only [ha]
  cases hpush with
  | on _ hl hlog =>
    have hpushed : q.pushed = s.qcmdAck.pushed := by rw [Cfq.State.pushed, hlog]; rfl
    rw [if_pos (by rw [hpushed])]
    simp only [Acknowledger.left]
    omega
  | full _ hlog => exact absurd hlog (Cfq.not_full_of_room h.qcmdAck hr hq)
  | done _ hlog =>
    have hpushed : q.pushed = s.qcmdAck.pushed ++ [v] := by
      simp [Cfq.pushed_of_log hlog, Cfq.Ret.given]
    rw [if_neg (by simp [hpushed])]
    simp only [Acknowledger.left]
    omega

theorem lowers_step (hinv : Inv C i j s) (h : Orderly s) (hok : Useful C s l)
    (hs : step C s l = some t) : Lts.Lowers ranks t s := by
  cases step_sound hs with
  | give hp => exact hok.elim
  | giving hq => exact lowers_giving hq
  | collect hp =>
    iterate 11 refine there (Nat.le_refl _) ?_
    refine here ?_
    simp [hp, Cfq.Pop.left]
  | collecting hq => exact lowers_collecting hinv hok hq
  | loop hf hl => exact lowers_loop hok hl
  | look hf hb hp =>
    iterate 4 refine there (Nat.le_refl _) ?_
    refine here ?_
    simp [hp, Cfq.Pop.left]
  | looking hf hq hp => exact lowers_looking hq hp
  | popped hf hq hp cmd hc hl => exact lowers_popped hinv h hq hp hc hl
  | handle hf hb hk hh =>
    iterate 6 refine there (Nat.le_refl _) ?_
    refine here ?_
    obtain ⟨hlt, -⟩ := List.getElem?_eq_some_iff.mp hk
    simp only [List.length_eraseIdx, if_pos hlt]
    omega
  | work hf hb hl hh => exact lowers_work hok hl hh
  | push ha hp =>
    iterate 9 refine there (Nat.le_refl _) ?_
    refine here ?_
    simp [ha, hp, Acknowledger.left, Cfq.Push.left]
  | pushing ha hq => exact lowers_pushing hinv hok ha hq
  | notify ha =>
    iterate 9 refine there (Nat.le_refl _) ?_
    refine here ?_
    simp [ha, Acknowledger.left]

/-- The handler can serve what it is given: there are cells, and none of them is empty. -/
structure Config.Serves (C : Config) : Prop where
  cells : C.setup.cellds.length ≠ 0 ∧ C.setup.cellsSz ≠ 0
  size : ∀ celld ∈ C.setup.cellds, celld.dataSz ≠ 0

section Stuck

variable (hinv : Inv C i j s) (h : Orderly s) (hstop : ∀ l, Useful C s l → step C s l = none)

include hstop

include hinv in
theorem given_of_stuck : s.qcmd.push = .idle :=
  (Cfq.correct_of_inv hinv.qcmd).expects.1 (Option.map_eq_none_iff.mp (hstop .giving trivial))

include hinv in
theorem collected_of_stuck : s.qcmdAck.popped = s.qcmdAck.pushed := by
  by_contra hne
  have hf := Cfq.filled_of_ne hinv.qcmdAck hne
  have hidle : s.qcmdAck.pop = .idle := (Cfq.correct_of_inv hinv.qcmdAck).expects.2
    (Option.map_eq_none_iff.mp (hstop .collecting hf))
  have hcall := Option.map_eq_none_iff.mp (hstop .collect hf)
  simp [Cfq.callPop, hidle] at hcall

include hinv in
theorem acknowledger_of_stuck : s.acknowledger = .idle := by
  have hroom : s.qcmdAck.Room C.qcmdAck := by
    have htwo := C.qcmdAck.two
    unfold Cfq.State.Room
    rw [collected_of_stuck hinv hstop]
    omega
  cases ha : s.acknowledger with
  | idle => rfl
  | pushing ack =>
    have hpush : s.stepPush C = none := hstop .push hroom
    unfold State.stepPush at hpush
    split at hpush
    · rename_i hp
      have hcall := Option.map_eq_none_iff.mp hpush
      simp [Cfq.callPush, hp] at hcall
    · rename_i hn
      exact absurd ((Cfq.correct_of_inv hinv.qcmdAck).expects.1 (Option.map_eq_none_iff.mp hpush))
        (by simpa using hn)
    · rename_i hn _
      exact absurd ha (hn ack)
  | notifying =>
    have hnotify := hstop (.notify true) trivial
    simp [step, ha] at hnotify

include hinv h in
theorem phase_of_stuck : s.loop.phase = .reading := by
  cases hp : s.loop.phase with
  | reading => rfl
  | stopped => exact absurd hp h.running
  | popping =>
    have hf := h.alone hp
    by_cases hc : s.loop.cmds = 0
    · have hfinish := hstop (.loop .finish) trivial
      simp [step, hf, State.stepLoop, EventLoop.step, hp, hc] at hfinish
    · have hpop : (if s.Free then s.stepPop C else none) = none := hstop .pop trivial
      rw [if_pos hf] at hpop
      unfold State.stepPop at hpop
      split at hpop
      · rename_i hidle
        simp [hp, hc, Cfq.callPop, hidle] at hpop
      · rename_i hne
        have hpops : Cfq.stepPop C.qcmd s.qcmd ≠ none := fun hnone =>
          hne ((Cfq.correct_of_inv hinv.qcmd).expects.2 hnone)
        obtain ⟨q, hq⟩ := Option.ne_none_iff_exists'.mp hpops
        rw [hq, Option.bind_some] at hpop
        split at hpop
        · simp [EventLoop.step, hp, hc] at hpop
        · cases hpop

include hinv h in
theorem call_of_stuck (hC : C.Serves) : s.handler.call = none := by
  have hidle := acknowledger_of_stuck hinv hstop
  have hphase : s.loop.phase ≠ .popping := by simp [phase_of_stuck hinv h hstop]
  have hwork : ∀ m, (∀ cmd, m ≠ .handle cmd) → Useful C s (.work m) →
      s.handler.step C.setup m = none := by
    intro m hm hok
    have hnone := hstop (.work m) hok
    cases m with
    | handle cmd => exact absurd rfl (hm cmd)
    | _ => simpa [step, hidle, hphase] using hnone
  by_contra hcall
  obtain ⟨⟨c, pc⟩, hc⟩ := Option.ne_none_iff_exists'.mp hcall
  obtain ⟨t, ht⟩ | hret := CmdHandler.advance_total hinv.handler hC.size hc
  · have hnone := hwork .advance nofun trivial
    exact absurd (ht.symm.trans hnone) (by simp)
  · obtain ⟨t, ht⟩ := hret 0
    have hnone := hwork (.returned 0) nofun trivial
    exact absurd (ht.symm.trans hnone) (by simp)

include hinv h in
theorem queries_of_stuck (hC : C.Serves) : ∀ q ∈ s.handler.queries, ¬ q.Held := by
  have hidle := acknowledger_of_stuck hinv hstop
  have hphase : s.loop.phase ≠ .popping := by simp [phase_of_stuck hinv h hstop]
  have hcall := call_of_stuck hinv h hstop hC
  rintro q hq (hheld | hown)
  · obtain ⟨k, hk⟩ := List.mem_iff_getElem?.mp hq
    obtain ⟨t, ht⟩ := CmdHandler.drop_total (S := C.setup) hinv.handler hk (Nat.ne_of_gt hheld)
    have hnone := hstop (.work (.drop k)) trivial
    simp [step, hidle, hphase, ht] at hnone
  · rw [CmdHandler.own_of_owns h.owns (fun call hc => by simp [hcall] at hc) q hq] at hown
    cases hown

include hinv h in
theorem posted_of_stuck (hC : C.Serves) : s.posted = [] := by
  have hfree : s.Free := ⟨acknowledger_of_stuck hinv hstop, call_of_stuck hinv h hstop hC⟩
  have hphase : s.loop.phase ≠ .popping := by simp [phase_of_stuck hinv h hstop]
  obtain ⟨hcells, hsz⟩ := hC.cells
  cases hp : s.posted with
  | nil => rfl
  | cons cmd posted =>
    have hnone := hstop (.handle 0) trivial
    simp [step, hfree, hphase, hp, CmdHandler.State.handle, hfree.2, hcells, hsz] at hnone

include hinv h in
theorem total_of_stuck (hC : C.Serves) : s.loop.total = s.qcmd.pushed.length := by
  have hfree : s.Free := ⟨acknowledger_of_stuck hinv hstop, call_of_stuck hinv h hstop hC⟩
  have hphase := phase_of_stuck hinv h hstop
  refine Nat.le_antisymm h.total (Nat.le_of_not_lt fun hlt => ?_)
  have hnone := hstop (.loop (.read (s.loop.total + 1)))
    ⟨Nat.lt_succ_self _, by omega, hlt⟩
  simp [step, hfree, State.stepLoop, EventLoop.step, hphase] at hnone

/-- Where no useful step is left, everything has been acknowledged. -/
theorem rest_of_stuck (hC : C.Serves) (hinv : Inv C i j s) (h : Orderly s) : AtRest s := by
  have hphase := phase_of_stuck hinv h hstop
  have hcount := h.counted
  rw [h.reading (by simp [hphase]), total_of_stuck hinv h hstop hC] at hcount
  exact ⟨hinv.qcmd.order.eq_of_length hcount, posted_of_stuck hinv h hstop hC,
    call_of_stuck hinv h hstop hC, queries_of_stuck hinv h hstop hC,
    acknowledger_of_stuck hinv hstop, collected_of_stuck hinv hstop⟩

end Stuck

/-- The driver has an acknowledgement for each command it gave, and nothing is left to do. -/
def Served (s : State) : Prop :=
  AtRest s ∧ s.qcmd.push = .idle ∧ (s.qcmdAck.popped.map CmdAck.id).Perm (s.qcmd.pushed.map Cmd.id)

/-- From wherever a run leads, however the steps that bring something on are chosen: there is an end
to them, and by then each command has been acknowledged once. -/
theorem served_at_last (C : Config) (hC : C.Serves) (i j : Nat) (hi : i < C.qcmd.full)
    (hj : j < C.qcmdAck.full) (cmds : Nat → Cmd) (acks : Nat → CmdAck) (s : State)
    (h : Lts.Run (step C) Honest (.initial i j cmds acks) s) :
    Lts.Ends (step C) (Useful C) Served s := by
  have hboth : Inv C i j s ∧ Orderly s :=
    ⟨inv_run hi hj h, Lts.run_invariant h orderly_initial fun _ _ _ ho hok hs =>
      orderly_step ho hok hs⟩
  refine Lts.ends_of_ranks ranks (I := fun s => Inv C i j s ∧ Orderly s) ?_ ?_ hboth
  · rintro s l t ⟨hinv, ho⟩ hok hs
    exact ⟨⟨inv_step hinv hs, orderly_step ho (honest_of_useful hok) hs⟩,
      lowers_step hinv ho hok hs⟩
  · rintro s ⟨hinv, ho⟩ hstop
    have hrest := rest_of_stuck hstop hC hinv ho
    exact ⟨hrest, given_of_stuck hinv hstop, (acknowledged_of_inv hinv).all hrest⟩

/-- A command that was popped and posted. -/
theorem served_at_last_flush : ∃ s, Lts.exec (step small)
    (.initial 0 1 (fun _ => ⟨0, .read, 0, 0, 0, 0⟩) fun _ => ⟨0, 0⟩) flushGiven = some s ∧
      s.posted.length = 1 ∧ ∃ t, Lts.Run (step small) (Useful small) s t ∧ Served t := by
  have hend : (Lts.exec (step small) (.initial 0 1 (fun _ => ⟨0, .read, 0, 0, 0, 0⟩) fun _ => ⟨0, 0⟩)
      flushGiven).map (fun s => s.posted.length) = some 1 := by decide
  obtain ⟨s, hs, hp⟩ := Option.map_eq_some_iff.mp hend
  have hC : small.Serves := ⟨by decide, by decide⟩
  have hrun : Lts.Run (step small) Honest (.initial 0 1 _ _) s :=
    Lts.run_of_along (by decide) hs
  exact ⟨s, hs, hp, Lts.reaches_of_ends (served_at_last small hC 0 1 (by decide) (by decide) _ _ s hrun)⟩

end Ublk.Slave
