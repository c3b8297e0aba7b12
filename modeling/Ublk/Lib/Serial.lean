import Ublk.Lib.Locks
import Ublk.Lib.Requests

/-!
Jobs serialised by key. A request is cut into jobs; a job takes the lock of its
key or waits in a list. When a job ends, its completer looks for a waiting job of
the same key, starts the first it finds, and unlocks the key if there is none. It
looks again when the start reports a failure.

Completers nest: starting a job may end it at once. `frames` are the completers
being carried out, innermost first. Jobs and requests act only when there is none.
-/
namespace Serial

open Shared

/-- What a user of the pattern supplies. -/
structure Machine (J σ R A F : Type) where
  key : J → Nat
  ident : J → Nat
  /-- The request a job belongs to. -/
  owner : J → Nat
  /-- A job that something outside still works for. -/
  busy : J → Bool
  /-- How many keys the locks must cover for a request. -/
  extent : R → Nat
  split : R → Nat → σ → List J × σ
  /-- The mark of a job that had to wait. -/
  park : J → J
  start : J → σ → Int × J × σ
  react : A → J → σ → Option (J × σ)
  /-- A completer's work ahead of its search, and the error it gives the request. -/
  enter : J → σ → Int × σ
  /-- A completer's work behind its search, and the error it gives the request. -/
  leave : J → σ → Int × σ
  aside : F → σ → Requests → Option (σ × Requests)

/-- A completer being carried out. `acct` names the job whose end it is dealing with. -/
structure Frame (J : Type) where
  job : J
  acct : Nat
  finish : Bool

/-- A request whose jobs are being made. -/
structure Issue (J : Type) where
  client : Nat
  rest : List J
  ret : Int

structure State (J σ : Type) where
  locks : LockTable
  pending : List J
  active : List J
  frames : List (Frame J)
  issue : Option (Issue J)
  reqs : Requests
  inner : σ
  /-- History: for whose end each search of a completer was made. -/
  rounds : List Nat
  /-- A precondition of the locks failed and the program stopped. -/
  dead : Bool

inductive Label (R A F : Type)
  | arrive (r : R)
  | tick
  | act (i : Nat) (a : A)
  | aside (f : F)

variable {J σ R A F : Type}

/-- The first element that meets `p`, and the list once that element has been
exchanged with the last one and the last one dropped. -/
def popFirst (p : J → Bool) (l : List J) : Option (J × List J) :=
  match l.findIdx? p, l.getLast? with
  | some i, some z => l[i]?.map fun w => (w, (l.set i z).dropLast)
  | _, _ => none

namespace State

def initial (inner : σ) : State J σ :=
  ⟨.empty, [], [], [], none, .empty, inner, [], false⟩

/-- Nothing is being carried out: the event loop waits. -/
def Quiet (s : State J σ) : Prop := s.frames = [] ∧ s.issue = none ∧ s.dead = false

instance (s : State J σ) : Decidable s.Quiet :=
  decidable_of_iff (s.frames.isEmpty = true ∧ s.issue.isNone = true ∧ s.dead = false)
    (by simp [Quiet])

/-- The call that received a request returns. -/
def conclude (q : Issue J) (s : State J σ) : State J σ :=
  { s with issue := none, reqs := s.reqs.returned q.client q.ret }

end State

namespace Machine

variable (M : Machine J σ R A F)

def arrive (r : R) (s : State J σ) : State J σ :=
  let cut := M.split r s.reqs.count s.inner
  { s with
    locks := s.locks.extend (M.extent r)
    reqs := s.reqs.create
    inner := cut.2
    issue := some ⟨s.reqs.count, cut.1, 0⟩ }

/-- A job that was started or acted on stays active while it is busy; otherwise it
is destroyed and its completer begins. -/
def place (j : J) (s : State J σ) : State J σ :=
  if M.busy j then { s with active := s.active ++ [j] }
  else
    { s with
      frames := ⟨j, M.ident j, false⟩ :: s.frames
      inner := (M.enter j s.inner).2
      reqs := s.reqs.setErr (M.owner j) (M.enter j s.inner).1 }

/-- One round of a completer's loop. -/
def round (f : Frame J) (fs : List (Frame J)) (s : State J σ) : State J σ :=
  let s := { s with rounds := s.rounds ++ [f.acct] }
  match popFirst (fun w => M.key w == M.key f.job) s.pending with
  | some (w, pending) =>
    let r := M.start w s.inner
    M.place r.2.1 { s with
      pending, inner := r.2.2
      frames := (if r.1 = 0 then ⟨f.job, f.acct, true⟩ else ⟨f.job, M.ident w, false⟩) :: fs }
  | none =>
    match s.locks.unlock (M.key f.job) with
    | some locks => { s with locks, frames := ⟨f.job, f.acct, true⟩ :: fs }
    | none => { s with dead := true, frames := ⟨f.job, f.acct, true⟩ :: fs }

/-- The end of a completer: what it does behind its loop, then the request is let go. -/
def back (f : Frame J) (fs : List (Frame J)) (s : State J σ) : State J σ :=
  { s with
    frames := fs
    inner := (M.leave f.job s.inner).2
    reqs := (s.reqs.setErr (M.owner f.job) (M.leave f.job s.inner).1).drop (M.owner f.job) }

/-- The next job of a request takes its lock and starts, or waits. -/
def dispatch (c : Nat) (j : J) (rest : List J) (s : State J σ) : State J σ :=
  let s := { s with reqs := s.reqs.share c }
  match s.locks.tryLock (M.key j) with
  | some (true, locks) =>
    let r := M.start j s.inner
    M.place r.2.1 { s with
      locks, inner := r.2.2
      issue := some ⟨c, if r.1 = 0 then rest else [], r.1⟩ }
  | some (false, locks) =>
    { s with locks, pending := s.pending ++ [M.park j], issue := some ⟨c, rest, 0⟩ }
  | none => { s with dead := true, issue := some ⟨c, rest, 0⟩ }

/-- What the program does next by itself. -/
def tick (s : State J σ) : Option (State J σ) :=
  if s.dead then none
  else
    match s.frames, s.issue with
    | f :: fs, _ => some (if f.finish then M.back f fs s else M.round f fs s)
    | [], some ⟨c, j :: rest, _⟩ => some (M.dispatch c j rest s)
    | [], some q => some (s.conclude q)
    | [], none => none

def step (s : State J σ) : Label R A F → Option (State J σ)
  | .arrive r => if s.Quiet then some (M.arrive r s) else none
  | .tick => M.tick s
  | .act i a =>
    if s.Quiet then
      s.active[i]?.bind fun j => (M.react a j s.inner).map fun r =>
        M.place r.1 { s with active := s.active.eraseIdx i, inner := r.2 }
    else none
  | .aside f =>
    if s.Quiet then
      (M.aside f s.inner s.reqs).map fun r => { s with inner := r.1, reqs := r.2 }
    else none

/-- The steps one by one, each with what it takes. -/
inductive Step (s : State J σ) : Label R A F → State J σ → Prop
  | arrive {r : R} (hq : s.Quiet) : Step s (.arrive r) (M.arrive r s)
  | unlock {f : Frame J} {fs : List (Frame J)} {locks : LockTable} (hd : s.dead = false)
      (hf : s.frames = f :: fs) (hl : f.finish = false)
      (hp : popFirst (fun w => M.key w == M.key f.job) s.pending = none)
      (hu : s.locks.unlock (M.key f.job) = some locks) :
      Step s .tick { s with
        locks, rounds := s.rounds ++ [f.acct], frames := ⟨f.job, f.acct, true⟩ :: fs }
  | crash {f : Frame J} {fs : List (Frame J)} (hd : s.dead = false)
      (hf : s.frames = f :: fs) (hl : f.finish = false)
      (hp : popFirst (fun w => M.key w == M.key f.job) s.pending = none)
      (hu : s.locks.unlock (M.key f.job) = none) :
      Step s .tick { s with
        dead := true, rounds := s.rounds ++ [f.acct], frames := ⟨f.job, f.acct, true⟩ :: fs }
  | restart {f : Frame J} {fs : List (Frame J)} {w : J} {pending : List J}
      (hd : s.dead = false) (hf : s.frames = f :: fs) (hl : f.finish = false)
      (hp : popFirst (fun w => M.key w == M.key f.job) s.pending = some (w, pending)) :
      Step s .tick (M.place (M.start w s.inner).2.1 { s with
        rounds := s.rounds ++ [f.acct], pending, inner := (M.start w s.inner).2.2
        frames := (if (M.start w s.inner).1 = 0 then ⟨f.job, f.acct, true⟩
          else ⟨f.job, M.ident w, false⟩) :: fs })
  | back {f : Frame J} {fs : List (Frame J)} (hd : s.dead = false)
      (hf : s.frames = f :: fs) (hl : f.finish = true) : Step s .tick (M.back f fs s)
  | launch {c : Nat} {j : J} {rest : List J} {ret : Int} {locks : LockTable}
      (hd : s.dead = false) (hf : s.frames = []) (hi : s.issue = some ⟨c, j :: rest, ret⟩)
      (ht : s.locks.tryLock (M.key j) = some (true, locks)) :
      Step s .tick (M.place (M.start j s.inner).2.1 { s with
        reqs := s.reqs.share c, locks, inner := (M.start j s.inner).2.2
        issue := some ⟨c, if (M.start j s.inner).1 = 0 then rest else [],
          (M.start j s.inner).1⟩ })
  | wait {c : Nat} {j : J} {rest : List J} {ret : Int} {locks : LockTable}
      (hd : s.dead = false) (hf : s.frames = []) (hi : s.issue = some ⟨c, j :: rest, ret⟩)
      (ht : s.locks.tryLock (M.key j) = some (false, locks)) :
      Step s .tick { s with
        reqs := s.reqs.share c, locks, pending := s.pending ++ [M.park j]
        issue := some ⟨c, rest, 0⟩ }
  | overrun {c : Nat} {j : J} {rest : List J} {ret : Int}
      (hd : s.dead = false) (hf : s.frames = []) (hi : s.issue = some ⟨c, j :: rest, ret⟩)
      (ht : s.locks.tryLock (M.key j) = none) :
      Step s .tick { s with
        reqs := s.reqs.share c, dead := true, issue := some ⟨c, rest, 0⟩ }
  | conclude {q : Issue J} (hd : s.dead = false) (hf : s.frames = []) (hi : s.issue = some q)
      (hr : q.rest = []) : Step s .tick (s.conclude q)
  | act {i : Nat} {a : A} {j j' : J} {inner : σ} (hq : s.Quiet) (hj : s.active[i]? = some j)
      (hr : M.react a j s.inner = some (j', inner)) :
      Step s (.act i a) (M.place j' { s with active := s.active.eraseIdx i, inner })
  | aside {f : F} {inner : σ} {reqs : Requests} (hq : s.Quiet)
      (hr : M.aside f s.inner s.reqs = some (inner, reqs)) :
      Step s (.aside f) { s with inner, reqs }

variable {M}

theorem step_sound {s t : State J σ} {l : Label R A F} (h : M.step s l = some t) :
    Step M s l t := by
  cases l with
  | arrive r =>
    simp only [step] at h
    split at h
    · cases h; exact .arrive ‹_›
    · cases h
  | tick =>
    simp only [step, tick] at h
    split at h
    · cases h
    · rename_i hd
      have hd : s.dead = false := by simpa using hd
      split at h
      · rename_i _ _ f fs hf
        cases hl : f.finish with
        | true =>
          simp only [hl, if_true, Option.some.injEq] at h
          exact h ▸ .back hd hf hl
        | false =>
          simp only [hl, Bool.false_eq_true, if_false, Option.some.injEq, round] at h
          split at h
          · exact h ▸ .restart hd hf hl ‹_›
          · split at h
            · exact h ▸ .unlock hd hf hl ‹_› ‹_›
            · exact h ▸ .crash hd hf hl ‹_› ‹_›
      · rename_i c j rest _ hf hi
        simp only [Option.some.injEq, dispatch] at h
        split at h
        · exact h ▸ .launch hd hf hi ‹_›
        · exact h ▸ .wait hd hf hi ‹_›
        · exact h ▸ .overrun hd hf hi ‹_›
      · rename_i q hne hf hi
        simp only [Option.some.injEq] at h
        refine h ▸ .conclude hd hf hi ?_
        obtain ⟨c, rest, ret⟩ := q
        cases rest with
        | nil => rfl
        | cons j rest => exact absurd rfl (hne c j rest ret)
      · cases h
  | act i a =>
    simp only [step] at h
    split at h
    · obtain ⟨j, hj, h⟩ := Option.bind_eq_some_iff.mp h
      obtain ⟨⟨j', inner⟩, hr, rfl⟩ := Option.map_eq_some_iff.mp h
      exact .act ‹_› hj hr
    · cases h
  | aside f =>
    simp only [step] at h
    split at h
    · obtain ⟨⟨inner, reqs⟩, hr, rfl⟩ := Option.map_eq_some_iff.mp h
      exact .aside ‹_› hr
    · cases h

end Machine
end Serial
