import Ublk.Query
import Ublk.Span
import Ublk.Lib.Runs

/-!
The target around a `raid0` or a `raid1` backend. It forwards a request as a subquery of the whole
of it, and goes offline for good with the first failure.
-/
namespace Ublk.Failstop

/-- A backend: the submits it makes for a request, each with the backend's state once the submit is
accepted. It stops at the first one that is rejected. -/
structure Backend where
  State : Type
  start : State
  route : State → Bool → Nat → Span → Option (List (Sub × State))

/-- A request. -/
structure Req where
  off : Nat
  v : Span
  /-- The subquery that the target forwards. Its pieces, or for a mirrored write the subquery
  itself, are with the handlers. -/
  q : Query
  /-- What `process` returned, when it did. -/
  ret : Option Int
  /-- The error of the client's query. -/
  err : Int
  /-- The client's completer has run. -/
  ended : Bool
  /-- History: submitted while offline. -/
  offline : Bool

/-- The state machine's state, whether `ev::fail` waits for the action under way to end, and all the
requests so far. -/
structure State (B : Backend) where
  online : Bool
  queued : Bool
  inner : B.State
  disk : Disk
  reqs : List Req

/-- What happens to the `j`-th piece in flight of request `k`. -/
inductive Event
  | effect (k j : Nat) (hit : Nat → Bool)
  | settle (k j : Nat) (e : Int)

/-- A client submits a request; during `process`, before the `i`-th submit, the events `during i`
happen. -/
inductive Label
  | event (e : Event)
  | process (write : Bool) (off : Nat) (v : Span) (buf : Nat → Byte) (during : Nat → List Event)

def EIO : Int := 5

/-- The last holder dropped the subquery: its completer runs, then the client's. -/
def Req.finish (r : Req) : Req :=
  if r.ret.isSome ∧ r.q.ops = [] ∧ r.ended = false then
    { r with ended := true, err := if r.q.err ≠ 0 then r.q.err else r.err }
  else r

namespace State

variable {B : Backend}

def initial (B : Backend) (dev₀ : Addr → Byte) : State B := ⟨true, false, B.start, ⟨dev₀, 0⟩, []⟩

/-- The action under way ended. -/
def drain (s : State B) : State B := { s with online := s.online && !s.queued, queued := false }

/-- Request `k` becomes `r`. A completer that sees an error raises `ev::fail`. -/
def put (s : State B) (k : Nat) (r : Req) : State B :=
  { s with
    reqs := s.reqs.set k r.finish
    queued := s.queued || (r.finish.ended && !r.ended && decide (r.q.err ≠ 0)) }

def event (s : State B) : Event → Option (State B)
  | .effect k j hit => do
    let r ← s.reqs[k]?
    let (q, dev) ← r.q.effect j hit s.disk.dev
    return { s with disk.dev := dev }.put k { r with q }
  | .settle k j e => do
    let r ← s.reqs[k]?
    let q ← r.q.settle j e
    return s.put k { r with q }

def events (s : State B) : List Event → Option (State B)
  | [] => some s
  | e :: es => do
    let s ← s.event e
    s.events es

/-- The submit of one piece for request `k`. -/
def submit (E : Env) (k : Nat) (p : Sub) (s : State B) : Option (Int × State B) := do
  let r ← s.reqs[k]?
  let (c, q, disk) := r.q.submit E p s.disk
  return (c, { s with disk }.put k { r with q })

/-- The loop of the backend's `process` for request `k`. -/
def forward (E : Env) (k : Nat) (during : Nat → List Event) :
    List (Sub × B.State) → Nat → State B → Option (Int × State B)
  | [], _, s => some (0, s)
  | (p, inner) :: rest, i, s => do
    let s ← s.events (during i)
    let (c, s) ← s.submit E k p
    if c = 0 then forward E k during rest (i + 1) { s with inner } else return (c, s)

/-- `process` of request `k` returns `c` and drops the subquery. -/
def returned (s : State B) (k : Nat) (c : Int) : Option (State B) := do
  let r ← s.reqs[k]?
  return (s.put k { r with ret := some c }).drain

/-- The action of a request in state online. -/
def action (E : Env) (k : Nat) (w : Bool) (off : Nat) (v : Span) (during : Nat → List Event)
    (s : State B) : Option (Int × State B) := do
  let route ← B.route s.inner w off v
  let (c, s) ← s.forward E k during route 0
  return (c, { s with queued := s.queued || decide (c ≠ 0) })

/-- The target makes its subquery of a request. -/
def enter (s : State B) (w : Bool) (off : Nat) (v : Span) (buf : Nat → Byte) : State B :=
  { s with
    reqs := s.reqs ++ [⟨off, v, ⟨w, buf, [], 0, 0, false⟩, none, 0, false, !s.online⟩] }

def process (E : Env) (s : State B) (w : Bool) (off : Nat) (v : Span) (buf : Nat → Byte)
    (during : Nat → List Event) : Option (State B) := do
  let v ← v.subquery 0 v.len
  if s.online then
    let (c, t) ← (s.enter w off v buf).action E s.reqs.length w off v during
    t.drain.returned s.reqs.length c
  else
    (s.enter w off v buf).returned s.reqs.length EIO

def step (E : Env) (s : State B) : Label → Option (State B)
  | .event e => (s.event e).map drain
  | .process w off v buf during => s.process E w off v buf during

end State

end Ublk.Failstop
