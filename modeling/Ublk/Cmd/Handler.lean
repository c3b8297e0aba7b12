import Ublk.Lib.Requests
import Ublk.Lib.Words

/-!
The handler of the driver's commands. A command's request is shared by the call that handles it and
by the completers of the queries the call submits, and pushes the acknowledgement when the last of
them lets it go.
-/
namespace Ublk.CmdHandler

open Shared Words

/-- A cell descriptor. -/
structure Celld where
  offset : Nat
  dataSz : Nat
  ncelld : Nat

inductive Op
  | read | write | discard | flush | other (op : Nat)
  deriving DecidableEq

structure Cmd where
  id : Nat
  op : Op
  offset : Nat
  /-- The first descriptor of a transfer and the number of its descriptors. -/
  fcdn : Nat
  cdsNr : Nat
  /-- The size of a discard. -/
  sz : Nat

/-- What a handler is made with. -/
structure Setup where
  cellds : List Celld
  cellsSz : Nat
  /-- `offset + data_sz` as the fields' types add them. -/
  sum : Celld → Nat
  /-- The operations that have a handler. -/
  handled : Op → Bool
  /-- The number of flushers, if the flusher is a composite. -/
  flushers : Option Nat

/-- What a query asks for: a transfer of the cell at an offset and of a size, among others. -/
inductive Ask
  | transfer (offset cell size : Nat)
  | discard (offset sz : Nat)
  | flush

structure Query where
  cmd : Nat
  ask : Ask
  /-- References with the submitters. -/
  holders : Nat
  /-- The composite flusher's own reference. -/
  own : Bool
  err : Int

def Query.Held (q : Query) : Prop := 0 < q.holders ∨ q.own = true

instance (q : Query) : Decidable q.Held := inferInstanceAs (Decidable (_ ∨ _))

/-- Where a call is. -/
inductive Pc
  /-- At the head of the loop of `for_each_celld`. -/
  | cells (offset celldn left : Nat)
  /-- In the submit for a cell; then the loop goes on. -/
  | cell (offset celldn left : Nat)
  /-- At the head of the composite flusher's loop, with the query. -/
  | flushers (k left : Nat)
  /-- In a flusher's submit; then the loop goes on. -/
  | flusher (k left : Nat)
  /-- In a submit with nothing after it. -/
  | sole
  | ended

/-- An acknowledgement, and the command it was pushed for. -/
structure Ack where
  cmd : Nat
  id : Nat
  err : Nat

structure Call where
  cmd : Nat
  pc : Pc

structure State where
  cmds : List Cmd
  reqs : Requests
  queries : List Query
  call : Option Call
  acks : List Ack
  /-- History: what submits returned, the commands with a descriptor refused, and the errors that
  queries completed with. -/
  rets : List (Nat × Int)
  refused : List Nat
  closed : List (Nat × Int)

/-- A step of the call under way, the return of the submit it is in, or what a submitter does with a
query it holds. -/
inductive Label
  | handle (cmd : Cmd)
  | advance
  | returned (r : Int)
  | share (k : Nat)
  | setErr (k : Nat) (e : Int)
  | drop (k : Nat)

def ENOTSUP : Int := 95

/-- `static_cast<__u16>`. -/
def narrow (e : Int) : Nat := (e % 65536).toNat

namespace State

def initial : State := ⟨[], .empty, [], none, [], [], [], []⟩

/-- A holder of the request of command `c` let it go, which leaves the requests `reqs`. -/
def dropped (s : State) (c : Nat) (reqs : Requests) : Option State := do
  let cmd ← s.cmds[c]?
  return { s with
    reqs
    acks := if (s.reqs.req c).holders = 1 then
      s.acks ++ [⟨c, cmd.id, narrow (s.reqs.req c).err⟩] else s.acks }

/-- Query `k` becomes `q`; its completer runs if nobody holds it any more. -/
def put (s : State) (k : Nat) (q : Query) : Option State :=
  let s := { s with queries := s.queries.set k q }
  if q.Held then some s
  else
    let s := { s with reqs := s.reqs.setErr q.cmd q.err, closed := s.closed ++ [(q.cmd, q.err)] }
    s.dropped q.cmd (s.reqs.drop q.cmd)

/-- The call of command `c` makes a query, whose completer shares the request, and goes on at
`pc`. -/
def query (s : State) (c : Nat) (ask : Ask) (own : Bool) (pc : Pc) : State :=
  { s with
    reqs := s.reqs.share c
    queries := s.queries ++ [⟨c, ask, if own then 0 else 1, own, 0⟩]
    call := some ⟨c, pc⟩ }

/-- The request of an operation without a handler gets an error. -/
def notSupp (s : State) (c : Nat) : State :=
  { s with reqs := s.reqs.setErr c ENOTSUP, call := some ⟨c, .ended⟩ }

/-- The call of command `c` goes on at `pc`. -/
def goto (s : State) (c : Nat) (pc : Pc) : State := { s with call := some ⟨c, pc⟩ }

/-- The handler of an operation starts. -/
def dispatch (S : Setup) (s : State) (c : Nat) (cmd : Cmd) : State :=
  match S.handled cmd.op, cmd.op with
  | true, .read | true, .write => s.goto c (.cells cmd.offset cmd.fcdn cmd.cdsNr)
  | true, .discard => s.query c (.discard cmd.offset cmd.sz) false .sole
  | true, .flush =>
    match S.flushers with
    | none => s.query c .flush false .sole
    | some n => s.query c .flush true (.flushers s.queries.length n)
  | _, _ => s.notSupp c

/-- `CmdHandler::handle` up to the first submit. The request of a transfer is made of cells. -/
def handle (S : Setup) (s : State) (cmd : Cmd) : Option State :=
  if s.call.isSome then none
  else if (cmd.op = .read ∨ cmd.op = .write) ∧ (S.cellds.length = 0 ∨ S.cellsSz = 0) then none
  else some ({ s with cmds := s.cmds ++ [cmd], reqs := s.reqs.create }.dispatch S s.cmds.length cmd)

/-- The call under way goes on up to its next submit. -/
def advance (S : Setup) (s : State) : Option State := do
  let ⟨c, pc⟩ ← s.call
  match pc with
  | .cells offset celldn left =>
    match left, S.cellds[celldn]? with
    | left + 1, some celld =>
      if S.sum celld ≤ S.cellsSz then
        -- an empty buffer fails the query's postcondition
        if celld.dataSz = 0 then none
        else
          let next := .cell (wrap (offset + celld.dataSz)) celld.ncelld left
          return s.query c (.transfer offset celld.offset celld.dataSz) false next
      else return goto { s with refused := s.refused ++ [c] } c .ended
    | _, _ => return s.goto c .ended
  | .flushers k left =>
    let q ← s.queries[k]?
    match left with
    | left + 1 => (s.goto c (.flusher k left)).put k { q with holders := q.holders + 1 }
    | 0 => (s.goto c .ended).put k { q with own := false }
  | .ended => (s.dropped c (s.reqs.returned c 0)).map ({ · with call := none })
  | _ => none

/-- The submit the call is in returns `r`. -/
def returned (s : State) (r : Int) : Option State := do
  let ⟨c, pc⟩ ← s.call
  let s := { s with rets := s.rets ++ [(c, r)] }
  match pc with
  | .cell offset celldn left =>
    return s.goto c (if r = 0 then .cells offset celldn left else .ended)
  | .flusher k left => return s.goto c (.flushers k left)
  | .sole => return s.goto c .ended
  | _ => none

/-- A submitter that holds query `k` makes it `f` of what it is. -/
def touch (s : State) (k : Nat) (f : Query → Query) : Option State := do
  let q ← s.queries[k]?
  if q.holders = 0 then none else s.put k (f q)

def step (S : Setup) (s : State) : Label → Option State
  | .handle cmd => s.handle S cmd
  | .advance => s.advance S
  | .returned r => s.returned r
  | .share k => s.touch k fun q => { q with holders := q.holders + 1 }
  | .setErr k e => s.touch k fun q => { q with err := e }
  | .drop k => s.touch k fun q => { q with holders := q.holders - 1 }

end State

end Ublk.CmdHandler
