import Ublk.Lib.SerialLocks
import Ublk.Raidsp.Parity

/-!
The acceptor. A write is cut at stripe boundaries into sub-writes, serialised by stripe.
A sub-write of a whole stripe is written at once. A partial one reads first: the old data
and then the old parity if the stripe's parity is coherent, else the whole stripe.
-/
namespace Ublk.Raidsp

open Shared Serial

/-- The queries of a sub-write, `new_rqd` and `new_rpq` first, then `wqd` and `wqp`. -/
inductive Role
  | rqd
  | rpq
  | wqd
  | wqp
  deriving DecidableEq

/-- A part of a write: the request, the place in the stripe, the bytes and where they lie. -/
structure Slice where
  cid : Nat
  stripe : Nat
  off : Nat
  size : Nat
  addr : Nat
  src : Nat → Byte

structure SubWrite extends Slice where
  id : Nat
  err : Int
  /-- Whether the parity was coherent when the sub-write was started. -/
  coherent : Bool
  query : Role → Query
  /-- History: the stripe was locked when the sub-write came. -/
  waited : Bool
  /-- History: what `process` returned for it. -/
  res : Int

structure ClientRead where
  cid : Nat
  off : Nat
  size : Nat
  query : Query

structure WriteReq where
  off : Nat
  size : Nat
  /-- Where the buffer lies. -/
  addr : Nat
  data : Nat → Byte
  nonempty : 0 < size

structure Inner where
  disk : Disk
  coh : Nat → Bool
  reads : List ClientRead
  nextId : Nat
  /-- History: the requests to write, the reads and the sub-writes that ended. -/
  writes : List (Nat × WriteReq)
  served : List ClientRead
  done : List SubWrite

inductive Act
  | effect (r : Role) (k : Nat) (hit : Nat → Bool)
  | settle (r : Role) (k : Nat) (e : Int)

inductive Beside
  | read (off size : Nat) (h : 0 < size)
  | effect (i k : Nat) (hit : Nat → Bool)
  | settle (i k : Nat) (e : Int)

namespace SubWrite

def set (w : SubWrite) (r : Role) (q : Query) : SubWrite :=
  { w with query := Function.update w.query r q }

def setErr (w : SubWrite) (e : Int) : SubWrite := if e = 0 then w else { w with err := e }

def Idle (w : SubWrite) (r : Role) : Prop := (w.query r).ops = []

instance (w : SubWrite) (r : Role) : Decidable (w.Idle r) :=
  decidable_of_iff ((w.query r).ops.isEmpty = true) (by simp [Idle])

def busy (w : SubWrite) : Bool :=
  decide (¬ (w.Idle .rqd ∧ w.Idle .rpq ∧ w.Idle .wqd ∧ w.Idle .wqp))

variable {w : SubWrite} {r r' : Role} {q : Query} {e : Int}

@[simp] theorem query_set_self : (w.set r q).query r = q := by simp [set]

@[simp] theorem query_set_of_ne (h : r' ≠ r) : (w.set r q).query r' = w.query r' := by
  simp [set, h]

@[simp] theorem id_set : (w.set r q).id = w.id := rfl
@[simp] theorem toSlice_set : (w.set r q).toSlice = w.toSlice := rfl
@[simp] theorem err_set : (w.set r q).err = w.err := rfl
@[simp] theorem coherent_set : (w.set r q).coherent = w.coherent := rfl
@[simp] theorem waited_set : (w.set r q).waited = w.waited := rfl
@[simp] theorem res_set : (w.set r q).res = w.res := rfl
@[simp] theorem id_setErr : (w.setErr e).id = w.id := by unfold setErr; split <;> rfl
@[simp] theorem toSlice_setErr : (w.setErr e).toSlice = w.toSlice := by unfold setErr; split <;> rfl
@[simp] theorem query_setErr : (w.setErr e).query = w.query := by unfold setErr; split <;> rfl
@[simp] theorem res_setErr : (w.setErr e).res = w.res := by unfold setErr; split <;> rfl
@[simp] theorem waited_setErr : (w.setErr e).waited = w.waited := by unfold setErr; split <;> rfl

@[simp] theorem coherent_setErr : (w.setErr e).coherent = w.coherent := by
  unfold setErr; split <;> rfl

@[simp] theorem idle_set_self : (w.set r q).Idle r ↔ q.ops = [] := by simp [Idle]

@[simp] theorem idle_set_of_ne (h : r' ≠ r) : (w.set r q).Idle r' ↔ w.Idle r' := by
  simp [Idle, h]

@[simp] theorem idle_setErr : (w.setErr e).Idle r ↔ w.Idle r := by simp [Idle]

theorem not_busy : w.busy = false ↔ ∀ r, w.Idle r := by
  simp only [busy, decide_eq_false_iff_not, not_not]
  constructor
  · rintro ⟨h₁, h₂, h₃, h₄⟩ r
    cases r <;> assumption
  · exact fun h => ⟨h _, h _, h _, h _⟩

end SubWrite

def Inner.setCoh (x : Inner) (k : Nat) (b : Bool) : Inner :=
  { x with coh := Function.update x.coh k b }

/-- The part of a write that piece `p` of its range stands for. -/
def WriteReq.slice (r : WriteReq) (c : Nat) (p : Blocks.Piece) : Slice :=
  ⟨c, p.id, p.inner, p.len, r.addr + p.pos, fun b => r.data (p.pos + b)⟩

namespace Acceptor

variable (G : Geometry) (E : Env)

/-- A new query to read for the sub-write. -/
def submitRead (r : Role) (buf : Nat → Byte) (ss : List Sub) (w : SubWrite) (x : Inner) :
    Int × SubWrite × Inner :=
  let q := (Query.read buf).submitAll E ss x.disk
  (q.1, w.set r q.2.1, { x with disk := q.2.2 })

/-- A query with nothing in flight ends as soon as nobody submits for it. -/
def whenIdle (r : Role) (f : SubWrite → Inner → SubWrite × Inner) (s : SubWrite × Inner) :
    SubWrite × Inner :=
  if s.1.Idle r then f s.1 s.2 else s

/-- `backend::stripe_write`. The parity is submitted once all data is accepted. -/
def backendWrite (w : SubWrite) (parity : Nat → Byte) (x : Inner) : Int × SubWrite × Inner :=
  let wqd := (Query.writing w.src).submitAll E (G.dataWrite w.stripe w.off w.size) x.disk
  let wqp :=
    if wqd.1 = 0 then
      (Query.writing parity).submitAll E (G.parityWrite w.stripe 0 G.stripSz) wqd.2.2
    else (wqd.1, Query.writing parity, wqd.2.2)
  (wqp.1, (w.set .wqd wqd.2.1).set .wqp wqp.2.1, { x with disk := wqp.2.2 })

/-- The guard both completers of the incoherent path share. `wqd` and `wqp` hand on
their errors behind it, `first` before the other one. -/
def combinedCompleterGuard (first last : Role) (w : SubWrite) (x : Inner) : SubWrite × Inner :=
  ((w.setErr (w.query first).err).setErr (w.query last).err,
    x.setCoh w.stripe (decide ((w.query .wqd).err = 0 ∧ (w.query .wqp).err = 0)))

/-- The completer of `wqd` or `wqp`. -/
def writeDone (r : Role) (w : SubWrite) (x : Inner) : SubWrite × Inner :=
  if w.coherent then
    if (w.query r).err = 0 then (w, x)
    else (w.setErr (w.query r).err, x.setCoh w.stripe false)
  else if w.Idle .wqd ∧ w.Idle .wqp then
    if r = .wqd ∧ w.size < G.stripeDataSz then combinedCompleterGuard .wqp .wqd w x
    else combinedCompleterGuard .wqd .wqp w x
  else (w, x)

/-- With both completers behind it the guard goes as the call returns: `wqp` before `wqd`, which
is a query of its own for a part of a stripe. -/
def stripeIncoherentParityWrite (w : SubWrite) (parity : Nat → Byte) (x : Inner) :
    Int × SubWrite × Inner :=
  let r := backendWrite G E w parity x
  (r.1, if r.2.1.Idle .wqd ∧ r.2.1.Idle .wqp then
      if w.size < G.stripeDataSz then combinedCompleterGuard .wqp .wqd r.2.1 r.2.2
      else combinedCompleterGuard .wqd .wqp r.2.1 r.2.2
    else r.2)

def stripeCoherentParityWrite (w : SubWrite) (parity : Nat → Byte) (x : Inner) :
    Int × SubWrite × Inner :=
  let r := backendWrite G E w parity x
  (r.1, whenIdle .wqp (writeDone G .wqp) (whenIdle .wqd (writeDone G .wqd) r.2))

def stripeWrite (w : SubWrite) (parity : Nat → Byte) (x : Inner) : Int × SubWrite × Inner :=
  if w.coherent then stripeCoherentParityWrite G E w parity x
  else stripeIncoherentParityWrite G E w parity x

def stripeDataWrite (w : SubWrite) (x : Inner) : Int × SubWrite × Inner :=
  stripeWrite G E w (parityRenew w.src G.stripeDataSz G.stripSz) x

/-- `new_rpq_completer`. What the write returns is dropped. -/
def rpqDone (w : SubWrite) (x : Inner) : SubWrite × Inner :=
  let rpq := w.query .rpq
  if rpq.err = 0 then
    let delta := xorTo w.src (w.query .rqd).buf 0 w.size
    let parity := parityTo delta w.size rpq.buf G.stripSz (w.off % G.stripSz)
    (stripeCoherentParityWrite G E w parity x).2
  else (w.setErr rpq.err, x)

/-- `new_rdq_completer` of the coherent and of the incoherent path. -/
def rqdDone (w : SubWrite) (x : Inner) : SubWrite × Inner :=
  let rqd := w.query .rqd
  if rqd.err = 0 then
    if w.coherent then
      let r := submitRead E .rpq (fun j => E.junk w.id (G.stripeDataSz + j))
        (G.parityRead w.stripe G.stripSz) w x
      let s := whenIdle .rpq (rpqDone G E) r.2
      (s.1.setErr r.1, s.2)
    else
      let stripe := overlay rqd.buf w.off w.size w.src
      let r := stripeIncoherentParityWrite G E w (parityRenew stripe G.stripeDataSz G.stripSz) x
      (r.2.1.setErr r.1, r.2.2)
  else (w.setErr rqd.err, x)

/-- The branch of `process` for a part of a stripe. -/
def stripePartWrite (w : SubWrite) (x : Inner) : Int × SubWrite × Inner :=
  let off := if w.coherent then w.off else 0
  let size := if w.coherent then w.size else G.stripeDataSz
  let r := submitRead E .rqd (fun p => E.junk w.id (off + p)) (G.dataRead w.stripe off size) w x
  (r.1, whenIdle .rqd (rqdDone G E) r.2)

/-- `acceptor::process(stripe_id, wq)`. -/
def process (w : SubWrite) (x : Inner) : Int × SubWrite × Inner :=
  let w := { w with coherent := x.coh w.stripe }
  let r := if w.size < G.stripeDataSz then stripePartWrite G E w x else stripeDataWrite G E w x
  (r.1, { r.2.1 with res := r.1 }, r.2.2)

/-- What runs when the last subquery of a query has completed. -/
def queryDone : Role → SubWrite → Inner → SubWrite × Inner
  | .rqd => rqdDone G E
  | .rpq => rpqDone G E
  | r => writeDone G r

def react : Act → SubWrite → Inner → Option (SubWrite × Inner)
  | .effect r k hit, w, x => ((w.query r).effect k hit x.disk.dev).map fun q =>
      (w.set r q.1, { x with disk := { x.disk with dev := q.2 } })
  | .settle r k e, w, x => ((w.query r).settle k e).map fun q =>
      whenIdle r (queryDone G E r) (w.set r q, x)

/-- The sub-writes of a request. -/
def split (r : WriteReq) (c : Nat) (x : Inner) : List SubWrite × Inner :=
  let cut := Blocks.cut G.stripeDataSz r.off r.size
  (cut.mapIdx fun i p => { r.slice c p with
      id := x.nextId + i, err := 0, coherent := false, query := fun _ => Query.read fun _ => 0
      waited := false, res := 0 },
    { x with nextId := x.nextId + cut.length, writes := x.writes ++ [(c, r)] })

/-- The last part of a client's read has ended. -/
def serve (rd : ClientRead) (x : Inner) (t : Requests) : Inner × Requests :=
  ({ x with served := x.served ++ [rd] }, (t.setErr rd.cid rd.query.err).drop rd.cid)

def beside : Beside → Inner → Requests → Option (Inner × Requests)
  | .read off size _, x, t =>
    let c := t.count
    let q := (Query.read (E.junk c)).submitAll E
      (G.dataRead (off / G.stripeDataSz) (off % G.stripeDataSz) size) x.disk
    let rd : ClientRead := ⟨c, off, size, q.2.1⟩
    let x := { x with disk := q.2.2 }
    let t := t.create.share c
    let r := if q.2.1.ops = [] then serve rd x t else ({ x with reads := x.reads ++ [rd] }, t)
    some (r.1, r.2.returned c q.1)
  | .effect i k hit, x, t => x.reads[i]?.bind fun rd =>
      (rd.query.effect k hit x.disk.dev).map fun q =>
        ({ x with reads := x.reads.set i { rd with query := q.1 } }, t)
  | .settle i k e, x, t => x.reads[i]?.bind fun rd =>
      (rd.query.settle k e).map fun q =>
        if q.ops = [] then
          serve { rd with query := q } { x with reads := x.reads.eraseIdx i } t
        else ({ x with reads := x.reads.set i { rd with query := q } }, t)

end Acceptor

open Acceptor in
/-- `acceptor::process(wq)`: the sub-writes of a write, serialised by stripe. `extent` is the number of
stripes of a write that ends at least a stripe below `2 ^ 64`; `Checked.split` has it in 64 bits. -/
def acceptor (G : Geometry) (E : Env) : Machine SubWrite Inner WriteReq Act Beside where
  key w := w.stripe
  ident w := w.id
  owner w := w.cid
  busy w := w.busy
  extent r := divRoundUp (r.off + r.size) G.stripeDataSz
  split := split G
  park w := { w with waited := true }
  start := process G E
  react := react G E
  enter w x := (w.err, { x with done := x.done ++ [w] })
  leave _ x := (0, x)
  aside := beside G E

/-- A new acceptor over devices of any content. -/
def Inner.initial (dev : Addr → Byte) : Inner := ⟨⟨dev, 0⟩, fun _ => false, [], 0, [], [], []⟩

end Ublk.Raidsp
