import Ublk.Cache.Front
import Ublk.Lib.SerialTrace
import Ublk.Span

/-!
`RWTHandler`. A write is cut at the chunks; its parts are serialised by chunk. A part goes into the
cache and then to the handler below. If it is less than a chunk and the chunk is not cached, the
chunk is read first.
-/
namespace Ublk.Cache

open Shared Serial Words

/-- A part of a write: the request, the place in the chunk and the bytes. -/
structure Slice where
  cid : Nat
  chunkId : Nat
  chunkOffset : Nat
  size : Nat
  src : Nat → Byte

/-- A part of a write with the query that reads its chunk and itself as it was handed on. -/
structure ChunkWrite extends Slice where
  rmwq : Query
  wq : Query

namespace ChunkWrite

/-- The error of a part is its own or that of the read. -/
def err (w : ChunkWrite) : Int := if w.rmwq.err = 0 then w.wq.err else w.rmwq.err

def busy (w : ChunkWrite) : Bool := !(w.rmwq.ops.isEmpty && w.wq.ops.isEmpty)

end ChunkWrite

def Slice.sub (sz : Nat) (w : Slice) : Sub := ⟨0, w.chunkId * sz + w.chunkOffset, 0, w.size⟩

def Slice.Covers (sz : Nat) (w : Slice) (a : Nat) : Prop :=
  (w.sub sz).off ≤ a ∧ a < (w.sub sz).off + w.size

instance Slice.decidableCovers (sz : Nat) (w : Slice) (a : Nat) : Decidable (w.Covers sz a) :=
  inferInstanceAs (Decidable (_ ∧ _))

/-- A part as it is made. -/
def Slice.fresh (w : Slice) : ChunkWrite := ⟨w, .read fun _ => 0, .writing w.src⟩

namespace Rwt

structure Inner where
  front : Front
  /-- History: the bytes that writes under way are yet to bring to the handler below. -/
  owed : Nat → Bool
  /-- History: the chunks of failed parts that have not been dropped yet. -/
  failing : List Nat
  /-- History: the requests to write, and the parts that ended. -/
  writes : List (Nat × Range × (Nat → Byte))
  done : List ChunkWrite

inductive Act
  /-- Bytes of the chunk are read, or bytes of the part are written. -/
  | sample (hit : Nat → Bool)
  | apply (hit : Nat → Bool)
  /-- The read of the chunk, or the write, completes. -/
  | fill (e : Int)
  | complete (e : Int)

inductive Beside
  | read (r : Range) (buf : Nat → Byte)
  | sample (i : Nat) (hit : Nat → Bool)
  | settle (i : Nat) (e : Int)

/-- The parts of a request to write. -/
def slices (sz c : Nat) (r : Range) (src : Nat → Byte) : List Slice :=
  (Blocks.cut sz r.off r.len).map fun p => ⟨c, p.id, p.inner, p.len, fun b => src (p.pos + b)⟩

variable (sz : Nat) (E : Env)

def Inner.owe (w : ChunkWrite) (x : Inner) : Inner :=
  { x with owed := fun a =>
      if w.Covers sz a then w.wq.ops.any fun op => !op.took (a - (w.sub sz).off) else x.owed a }

/-- Writes reach the addresses of `hit`. -/
def Inner.reach (disk : Disk) (hit : Nat → Bool) (x : Inner) : Inner :=
  { x with front := { x.front with disk }.mark sz hit }

/-- The cache gets a chunk, and the count of writes done goes up. -/
def Inner.put (k : Nat) (chunk : Nat → Byte) (x : Inner) : Inner :=
  { x with front := { x.front with
      cache := (x.front.cache.update k (some chunk)).2, seq := x.front.seq + 1 } }

/-- The part is handed on. -/
def submitWrite (w : ChunkWrite) (x : Inner) : Int × ChunkWrite × Inner :=
  let q := (Query.writing w.src).submit E (w.sub sz) x.front.disk
  let w := { w with wq := q.2.1 }
  (q.1, w, (x.reach sz q.2.2 ((E.beh true x.front.disk.next).lands (w.sub sz))).owe sz w)

/-- The completer of the query that reads the chunk. What the submit returns is dropped. -/
def rmwDone (w : ChunkWrite) (x : Inner) : ChunkWrite × Inner :=
  if w.rmwq.err = 0 then
    (submitWrite sz E w
      (x.put w.chunkId (overlay w.rmwq.buf w.chunkOffset w.size w.src))).2
  else (w, x)

/-- The chunk of a part is read. The completer runs also when the submit is turned down. -/
def readFirst (w : ChunkWrite) (x : Inner) : Int × ChunkWrite × Inner :=
  let q := (Query.read (E.junk x.front.disk.next)).submit E (chunkSub sz w.chunkId) x.front.disk
  let w := { w with rmwq := q.2.1 }
  let x := { x with front := { x.front with disk := q.2.2 } }
  (q.1, if w.rmwq.ops = [] then rmwDone sz E w x else (w, x))

/-- `RWTHandler::process`. -/
def process (w : ChunkWrite) (x : Inner) : Int × ChunkWrite × Inner :=
  if ¬ w.size < sz then submitWrite sz E w (x.put w.chunkId w.src)
  else
    let r := x.front.cache.findMutable w.chunkId fun b => overlay b w.chunkOffset w.size w.src
    let x := { x with front := { x.front with cache := r.2 } }
    if r.1.size = 0 then readFirst sz E w x else submitWrite sz E w x

def react : Act → ChunkWrite → Inner → Option (ChunkWrite × Inner)
  | .sample hit, w, x => (w.rmwq.effect 0 hit x.front.disk.dev).map fun q =>
    ({ w with rmwq := q.1 }, x)
  | .fill e, w, x => (w.rmwq.settle 0 e).map fun q => rmwDone sz E { w with rmwq := q } x
  | .apply hit, w, x => (w.wq.effect 0 hit x.front.disk.dev).map fun q =>
    let w' := { w with wq := q.1 }
    (w', (x.reach sz { x.front.disk with dev := q.2 }
      fun a => w.wq.ops.any (·.lands hit a)).owe sz w')
  | .complete e, w, x => (w.wq.settle 0 e).map fun q =>
    let w' := { w with wq := q }
    (w', x.owe sz w')

def aside : Beside → Inner → Requests → Option (Inner × Requests)
  | .read r buf, x, t =>
    let y := x.front.read sz E x.owed r buf t
    some ({ x with front := y.1 }, y.2)
  | .sample i hit, x, t => (x.front.sample i hit).map fun y => ({ x with front := y }, t)
  | .settle i e, x, t => (x.front.settle sz x.owed i e t).map fun y =>
    ({ x with front := y.1 }, y.2)

/-- The end of a part that failed: its chunk is dropped. -/
def dropChunk (w : ChunkWrite) (x : Inner) : Inner :=
  { x with
    front := { x.front with cache := x.front.cache.invalidate w.chunkId }
    failing := x.failing.erase w.chunkId }

def machine : Machine ChunkWrite Inner (Range × (Nat → Byte)) Act Beside where
  key w := w.chunkId
  ident w := w.chunkId
  owner w := w.cid
  busy w := w.busy
  extent r := (divRoundUp64 (wrap (r.1.off + r.1.len)) sz).getD 0
  split r c x := ((slices sz c r.1 r.2).map Slice.fresh, { x with writes := x.writes ++ [(c, r)] })
  park w := w
  start := process sz E
  react := react sz E
  enter w x := (0, { x with
    failing := if w.err = 0 then x.failing else w.chunkId :: x.failing
    done := x.done ++ [w] })
  leave w x := (w.err, if w.err = 0 then x else dropChunk w x)
  aside := aside sz E

/-- A new handler with a cache of `n` chunks. -/
def Inner.initial (n sz : Nat) (hn : 0 < n) (hsz : 0 < sz) (dev : Addr → Byte) : Inner :=
  ⟨⟨⟨dev, 0⟩, .empty n sz hn hsz, 0, [], [], false⟩, fun _ => false, [], [], []⟩

abbrev State := Serial.State ChunkWrite Inner

abbrev Label := Serial.Label (Range × (Nat → Byte)) Act Beside

end Rwt

end Ublk.Cache
