import Ublk.Cache.FlatLru
import Ublk.Lib.Requests
import Ublk.Query

/-!
Reads through the cache. A chunk that is not cached is read as a whole, and its completer puts it
into the cache unless a write was done since.
-/
namespace Ublk.Cache

open Shared

/-- What a client asks for, within the offsets of 64 bits. -/
structure Range where
  off : Nat
  len : Nat
  pos : 0 < len
  top : off + len ≤ 2 ^ 64

/-- A client's read. -/
structure ClientRead where
  cid : Nat
  off : Nat
  len : Nat
  buf : Nat → Byte
  /-- History: the bytes delivered, and those that a write was under way to when the read came or
  reached since. -/
  got : Nat → Bool
  raced : Nat → Bool

/-- The query for the chunk of a piece of a client's read. -/
structure Fill where
  rd : Nat
  cid : Nat
  piece : Blocks.Piece
  /-- `last_wq_done_seq_` when the query was made. -/
  seq : Nat
  query : Query
  /-- History: bytes that a write reached after they were read. -/
  late : Nat → Bool

/-- What reads work on: the handler below, the cache, and the handler's count of writes done. -/
structure Front where
  disk : Disk
  cache : FlatLru Nat (Nat → Byte)
  seq : Nat
  fills : List Fill
  /-- All reads so far. -/
  reads : List ClientRead
  /-- History: a chunk was put into the cache with a byte that was late, or that a write under way
  was yet to reach. -/
  outdated : Bool

def Fill.took (f : Fill) (j : Nat) : Bool := f.query.ops.any fun op => op.took j

/-- Fresh memory of a chunk's size, read into. -/
def chunkSub (sz k : Nat) : Sub := ⟨0, k * sz, 0, sz⟩

/-- The pieces of the loop over a read, from `rb` on, with `size` its buffer's size. -/
def readPieces (sz off size : Nat) : Nat → Nat → Nat → List Blocks.Piece
  | 0, _, _ => []
  | fuel + 1, chunkId, rb =>
    if rb < size then
      let chunkOffset := (off + rb) % sz
      let chunkSz := min (sz - chunkOffset) (size - rb)
      ⟨chunkId, chunkOffset, rb, chunkSz⟩ :: readPieces sz off size fuel (chunkId + 1) (rb + chunkSz)
    else []

namespace Front

variable (sz : Nat) (E : Env) (cov : Nat → Bool)

/-- Writes reach the addresses of `hit`. -/
def mark (hit : Nat → Bool) (x : Front) : Front :=
  { x with
    fills := x.fills.map fun f =>
      { f with late := fun j => f.late j || (f.took j && hit (f.piece.id * sz + j)) }
    reads := x.reads.map fun r => { r with raced := fun i => r.raced i || hit (r.off + i) } }

/-- A piece of a chunk is copied to the client. -/
def deliver (rd : Nat) (p : Blocks.Piece) (chunk : Nat → Byte) (x : Front) : Front :=
  { x with
    reads := x.reads.modify rd fun r =>
      { r with
        buf := overlay r.buf p.pos p.len fun i => chunk (p.inner + i)
        got := fun i => r.got i || decide (p.pos ≤ i ∧ i < p.pos + p.len) } }

/-- The chunk that was read goes into the cache. `cov` tells the bytes that writes under way are yet
to reach. -/
def insert (f : Fill) (x : Front) : Front :=
  { x with
    cache := (x.cache.update f.piece.id (some f.query.buf)).2
    outdated := x.outdated ||
      (List.range sz).any fun j => f.late j || cov (f.piece.id * sz + j) }

/-- The completer of a chunk's query, which holds the client's query. -/
def filled (f : Fill) (x : Front) (t : Requests) : Front × Requests :=
  if f.query.err ≠ 0 then (x, (t.setErr f.cid f.query.err).drop f.cid)
  else
    let x := x.deliver f.rd f.piece f.query.buf
    (if f.seq = x.seq then x.insert sz cov f else x, t.drop f.cid)

/-- A chunk that is not cached is read. -/
def readChunk (rd cid : Nat) (p : Blocks.Piece) (x : Front) (t : Requests) :
    Int × Front × Requests :=
  let q := (Query.read (E.junk x.disk.next)).submit E (chunkSub sz p.id) x.disk
  let f : Fill := ⟨rd, cid, p, x.seq, q.2.1, fun _ => false⟩
  let x := { x with disk := q.2.2 }
  let t := t.share cid
  (q.1, if q.2.1.ops = [] then x.filled sz cov f t else ({ x with fills := x.fills ++ [f] }, t))

/-- The loop of `RWIHandler::submit(read_query)`. -/
def readLoop (rd cid : Nat) : List Blocks.Piece → Front → Requests → Int × Front × Requests
  | [], x, t => (0, x, t)
  | p :: ps, x, t =>
    let r := x.cache.find p.id
    if r.1.size = 0 then
      let r := { x with cache := r.2 }.readChunk sz E cov rd cid p t
      if r.1 = 0 then readLoop rd cid ps r.2.1 r.2.2 else r
    else
      let x := { x with cache := r.2 }
      readLoop rd cid ps (x.deliver rd p (r.1.data.getD (E.junk x.disk.next))) t

/-- `RWIHandler::submit(read_query)`, with a client's buffer that holds `buf`. -/
def read (r : Range) (buf : Nat → Byte) (x : Front) (t : Requests) : Front × Requests :=
  let rd : ClientRead :=
    ⟨t.count, r.off, r.len, buf, fun _ => false, fun i => cov (r.off + i)⟩
  let s := { x with reads := x.reads ++ [rd] }.readLoop sz E cov x.reads.length t.count
    (readPieces sz r.off r.len r.len (r.off / sz) 0) t.create
  (s.2.1, s.2.2.returned t.count s.1)

/-- Bytes of the `i`-th chunk in flight are read. -/
def sample (i : Nat) (hit : Nat → Bool) (x : Front) : Option Front :=
  x.fills[i]?.bind fun f => (f.query.effect 0 hit x.disk.dev).map fun q =>
    { x with fills := x.fills.set i { f with query := q.1 } }

/-- The `i`-th chunk in flight completes. -/
def settle (i : Nat) (e : Int) (x : Front) (t : Requests) : Option (Front × Requests) :=
  x.fills[i]?.bind fun f => (f.query.settle 0 e).map fun q =>
    { x with fills := x.fills.eraseIdx i }.filled sz cov { f with query := q } t

end Front

end Ublk.Cache
