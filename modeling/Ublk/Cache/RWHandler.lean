import Ublk.Cache.Rwi
import Ublk.Cache.Rwt
import Ublk.Lib.SerialStart

/-!
`cache::RWHandler`: the requests of a client that waits for each of them. Two handlers have one
cache; the handler below has a number of bytes, serves what lies inside and fails the rest.
-/
namespace Ublk

/-- What a handler of `C` bytes may make of a submit: served inside, failed elsewhere. -/
def Outcome.heeds (C : Nat) (s : Sub) : Outcome → Bool
  | .reject _ _ => decide (C < s.off + s.len)
  | .held => true
  | .done e _ => decide (e = 0 ↔ s.off + s.len ≤ C)

/-- A subquery completes with the code due to it. -/
def Query.heeds (C : Nat) (e : Int) (q : Query) : Bool :=
  q.ops.all fun op => decide (e = 0 ↔ op.sub.off + op.sub.len ≤ C)

namespace Cache

open Shared Serial Words

def kSectorShift : Nat := 9

def kSectorSz : Nat := 2 ^ kSectorShift

def sectorsToBytes (x : Nat) : Nat := wrap (x * 2 ^ kSectorShift)

def FlatLru.create {β : Type} (cacheLen cacheItemSz : Nat) : Option (FlatLru Nat β) :=
  if h : 0 < cacheLen ∧ 0 < cacheItemSz then some (.empty cacheLen cacheItemSz h.1 h.2) else none

/-- The loop of `make_cache`, which halves the size of an item until a cache is made. -/
def makeCacheLoop {β : Type} (cacheLenBytes : Nat) : Nat → Nat → Option (FlatLru Nat β)
  | 0, _ => none
  | fuel + 1, cacheItemSz =>
    if cacheItemSz < kSectorSz then none
    else
      (if cacheLenBytes / cacheItemSz ≠ 0 then
        (divRoundUp64 cacheLenBytes cacheItemSz).bind fun len => FlatLru.create len cacheItemSz
      else none) <|> makeCacheLoop cacheLenBytes fuel (cacheItemSz / 2)

def makeCache {β : Type} (cacheLenBytes : Nat) : Option (FlatLru Nat β) :=
  if cacheLenBytes ≠ 0 then makeCacheLoop cacheLenBytes 64 (2 ^ 20) else none

/-- What a client asks for: a buffer to fill, or bytes to write. -/
inductive Ask
  | read (r : Range) (buf : Nat → Byte)
  | write (r : Range) (src : Nat → Byte)

namespace Ask

def range : Ask → Range
  | .read r _ => r
  | .write r _ => r

/-- The bytes of the handler below once it has dealt with the request. -/
def leaves (dev : Nat → Byte) : Ask → Nat → Byte
  | .read _ _ => dev
  | .write r src => overlay dev r.off r.len src

end Ask

/-- What becomes of a request: what the call returned, the error of the query and how often its
completer ran, and the client's buffer. -/
structure Answer where
  ret : Option Int
  err : Int
  runs : Nat
  buf : Nat → Byte

/-- The handler while it has nothing to do. -/
structure RWHandler where
  /-- `handler_` is `handlers_[1]`. -/
  writeThrough : Bool
  disk : Disk
  cache : FlatLru Nat (Nat → Byte)
  lastWqDoneSeq : Bool → Nat
  chunkWLocker : LockTable

namespace RWHandler

/-- The constructor, over a handler with the bytes `disk`. -/
def create (cacheLenSectors : Nat) (disk : Disk) (writeThrough : Bool) : Option RWHandler :=
  (makeCache (sectorsToBytes cacheLenSectors)).map fun cache =>
    ⟨writeThrough, disk, cache, fun _ => 0, .empty⟩

def setWriteThrough (value : Bool) (h : RWHandler) : RWHandler := { h with writeThrough := value }

def front (h : RWHandler) : Front := ⟨h.disk, h.cache, h.lastWqDoneSeq h.writeThrough, [], [], false⟩

def rwi (h : RWHandler) : Rwi := ⟨h.front, [], .empty, []⟩

def rwt (h : RWHandler) : Rwt.State :=
  { Serial.State.initial ⟨h.front, fun _ => false, [], [], []⟩ with locks := h.chunkWLocker }

/-- What a request leaves behind. -/
def after (x : Front) (locks : LockTable) (h : RWHandler) : RWHandler :=
  { h with
    disk := x.disk, cache := x.cache, chunkWLocker := locks
    lastWqDoneSeq := Function.update h.lastWqDoneSeq h.writeThrough x.seq }

end RWHandler

def Front.answer (x : Front) (t : Requests) : Answer :=
  ⟨(t.req 0).ret, (t.req 0).err, (t.req 0).runs, (x.reads.head?.map (·.buf)).getD fun _ => 0⟩

/-! Along the submits that a step makes, the handler below does what one of `C` bytes does. -/

section Heeds

variable (C sz : Nat) (E : Env)

def Front.loopHeeds (cov : Nat → Bool) (rd cid : Nat) :
    List Blocks.Piece → Front → Requests → Bool
  | [], _, _ => true
  | p :: ps, x, t =>
    let r := x.cache.find p.id
    if r.1.size = 0 then
      let s : Int × Front × Requests := { x with cache := r.2 }.readChunk sz E cov rd cid p t
      (E.beh false x.disk.next).heeds C (chunkSub sz p.id) &&
        if s.1 = 0 then loopHeeds cov rd cid ps s.2.1 s.2.2 else true
    else
      let x := { x with cache := r.2 }
      loopHeeds cov rd cid ps (x.deliver rd p (r.1.data.getD (E.junk x.disk.next))) t

def Front.readHeeds (cov : Nat → Bool) (r : Range) (buf : Nat → Byte) (x : Front) (t : Requests) :
    Bool :=
  let rd : ClientRead := ⟨t.count, r.off, r.len, buf, fun _ => false, fun i => cov (r.off + i)⟩
  { x with reads := x.reads ++ [rd] }.loopHeeds C sz E cov x.reads.length t.count
    (readPieces sz r.off r.len r.len (r.off / sz) 0) t.create

def Front.settleHeeds (i : Nat) (e : Int) (x : Front) : Bool :=
  x.fills[i]?.all fun f => f.query.heeds C e

namespace Rwi

def heeds (s : Rwi) : Label → Bool
  | .read r buf => s.front.readHeeds C sz E s.cov r buf s.reqs
  | .write r _ => (E.beh true s.front.disk.next).heeds C ⟨0, r.off, 0, r.len⟩
  | .sample _ _ => true
  | .apply _ _ => true
  | .settle i e => s.front.settleHeeds C i e
  | .complete i e => s.forwards[i]?.all fun f => f.query.heeds C e

/-- A step of a request under way. -/
def Serving (s : Rwi) (l : Label) : Prop :=
  (match l with
    | .read _ _ => False
    | .write _ _ => False
    | _ => True) ∧ s.heeds C sz E l = true

/-- A precondition fails and the program stops. -/
def Stops (s : Rwi) : Label → Prop
  | .write r src => s.write sz E r src = none
  | .complete i e => ∃ f q, s.forwards[i]? = some f ∧ f.query.settle 0 e = some q ∧
      { s with forwards := s.forwards.eraseIdx i }.complete { f with query := q } = none
  | _ => False

def Idle (s : Rwi) : Prop := s.front.fills = [] ∧ s.forwards = []

def ask : Ask → Label
  | .read r buf => .read r buf
  | .write r src => .write r src

end Rwi

namespace Rwt

def submitHeeds (w : ChunkWrite) (x : Inner) : Bool :=
  (E.beh true x.front.disk.next).heeds C (w.sub sz)

def rmwHeeds (w : ChunkWrite) (x : Inner) : Bool :=
  decide (w.rmwq.err ≠ 0) || submitHeeds C sz E w x

def readHeeds (w : ChunkWrite) (x : Inner) : Bool :=
  let q := (Query.read (E.junk x.front.disk.next)).submit E (chunkSub sz w.chunkId) x.front.disk
  (E.beh false x.front.disk.next).heeds C (chunkSub sz w.chunkId) &&
    (!q.2.1.ops.isEmpty ||
      rmwHeeds C sz E { w with rmwq := q.2.1 } { x with front := { x.front with disk := q.2.2 } })

def processHeeds (w : ChunkWrite) (x : Inner) : Bool :=
  if ¬ w.size < sz then submitHeeds C sz E w x
  else if (x.front.cache.findMutable w.chunkId fun b =>
      overlay b w.chunkOffset w.size w.src).1.size = 0 then readHeeds C sz E w x
  else submitHeeds C sz E w x

def actHeeds : Act → ChunkWrite → Inner → Bool
  | .sample _, _, _ => true
  | .fill e, w, x => w.rmwq.heeds C e &&
      (w.rmwq.settle 0 e).all fun q => rmwHeeds C sz E { w with rmwq := q } x
  | .apply _, _, _ => true
  | .complete e, w, _ => w.wq.heeds C e

def heeds (s : State) : Label → Bool
  | .arrive _ => true
  | .tick => ((machine sz E).starting s).all fun w => processHeeds C sz E w s.inner
  | .act i a => s.active[i]?.all fun w => actHeeds C sz E a w s.inner
  | .aside (.read r buf) => s.inner.front.readHeeds C sz E s.inner.owed r buf s.reqs
  | .aside (.sample _ _) => true
  | .aside (.settle i e) => s.inner.front.settleHeeds C i e

/-- A step of a request under way. -/
def Serving (s : State) (l : Label) : Prop :=
  (match l with
    | .arrive _ => False
    | .aside (.read _ _) => False
    | _ => True) ∧ heeds C sz E s l = true

def Idle (s : State) : Prop :=
  s.Quiet ∧ s.active = [] ∧ s.pending = [] ∧ s.inner.front.fills = []

def ask : Ask → Label
  | .read r buf => .aside (.read r buf)
  | .write r src => .arrive (r, src)

end Rwt

/-- What can become of a request that finds the handler idle; `none` if the program stops. -/
inductive RWHandler.Served (h : RWHandler) (q : Ask) : Option (Answer × RWHandler) → Prop
  | rwi {s t : Rwi} (hm : h.writeThrough = false) (ha : h.rwi.heeds C sz E (Rwi.ask q) = true)
      (hs : h.rwi.step sz E (Rwi.ask q) = some s) (hr : Lts.Run (Rwi.step sz E) (Rwi.Serving C sz E) s t)
      (hi : t.Idle) : h.Served q (some (t.front.answer t.reqs, h.after t.front h.chunkWLocker))
  | turned (hm : h.writeThrough = false) (ha : h.rwi.heeds C sz E (Rwi.ask q) = true)
      (hs : h.rwi.Stops sz E (Rwi.ask q)) : h.Served q none
  | stopped {s t : Rwi} {l : Rwi.Label} (hm : h.writeThrough = false)
      (ha : h.rwi.heeds C sz E (Rwi.ask q) = true) (hs : h.rwi.step sz E (Rwi.ask q) = some s)
      (hr : Lts.Run (Rwi.step sz E) (Rwi.Serving C sz E) s t) (hl : Rwi.Serving C sz E t l)
      (hd : t.Stops sz E l) : h.Served q none
  | rwt {s t : Rwt.State} (hm : h.writeThrough = true)
      (ha : Rwt.heeds C sz E h.rwt (Rwt.ask q) = true)
      (hs : (Rwt.machine sz E).step h.rwt (Rwt.ask q) = some s)
      (hr : Lts.Run (Rwt.machine sz E).step (Rwt.Serving C sz E) s t) (hi : Rwt.Idle t) :
      h.Served q (some (t.inner.front.answer t.reqs, h.after t.inner.front t.locks))
  | dead {s t : Rwt.State} (hm : h.writeThrough = true)
      (ha : Rwt.heeds C sz E h.rwt (Rwt.ask q) = true)
      (hs : (Rwt.machine sz E).step h.rwt (Rwt.ask q) = some s)
      (hr : Lts.Run (Rwt.machine sz E).step (Rwt.Serving C sz E) s t) (hd : t.dead = true) :
      h.Served q none

end Heeds

end Cache
end Ublk
