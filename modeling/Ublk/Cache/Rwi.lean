import Ublk.Cache.Front
import Ublk.Span

/-! `RWIHandler`: a write goes straight to the handler below; its completer drops the chunks. -/
namespace Ublk.Cache

open Shared Words

/-- A write handed on, and the range of the chunks to drop. -/
structure Forward where
  cid : Nat
  off : Nat
  len : Nat
  chunkIdFirst : Nat
  chunkIdLast : Nat
  query : Query

structure Rwi where
  front : Front
  forwards : List Forward
  reqs : Requests
  /-- History: all writes so far. -/
  written : List (Range × (Nat → Byte))

inductive Rwi.Label
  | read (r : Range) (buf : Nat → Byte)
  | write (r : Range) (src : Nat → Byte)
  /-- Bytes of the `i`-th chunk being read, or write under way, take effect. -/
  | sample (i : Nat) (hit : Nat → Bool)
  | apply (i : Nat) (hit : Nat → Bool)
  /-- The `i`-th chunk being read, or write under way, completes. -/
  | settle (i : Nat) (e : Int)
  | complete (i : Nat) (e : Int)

def Forward.Covers (f : Forward) (a : Nat) : Prop := f.off ≤ a ∧ a < f.off + f.len

instance (f : Forward) (a : Nat) : Decidable (f.Covers a) :=
  inferInstanceAs (Decidable (_ ∧ _))

namespace Rwi

variable (sz : Nat) (E : Env)

/-- A write under way covers the byte. -/
def cov (s : Rwi) (a : Nat) : Bool := s.forwards.any fun f => decide (f.Covers a)

/-- The completer of a write handed on, which holds the client's query. -/
def complete (f : Forward) (s : Rwi) : Option Rwi := do
  let cache ← s.front.cache.invalidateRange f.chunkIdFirst f.chunkIdLast
  return { s with
    front := { s.front with cache, seq := s.front.seq + 1 }
    reqs := (s.reqs.setErr f.cid f.query.err).drop f.cid }

/-- A write submitted is under way unless it is over at once. -/
def forward (f : Forward) (s : Rwi) : Option Rwi :=
  if f.query.ops = [] then s.complete f else some { s with forwards := s.forwards ++ [f] }

/-- `RWIHandler::submit(write_query)`. -/
def write (r : Range) (src : Nat → Byte) (s : Rwi) : Option Rwi := do
  let chunkIdLast ← divRoundUp64 (wrap (r.off + r.len)) sz
  -- `wq` is null once the completer has it, and `wq->buf()` and `wq->offset()` are read through it
  guard (E.movesFirst = false)
  let c := s.reqs.count
  let sub : Sub := ⟨0, r.off, 0, r.len⟩
  let q := (Query.writing src).submit E sub s.front.disk
  let front := { s.front with disk := q.2.2 }.mark sz fun a =>
    (E.beh true s.front.disk.next).lands sub a
  let f : Forward := ⟨c, r.off, r.len, r.off / sz, chunkIdLast, q.2.1⟩
  let s ← { s with
    front, reqs := s.reqs.create.share c, written := s.written ++ [(r, src)] }.forward f
  return { s with reqs := s.reqs.returned c q.1 }

/-- A new handler with a cache of `n` chunks. -/
def initial (n sz : Nat) (hn : 0 < n) (hsz : 0 < sz) (dev : Addr → Byte) : Rwi :=
  ⟨⟨⟨dev, 0⟩, .empty n sz hn hsz, 0, [], [], false⟩, [], .empty, []⟩

def step (s : Rwi) : Label → Option Rwi
  | .read r buf =>
    let x := s.front.read sz E s.cov r buf s.reqs
    some { s with front := x.1, reqs := x.2 }
  | .write r src => s.write sz E r src
  | .sample i hit => (s.front.sample i hit).map ({ s with front := · })
  | .apply i hit => do
    let f ← s.forwards[i]?
    let q ← f.query.effect 0 hit s.front.disk.dev
    let front := { s.front with disk := { s.front.disk with dev := q.2 } }.mark sz fun a =>
      f.query.ops.any (·.lands hit a)
    return { s with front, forwards := s.forwards.set i { f with query := q.1 } }
  | .settle i e => (s.front.settle sz s.cov i e s.reqs).map fun x =>
      { s with front := x.1, reqs := x.2 }
  | .complete i e => do
    let f ← s.forwards[i]?
    let q ← f.query.settle 0 e
    { s with forwards := s.forwards.eraseIdx i }.complete { f with query := q }

variable {sz E} {s t : Rwi} {r : Range} {src : Nat → Byte}

/-- A write that goes on is handed on, read before it moves. -/
theorem write_cases (hs : s.write sz E r src = some t) : ∃ last t',
    divRoundUp64 (wrap (r.off + r.len)) sz = some last ∧ E.movesFirst = false ∧
    let sub : Sub := ⟨0, r.off, 0, r.len⟩
    let q := (Query.writing src).submit E sub s.front.disk
    Rwi.forward ⟨s.reqs.count, r.off, r.len, r.off / sz, last, q.2.1⟩
      { s with
        front := { s.front with disk := q.2.2 }.mark sz fun a =>
          (E.beh true s.front.disk.next).lands sub a
        reqs := s.reqs.create.share s.reqs.count
        written := s.written ++ [(r, src)] } = some t' ∧
    t = { t' with reqs := t'.reqs.returned s.reqs.count q.1 } := by
  obtain ⟨last, hlast, hs⟩ := Option.bind_eq_some_iff.mp hs
  obtain ⟨_, horder, hs⟩ := Option.bind_eq_some_iff.mp hs
  obtain ⟨t', ht', hs⟩ := Option.bind_eq_some_iff.mp hs
  refine ⟨last, t', hlast, ?_, ht', (Option.some.inj hs).symm⟩
  by_contra hne
  cases horder.symm.trans (if_neg hne)

end Rwi

end Ublk.Cache
