import Ublk.Raidsp.Restart
import Ublk.Span

/-!
What the code asks of its callers, in the 64-bit arithmetic it uses. Each definition yields the
subqueries that a function of the source submits, or nothing where a check of it fails.
-/
namespace Ublk.Raidsp

open Shared Serial Words

namespace Checked

variable (G : Geometry)

/-- `static_cfg` of the backend. -/
def stripeDataSz : Nat := wrap (G.stripSz * sub G.n 1)

def stripeSz : Nat := wrap (stripeDataSz G + G.stripSz)

def handlersDataView (skip first nr : Nat) : Option (List Nat) := do
  expects (skip < G.n)
  expects (wrap (first + nr) < G.n)
  return G.handlersDataView skip first nr

/-- The loop of `data_read` over the strips of a chunk: the subqueries, what has been read and
what is left of the chunk. -/
def readStrips (k : Nat) (rq : Span) : List Nat → Nat → Nat → Nat → Option (List Sub × Nat × Nat)
  | [], _, rb, chunk => some ([], rb, chunk)
  | h :: hs, stripOff, rb, chunk => do
    let off := wrap (wrap (k * G.stripSz) + stripOff)
    let sz := min (sub G.stripSz stripOff) chunk
    let _ ← rq.subquery rb sz
    let r ← readStrips k rq hs 0 (wrap (rb + sz)) (sub chunk sz)
    return (⟨h, off, rb, sz⟩ :: r.1, r.2)

/-- The loop of `data_read` over the stripes. -/
def readStripes (rq : Span) : Nat → Nat → Nat → Nat → Option (List Sub)
  | 0, _, _, _ => none
  | fuel + 1, k, off, rb =>
    if rb < rq.len then do
      let chunk := min (sub (stripeDataSz G) off) (sub rq.len rb)
      let first := off / G.stripSz
      let last ← divRoundUp64 (wrap (off + chunk)) G.stripSz
      expects (G.parityId k < G.n)
      let hs ← handlersDataView G (G.parityId k) first (sub last first)
      let r ← readStrips G k rq hs (off % G.stripSz) rb chunk
      expects (0 = r.2.2)
      let rest ← readStripes rq fuel (wrap (k + 1)) 0 r.2.1
      return r.1 ++ rest
    else some []

def dataRead (k : Nat) (rq : Span) (off : Nat) : Option (List Sub) := do
  expects (rq.len ≠ 0)
  expects (off < stripeDataSz G)
  readStripes G rq (rq.len + 1) k off 0

def parityRead (k : Nat) (rq : Span) (off : Nat) : Option (List Sub) := do
  expects (rq.len ≠ 0)
  expects (¬ wrap (off + rq.len) > G.stripSz)
  expects (G.parityId k < G.n)
  let _ ← rq.subquery 0 (min G.stripSz rq.len)
  return [⟨G.parityId k, wrap (k * G.stripSz), 0, min G.stripSz rq.len⟩]

/-- The loop of `backend::stripe_write` over the strips. -/
def writeStrips (k : Nat) (wqd : Span) : List Nat → Nat → Nat → Option (List Sub × Nat)
  | [], _, wb => some ([], wb)
  | h :: hs, stripOff, wb => do
    let off := wrap (wrap (k * G.stripSz) + stripOff)
    let sz := min (sub G.stripSz stripOff) (sub wqd.len wb)
    let _ ← wqd.subquery wb sz
    let r ← writeStrips k wqd hs 0 (wrap (wb + sz))
    return (⟨h, off, wb, sz⟩ :: r.1, r.2)

/-- `backend::stripe_write`. -/
def backendWrite (k off : Nat) (wqd : Span) (poff : Nat) (wqp : Span) : Option (List Sub) := do
  expects (wqd.len ≠ 0)
  expects (¬ wrap (off + wqd.len) > stripeDataSz G)
  expects (wqp.len ≠ 0)
  expects (¬ wrap (poff + wqp.len) > G.stripSz)
  let first := off / G.stripSz
  let last ← divRoundUp64 (wrap (off + wqd.len)) G.stripSz
  expects (G.parityId k < G.n)
  let hs ← handlersDataView G (G.parityId k) first (sub last first)
  let r ← writeStrips G k wqd hs (off % G.stripSz) 0
  expects (¬ r.2 < wqd.len)
  let _ ← wqp.subquery 0 wqp.len
  return r.1 ++ [⟨G.parityId k, wrap (wrap (k * G.stripSz) + poff), 0, wqp.len⟩]

/-- `stripe_incoherent_parity_write` and `stripe_coherent_parity_write`: new queries over the
spans of the given ones. -/
def stripeWrite (k off : Nat) (wqd : Span) (poff : Nat) (wqp : Span) : Option (List Sub) := do
  let wqd ← wqd.create
  let wqp ← wqp.create
  backendWrite G k off wqd poff wqp

/-- `stripe_data_write`, its parity in the pool's chunk at `chunk`. -/
def stripeDataWrite (chunk : Nat) (w : SubWrite) : Option (List Sub) := do
  expects (w.size ≠ 0)
  expects (0 = w.off)
  expects (w.size = stripeDataSz G)
  let parity : Span := ⟨chunk, G.stripSz⟩
  Span.parityRenew ⟨w.addr, w.size⟩ parity
  let wqp ← parity.create
  stripeWrite G w.stripe w.off ⟨w.addr, w.size⟩ 0 wqp

/-- The spans of data and parity in a chunk of a stripe. -/
def views (chunk : Nat) : Option (Span × Span) := do
  let stripe : Span := ⟨chunk, stripeSz G⟩
  let data ← stripe.subspan 0 (stripeDataSz G)
  let parity ← stripe.subspan data.len (sub stripe.len data.len)
  return (data, parity)

/-- `process(stripe_id, wq)` up to the end of its own submits. There are `nr` coherency flags. -/
def process (nr chunk : Nat) (coherent : Bool) (w : SubWrite) : Option (List Sub) := do
  expects (w.size ≠ 0)
  expects (¬ wrap (w.off + w.size) > stripeDataSz G)
  if w.size < stripeDataSz G then
    let v ← views G chunk
    expects (w.stripe < nr)
    if coherent then
      let data ← v.1.subspan w.off w.size
      let rqd ← data.create
      dataRead G w.stripe rqd w.off
    else
      let rqd ← v.1.create
      dataRead G w.stripe rqd 0
  else stripeDataWrite G chunk w

/-- `new_rdq_completer` when its read has succeeded. -/
def rqdDone (chunk : Nat) (w : SubWrite) : Option (List Sub) := do
  let v ← views G chunk
  if w.coherent then
    let rpq ← v.2.create
    parityRead G w.stripe rpq 0
  else
    let part ← v.1.subspan w.off w.size
    Span.copy ⟨w.addr, w.size⟩ part
    Span.parityRenew v.1 v.2
    let wqd ← Span.create ⟨w.addr, w.size⟩
    let wqp ← v.2.create
    stripeWrite G w.stripe w.off wqd 0 wqp

/-- `new_rpq_completer` when its read has succeeded. -/
def rpqDone (chunk : Nat) (w : SubWrite) : Option (List Sub) := do
  let v ← views G chunk
  let data ← v.1.subspan w.off w.size
  Span.parityTo data v.2 (w.off % v.2.len)
  let wqp ← v.2.create
  stripeWrite G w.stripe w.off ⟨w.addr, w.size⟩ 0 wqp

/-- The completers that set or reset a coherency flag. -/
def writeDone (nr : Nat) (w : SubWrite) : Option Unit := expects (w.stripe < nr)

/-- The loop of `process(wq)` over the stripes. -/
def writeStripes (wq : Span) : Nat → Nat → Nat → Nat → Option (List Blocks.Piece)
  | 0, _, _, _ => none
  | fuel + 1, k, off, wb =>
    if wb < wq.len then do
      let chunk := min (sub (stripeDataSz G) off) (sub wq.len wb)
      let _ ← wq.subquery wb chunk
      let rest ← writeStripes wq fuel (wrap (k + 1)) 0 (wrap (wb + chunk))
      return ⟨k, off, wb, chunk⟩ :: rest
    else some []

/-- `process(wq)`: for how many stripes the locks have to do, and the parts. -/
def split (off : Nat) (wq : Span) : Option (Nat × List Blocks.Piece) := do
  expects (wq.len ≠ 0)
  let extent ← divRoundUp64 (wrap (off + wq.len)) (stripeDataSz G)
  let cut ← writeStripes G wq (wq.len + 1) (off / stripeDataSz G) (off % stripeDataSz G) 0
  return (extent, cut)

/-- `process(rq)`. -/
def read (off : Nat) (rq : Span) : Option (List Sub) := do
  let rq ← rq.subquery 0 rq.len
  dataRead G (off / stripeDataSz G) rq (off % stripeDataSz G)

variable {G} {k off len pos rb chunk nr first wb fuel poff : Nat} {rq wqd wqp : Span}
  {hs : List Nat}

/-- A stripe whose end still has a 64-bit logical address. -/
def Low (G : Geometry) (k : Nat) : Prop := (k + 1) * G.stripeDataSz < 2 ^ 64

theorem stripSz_le : G.stripSz ≤ G.stripeDataSz := by
  have := G.three
  exact Nat.le_mul_of_pos_right _ (by omega)

theorem low_zero (h : Low G k) : G.stripeDataSz < 2 ^ 64 := by
  unfold Low at h
  rw [Nat.add_mul] at h
  omega

theorem stripeDataSz_eq (h : G.stripeDataSz < 2 ^ 64) : stripeDataSz G = G.stripeDataSz := by
  have hn : G.n - 1 ≤ G.stripeDataSz := Nat.le_mul_of_pos_left _ G.stripSz_pos
  have := G.three
  have hpos := G.stripeDataSz_pos
  have hs : sub G.n 1 = G.n - 1 := by
    by_cases hlt : G.n < 2 ^ 64
    · exact sub_of_le (by omega) hlt
    · unfold sub; omega
  rw [stripeDataSz, hs]
  exact wrap_of_lt h

/-- The row of strips of a low stripe. -/
theorem row_lt (h : Low G k) : k * G.stripSz + G.stripSz < 2 ^ 64 := by
  unfold Low at h
  have : (k + 1) * G.stripSz ≤ (k + 1) * G.stripeDataSz := Nat.mul_le_mul_left _ stripSz_le
  rw [Nat.add_mul, Nat.one_mul] at this
  omega

theorem rowOff_eq (h : Low G k) (ho : off < G.stripSz) :
    wrap (wrap (k * G.stripSz) + off) = k * G.stripSz + off := by
  have := row_lt h
  rw [wrap_of_lt (by omega : k * G.stripSz < 2 ^ 64), wrap_of_lt (by omega)]

theorem handlersDataView_eq (h : first + nr < G.n) (hn : G.n < 2 ^ 64) :
    handlersDataView G (G.parityId k) first nr =
      some (G.handlersDataView (G.parityId k) first nr) := by
  rw [handlersDataView, expects_bind (G.parity_lt k),
    expects_bind (by rw [wrap_of_lt (by omega)]; exact h)]
  rfl

/-- The strips asked for hold the chunk, and it takes all of them. -/
structure Filled (G : Geometry) (hs : List Nat) (stripOff chunk : Nat) : Prop where
  within : stripOff < G.stripSz
  enough : stripOff + chunk ≤ hs.length * G.stripSz
  needed : hs ≠ [] → 0 < chunk ∧ (hs.length - 1) * G.stripSz < stripOff + chunk

theorem filled_tail {h : Nat} (hf : Filled G (h :: hs) off len) :
    0 < min (G.stripSz - off) len ∧
      Filled G hs 0 (len - min (G.stripSz - off) len) := by
  obtain ⟨ho, he, hn⟩ := hf
  obtain ⟨hpos, hn⟩ := hn (by simp)
  rw [List.length_cons, Nat.add_mul] at he
  rw [List.length_cons, Nat.add_sub_cancel] at hn
  refine ⟨by omega, G.stripSz_pos, by omega, fun hne => ?_⟩
  obtain ⟨m, hm⟩ : ∃ m, hs.length = m + 1 :=
    Nat.exists_eq_succ_of_ne_zero (by simpa using hne)
  rw [hm, Nat.add_mul] at hn
  rw [hm, Nat.add_sub_cancel]
  omega

theorem readStrips_eq (hk : Low G k) (hf : Filled G hs off len) (hrq : rb + len ≤ rq.len)
    (hlt : rq.len < 2 ^ 64) : readStrips G k rq hs off rb len =
      some (G.strips (k * G.stripSz) hs off rb len, rb + len, 0) := by
  induction hs generalizing off rb len with
  | nil =>
    have := hf.enough
    simp only [List.length_nil, Nat.zero_mul] at this
    obtain rfl : len = 0 := by omega
    rfl
  | cons h hs ih =>
    obtain ⟨hpos, hf'⟩ := filled_tail hf
    have hrow := row_lt hk
    have hsub : sub G.stripSz off = G.stripSz - off := sub_of_le hf.within.le (by omega)
    have hsz : min (G.stripSz - off) len ≤ len := Nat.min_le_right _ _
    rw [readStrips]
    simp only [hsub, rowOff_eq hk hf.within]
    rw [Span.subquery_eq hpos (by omega) hlt, wrap_of_lt (by omega), sub_of_le hsz (by omega)]
    simp only [Option.bind_eq_bind, Option.bind_some]
    rw [ih hf' (by omega)]
    simp only [Option.bind_some, Geometry.strips]
    rw [show rb + min (G.stripSz - off) len + (len - min (G.stripSz - off) len) = rb + len by omega]
    rfl

theorem writeStrips_eq (hk : Low G k) (hf : Filled G hs off (wqd.len - wb)) (hwb : wb ≤ wqd.len)
    (hlt : wqd.len < 2 ^ 64) : writeStrips G k wqd hs off wb =
      some (G.strips (k * G.stripSz) hs off wb (wqd.len - wb), wqd.len) := by
  induction hs generalizing off wb with
  | nil =>
    have := hf.enough
    simp only [List.length_nil, Nat.zero_mul] at this
    obtain rfl : wb = wqd.len := by omega
    rfl
  | cons h hs ih =>
    obtain ⟨hpos, hf'⟩ := filled_tail hf
    have hrow := row_lt hk
    have hsub : sub G.stripSz off = G.stripSz - off := sub_of_le hf.within.le (by omega)
    have hrest : sub wqd.len wb = wqd.len - wb := sub_of_le hwb hlt
    have hsz : min (G.stripSz - off) (wqd.len - wb) ≤ wqd.len - wb := Nat.min_le_right _ _
    rw [writeStrips]
    simp only [hsub, hrest, rowOff_eq hk hf.within]
    rw [Span.subquery_eq hpos (by omega) hlt, wrap_of_lt (by omega)]
    simp only [Option.bind_eq_bind, Option.bind_some]
    rw [Nat.sub_sub] at hf'
    rw [ih hf' (by omega)]
    simp only [Option.bind_some, Geometry.strips, Nat.sub_sub]
    rfl

/-- The strips a range of a stripe lies in. -/
theorem range_eq (hk : Low G k) (hlen : 0 < len) (h : off + len ≤ G.stripeDataSz)
    (hz : off + len + G.stripSz < 2 ^ 64) :
    divRoundUp64 (wrap (off + len)) G.stripSz = some (divRoundUp (off + len) G.stripSz) ∧
      sub (divRoundUp (off + len) G.stripSz) (off / G.stripSz) =
        divRoundUp (off + len) G.stripSz - off / G.stripSz ∧
      handlersDataView G (G.parityId k) (off / G.stripSz)
          (divRoundUp (off + len) G.stripSz - off / G.stripSz) =
        some (G.handlersDataView (G.parityId k) (off / G.stripSz)
          (divRoundUp (off + len) G.stripSz - off / G.stripSz)) ∧
      Filled G (G.handlersDataView (G.parityId k) (off / G.stripSz)
        (divRoundUp (off + len) G.stripSz - off / G.stripSz)) (off % G.stripSz) len := by
  have hzpos := G.stripSz_pos
  have hdiv := Nat.div_add_mod' off G.stripSz
  have hle := Geometry.divRoundUp_le h
  have hge : off + len ≤ divRoundUp (off + len) G.stripSz * G.stripSz :=
    Geometry.le_divRoundUp hzpos
  have hmul : divRoundUp (off + len) G.stripSz * G.stripSz ≤ off + len + G.stripSz - 1 :=
    Nat.div_mul_le_self _ _
  have hfirst : off / G.stripSz < divRoundUp (off + len) G.stripSz := by
    refine Nat.lt_of_mul_lt_mul_right (a := G.stripSz) ?_
    omega
  have hn : G.n < 2 ^ 64 := by
    have : G.n - 1 ≤ G.stripeDataSz := Nat.le_mul_of_pos_left _ hzpos
    have := low_zero hk
    have : 512 ≤ G.stripSz := Nat.le_of_dvd hzpos G.sector
    have : 512 * (G.n - 1) ≤ G.stripeDataSz := Nat.mul_le_mul_right _ this
    omega
  have := G.three
  refine ⟨?_, sub_of_le hfirst.le (by omega), handlersDataView_eq (by omega) hn, ?_⟩
  · rw [wrap_of_lt (by omega), divRoundUp64_eq hzpos hz]
    rfl
  · rw [Geometry.handlersDataView_eq (by omega)]
    refine ⟨Nat.mod_lt _ hzpos, ?_, fun _ => ⟨hlen, ?_⟩⟩
    · rw [List.length_map, List.length_range', Nat.sub_mul]
      omega
    · rw [List.length_map, List.length_range', Nat.sub_mul, Nat.sub_mul, Nat.one_mul]
      omega

/-- The loop of `data_read`, for stripes below `m`. -/
theorem readStripes_eq {m : Nat} (hm : m * G.stripeDataSz < 2 ^ 64)
    (hz : G.stripeDataSz + G.stripSz < 2 ^ 64) (hoff : off < G.stripeDataSz) (hrb : rb ≤ rq.len)
    (hfuel : rq.len - rb ≤ fuel) (hlt : rq.len < 2 ^ 64)
    (hlow : rb < rq.len → k * G.stripeDataSz + off + (rq.len - rb) ≤ m * G.stripeDataSz) :
    readStripes G rq (fuel + 1) k off rb =
      some ((Blocks.pieces G.stripeDataSz rq.len fuel k off rb).flatMap fun p =>
        G.stripSubs p.id p.inner p.pos p.len) := by
  induction fuel generalizing k off rb with
  | zero =>
    rw [readStripes, if_neg (by omega)]
    rfl
  | succ fuel ih =>
    rw [readStripes, Blocks.pieces]
    split
    · rename_i hbusy
      have hlow := hlow hbusy
      have hpos := G.stripeDataSz_pos
      have hkm : k < m := by
        refine Nat.lt_of_mul_lt_mul_right (a := G.stripeDataSz) ?_
        omega
      have hk : Low G k := Nat.lt_of_le_of_lt (Nat.mul_le_mul_right _ hkm) hm
      have hdata := stripeDataSz_eq (low_zero hk)
      have hlen : min (G.stripeDataSz - off) (rq.len - rb) ≤ rq.len - rb := Nat.min_le_right _ _
      have hsub : sub (stripeDataSz G) off = G.stripeDataSz - off := by
        rw [hdata]
        exact sub_of_le hoff.le (low_zero hk)
      rw [hsub, sub_of_le hrb hlt]
      have hstrip : 0 < min (G.stripeDataSz - off) (rq.len - rb) := by omega
      have hend : off + min (G.stripeDataSz - off) (rq.len - rb) ≤ G.stripeDataSz := by omega
      obtain ⟨h₁, h₂, h₃, hf⟩ := range_eq hk hstrip hend (by omega)
      have hwrap : wrap (k + 1) = k + 1 := by
        refine wrap_of_lt (Nat.lt_of_le_of_lt ?_ hk)
        exact Nat.le_mul_of_pos_right _ hpos
      dsimp only
      rw [h₁]
      simp only [Option.bind_eq_bind, Option.bind_some]
      rw [bind_expects (G.parity_lt k), h₂, h₃]
      simp only [Option.bind_some]
      rw [readStrips_eq hk hf (by omega) hlt]
      simp only [Option.bind_some]
      rw [bind_expects trivial, hwrap,
        ih hpos (by omega) (by omega) fun hb => ?_]
      · rfl
      · rw [Nat.add_mul]
        omega
    · rfl

theorem dataRead_eq {m : Nat} (hm : m * G.stripeDataSz < 2 ^ 64)
    (hz : G.stripeDataSz + G.stripSz < 2 ^ 64) (hoff : off < G.stripeDataSz) (hpos : 0 < rq.len)
    (hlow : k * G.stripeDataSz + off + rq.len ≤ m * G.stripeDataSz) :
    dataRead G k rq off = some (G.dataRead k off rq.len) := by
  rw [dataRead, expects_bind (by omega), expects_bind (by rwa [stripeDataSz_eq (by omega)]),
    readStripes_eq hm hz hoff (Nat.zero_le _) (by omega) (by omega) fun _ => by omega]
  rfl

/-- Wherever in the strip a read of parity is, the same is submitted. -/
theorem parityRead_eq (hk : Low G k) (hpos : 0 < rq.len) (h : off + rq.len ≤ G.stripSz) :
    parityRead G k rq off = some (G.parityRead k rq.len) := by
  have hrow := row_lt hk
  have hle : rq.len ≤ G.stripSz := by omega
  rw [parityRead, expects_bind (by omega), wrap_of_lt (by omega),
    expects_bind (by omega), expects_bind (G.parity_lt k), min_eq_right hle,
    Span.subquery_eq hpos (by omega) (by omega), wrap_of_lt (by omega : k * G.stripSz < 2 ^ 64)]
  simp [Geometry.parityRead, min_eq_right hle]

theorem backendWrite_eq (hk : Low G k) (hpos : 0 < wqd.len) (h : off + wqd.len ≤ G.stripeDataSz)
    (hz : G.stripeDataSz + G.stripSz < 2 ^ 64) (hpos' : 0 < wqp.len)
    (h' : poff + wqp.len ≤ G.stripSz) : backendWrite G k off wqd poff wqp =
      some (G.dataWrite k off wqd.len ++ G.parityWrite k poff wqp.len) := by
  have hrow := row_lt hk
  obtain ⟨h₁, h₂, h₃, hf⟩ := range_eq hk hpos h (by omega)
  simp only [Option.bind_eq_bind, backendWrite]
  rw [bind_expects (by omega), bind_expects (by
      rw [stripeDataSz_eq (by omega), wrap_of_lt (by omega)]
      omega), bind_expects (by omega), bind_expects (by
      rw [wrap_of_lt (by omega)]
      omega), h₁]
  simp only [Option.bind_some]
  rw [bind_expects (G.parity_lt k), h₂, h₃]
  simp only [Option.bind_some]
  rw [writeStrips_eq hk hf (Nat.zero_le _) (by omega)]
  simp only [Option.bind_some]
  rw [bind_expects (by omega), Span.subquery_eq (by omega) (by omega) (by omega),
    rowOff_eq hk (by omega)]
  rfl

theorem stripeWrite_eq (hk : Low G k) (hpos : 0 < wqd.len) (h : off + wqd.len ≤ G.stripeDataSz)
    (hz : G.stripeDataSz + G.stripSz < 2 ^ 64) (hp : wqp.len = G.stripSz) :
    stripeWrite G k off wqd 0 wqp =
      some (G.dataWrite k off wqd.len ++ G.parityWrite k 0 G.stripSz) := by
  have hzpos := G.stripSz_pos
  rw [stripeWrite, Span.create_eq (by omega), Span.create_eq (by omega)]
  simp only [Option.bind_eq_bind, Option.bind_some]
  rw [backendWrite_eq hk hpos h hz (by omega) (by omega), hp]

/-- The pools could be made: a stripe with its parity is not empty in 64 bits. -/
def Built (G : Geometry) : Prop := stripeSz G ≠ 0

theorem stripeSz_eq (hb : Built G) (h : G.stripeDataSz < 2 ^ 64) :
    G.stripeDataSz + G.stripSz < 2 ^ 64 ∧ stripeSz G = G.stripeDataSz + G.stripSz := by
  obtain ⟨e, he⟩ := G.pow2
  have hthree := G.three
  have hsum : G.stripeDataSz + G.stripSz = 2 ^ e * G.n := by
    rw [Geometry.stripeDataSz, he, ← Nat.mul_succ]
    congr 1
    omega
  -- the size of the data is below `2 ^ 64`, and both are multiples of a power of two
  have hle : G.stripeDataSz + G.stripSz ≤ 2 ^ 64 := by
    rw [Geometry.stripeDataSz, he] at h
    have hexp : e < 64 := by
      refine (Nat.pow_lt_pow_iff_right Nat.one_lt_two).mp (Nat.lt_of_le_of_lt ?_ h)
      exact Nat.le_mul_of_pos_right _ (by omega)
    have hpow : 2 ^ 64 = 2 ^ e * 2 ^ (64 - e) := by
      rw [← Nat.pow_add]
      congr 1
      omega
    rw [hpow] at h ⊢
    have := Nat.lt_of_mul_lt_mul_left h
    rw [hsum]
    exact Nat.mul_le_mul_left _ (by omega)
  have hne : G.stripeDataSz + G.stripSz ≠ 2 ^ 64 := fun hw => by
    rw [Built, stripeSz, stripeDataSz_eq h, hw] at hb
    exact hb rfl
  have hlt : G.stripeDataSz + G.stripSz < 2 ^ 64 := by omega
  refine ⟨hlt, ?_⟩
  rw [stripeSz, stripeDataSz_eq h, wrap_of_lt hlt]

/-- What a sub-write of an aligned request meets. -/
structure Admissible (G : Geometry) (w : SubWrite) : Prop where
  pos : 0 < w.size
  fits : w.off + w.size ≤ G.stripeDataSz
  low : Low G w.stripe
  off : 8 ∣ w.off
  size : 8 ∣ w.size
  addr : 8 ∣ w.addr

variable {w : SubWrite} {c : Bool}

theorem views_eq (hw : Admissible G w) (hb : Built G) : views G chunk =
    some (⟨chunk, G.stripeDataSz⟩, ⟨chunk + G.stripeDataSz, G.stripSz⟩) := by
  have hdata := low_zero hw.low
  obtain ⟨hlt, hsz⟩ := stripeSz_eq hb hdata
  rw [views, hsz, stripeDataSz_eq hdata, Span.subspan_eq (by simp)]
  simp only [Option.bind_eq_bind, Option.bind_some, Nat.add_zero]
  rw [sub_of_le (by omega) hlt, Span.subspan_eq (by simp), Nat.add_sub_cancel_left]
  rfl

theorem words_of_chunk (hc : 8 ∣ chunk) :
    Span.Word ⟨chunk, G.stripeDataSz⟩ ∧ Span.Word ⟨chunk, G.stripSz⟩ ∧
      Span.Word ⟨chunk + G.stripeDataSz, G.stripSz⟩ := by
  have hz : 8 ∣ G.stripSz := Nat.dvd_trans (by decide) G.sector
  have hd : 8 ∣ G.stripeDataSz := Nat.dvd_mul_right_of_dvd hz _
  exact ⟨⟨hc, hd⟩, ⟨hc, hz⟩, ⟨Nat.dvd_add hc hd, hz⟩⟩

theorem process_eq (hw : Admissible G w) (hb : Built G) (hc : 8 ∣ chunk) (hnr : w.stripe < nr) :
    process G nr chunk c w = some (firstSubs G w c) := by
  have hdata := low_zero hw.low
  obtain ⟨hlt, -⟩ := stripeSz_eq hb hdata
  have hpos := hw.pos
  have hfits := hw.fits
  have hlow := hw.low
  have hzero := G.stripeDataSz_pos
  rw [process, expects_bind (by omega), expects_bind (by
    rw [stripeDataSz_eq hdata, wrap_of_lt (by omega)]
    omega), stripeDataSz_eq hdata, firstSubs]
  split
  · rw [views_eq hw hb]
    simp only [Option.bind_eq_bind, Option.bind_some]
    rw [bind_expects hnr]
    cases c with
    | true =>
      simp only [if_true]
      rw [Span.subspan_eq hfits]
      simp only [Option.bind_some]
      rw [Span.create_eq (by dsimp only; omega)]
      simp only [Option.bind_some]
      refine dataRead_eq hlow hlt (by omega) hpos ?_
      rw [Nat.add_mul]
      dsimp only
      omega
    | false =>
      simp only [Bool.false_eq_true, if_false]
      rw [Span.create_eq (by dsimp only; omega)]
      simp only [Option.bind_some]
      refine dataRead_eq hlow hlt hzero hzero ?_
      rw [Nat.add_mul]
      dsimp only
      omega
  · obtain ⟨-, hparity, -⟩ := words_of_chunk (G := G) hc
    have hbuf : Span.Word ⟨w.addr, w.size⟩ := ⟨hw.addr, hw.size⟩
    rw [stripeDataWrite, expects_bind (by omega), expects_bind (by omega),
      expects_bind (by rw [stripeDataSz_eq hdata]; omega)]
    dsimp only
    rw [Span.parityRenew_eq hbuf hparity]
    simp only [Option.bind_eq_bind, Option.bind_some]
    rw [Span.create_eq (ne_of_gt G.stripSz_pos)]
    exact stripeWrite_eq hlow hpos hfits hlt rfl

theorem rqdDone_eq (hw : Admissible G w) (hb : Built G) (hc : 8 ∣ chunk) :
    rqdDone G chunk w = some (if w.coherent then G.parityRead w.stripe G.stripSz
      else G.dataWrite w.stripe w.off w.size ++ G.parityWrite w.stripe 0 G.stripSz) := by
  obtain ⟨hlt, -⟩ := stripeSz_eq hb (low_zero hw.low)
  have hpos := hw.pos
  have hfits := hw.fits
  have hz := G.stripSz_pos
  rw [rqdDone, views_eq hw hb]
  simp only [Option.bind_eq_bind, Option.bind_some]
  split
  · rw [Span.create_eq (ne_of_gt hz)]
    exact parityRead_eq hw.low hz (by dsimp only; omega)
  · obtain ⟨hstripe, -, hparity⟩ := words_of_chunk (G := G) hc
    rw [Span.subspan_eq hfits]
    simp only [Option.bind_some]
    rw [Span.copy_eq (Nat.le_refl w.size)]
    simp only [Option.bind_some]
    rw [Span.parityRenew_eq hstripe hparity]
    simp only [Option.bind_some]
    rw [Span.create_eq (ne_of_gt hpos), Span.create_eq (ne_of_gt hz)]
    exact stripeWrite_eq hw.low hpos hfits hlt rfl

theorem rpqDone_eq (hw : Admissible G w) (hb : Built G) (hc : 8 ∣ chunk) :
    rpqDone G chunk w =
      some (G.dataWrite w.stripe w.off w.size ++ G.parityWrite w.stripe 0 G.stripSz) := by
  obtain ⟨hlt, -⟩ := stripeSz_eq hb (low_zero hw.low)
  obtain ⟨-, -, hparity⟩ := words_of_chunk (G := G) hc
  have hz : 8 ∣ G.stripSz := Nat.dvd_trans (by decide) G.sector
  rw [rpqDone, views_eq hw hb]
  simp only [Option.bind_eq_bind, Option.bind_some]
  rw [Span.subspan_eq hw.fits]
  simp only [Option.bind_some]
  rw [Span.parityTo_eq ((Nat.dvd_mod_iff hz).mpr hw.off) ⟨Nat.dvd_add hc hw.off, hw.size⟩ hparity]
  simp only [Option.bind_some]
  rw [Span.create_eq (ne_of_gt G.stripSz_pos)]
  exact stripeWrite_eq hw.low hw.pos hw.fits hlt rfl

/-- A sector-aligned range that leaves room for a stripe behind it. -/
structure Aligned (G : Geometry) (off size : Nat) : Prop where
  pos : 0 < size
  sectorOff : 512 ∣ off
  sectorSize : 512 ∣ size
  room : off + size + G.stripeDataSz < 2 ^ 64

theorem writeStripes_eq {wq : Span} (hd : G.stripeDataSz < 2 ^ 64) (hlt : wq.len < 2 ^ 64)
    (hoff : off < G.stripeDataSz) (hwb : wb ≤ wq.len) (hfuel : wq.len - wb ≤ fuel)
    (hk : wb < wq.len → k + (wq.len - wb) < 2 ^ 64) :
    writeStripes G wq (fuel + 1) k off wb =
      some (Blocks.pieces G.stripeDataSz wq.len fuel k off wb) := by
  induction fuel generalizing k off wb with
  | zero =>
    rw [writeStripes, if_neg (by omega)]
    rfl
  | succ fuel ih =>
    rw [writeStripes, Blocks.pieces]
    split
    · rename_i hbusy
      have hk := hk hbusy
      have hlen : min (G.stripeDataSz - off) (wq.len - wb) ≤ wq.len - wb := Nat.min_le_right _ _
      rw [stripeDataSz_eq hd, sub_of_le hoff.le hd, sub_of_le hwb hlt]
      dsimp only
      rw [Span.subquery_eq (by omega) (by omega) hlt]
      simp only [Option.bind_eq_bind, Option.bind_some]
      rw [wrap_of_lt (by omega : k + 1 < 2 ^ 64), wrap_of_lt (by omega),
        ih G.stripeDataSz_pos (by omega) (by omega) fun _ => by omega]
      rfl
    · rfl

theorem split_eq {wq : Span} (h : Aligned G off wq.len) : split G off wq =
    some (divRoundUp (off + wq.len) G.stripeDataSz, Blocks.cut G.stripeDataSz off wq.len) := by
  have hroom := h.room
  have hpos := h.pos
  have hd : G.stripeDataSz < 2 ^ 64 := by omega
  have hdiv : off / G.stripeDataSz ≤ off := Nat.div_le_self _ _
  rw [split, expects_bind (by omega), wrap_of_lt (by omega), stripeDataSz_eq hd,
    divRoundUp64_eq G.stripeDataSz_pos hroom]
  simp only [Option.bind_eq_bind, Option.bind_some]
  rw [writeStripes_eq hd (by omega) (Nat.mod_lt _ G.stripeDataSz_pos) (Nat.zero_le _) (by omega)
    fun _ => by omega]
  rfl

theorem read_eq {rq : Span} (hb : Built G) (h : Aligned G off rq.len) : read G off rq =
    some (G.dataRead (off / G.stripeDataSz) (off % G.stripeDataSz) rq.len) := by
  have hroom := h.room
  have hzero := G.stripeDataSz_pos
  have hd : G.stripeDataSz < 2 ^ 64 := by omega
  have hdiv := Nat.div_add_mod' off G.stripeDataSz
  have hm : divRoundUp (off + rq.len) G.stripeDataSz * G.stripeDataSz ≤
      off + rq.len + G.stripeDataSz - 1 := Nat.div_mul_le_self _ _
  have hge : off + rq.len ≤ divRoundUp (off + rq.len) G.stripeDataSz * G.stripeDataSz :=
    Geometry.le_divRoundUp hzero
  rw [read, Span.subquery_eq h.pos (by omega) (by omega), stripeDataSz_eq hd]
  exact dataRead_eq (m := divRoundUp (off + rq.len) G.stripeDataSz) (by omega)
    (stripeSz_eq hb hd).1 (Nat.mod_lt _ hzero) h.pos (by dsimp only; omega)

/-- The parts of an aligned write. -/
theorem admissible_of_mem {r : WriteReq} {i : Nat} {p : Blocks.Piece} (h : Aligned G r.off r.size)
    (ha : 8 ∣ r.addr) (hp : p ∈ Blocks.cut G.stripeDataSz r.off r.size)
    (hw : w.toSlice = r.slice i p) : Admissible G w := by
  have hsector : 512 ∣ G.stripeDataSz := Nat.dvd_mul_right_of_dvd G.sector _
  obtain ⟨he, hsize, hfits, hpos⟩ := Blocks.mem_cut G.stripeDataSz_pos hp
  obtain ⟨hinner, hat, hlen⟩ := Blocks.dvd_of_mem_cut hsector h.sectorOff h.sectorSize hp
  have hroom := h.room
  have h8 : 8 ∣ 512 := by decide
  constructor <;> rw [hw]
  · exact hpos
  · exact hfits
  · change (p.id + 1) * G.stripeDataSz < 2 ^ 64
    rw [Nat.add_mul]
    omega
  · exact Nat.dvd_trans h8 hinner
  · exact Nat.dvd_trans h8 hlen
  · exact Nat.dvd_add ha (Nat.dvd_trans h8 hat)

end Checked

end Ublk.Raidsp
