import Ublk.Raidsp.Flat

/-!
Parity written to one part of a strip and read from another. `stripe_write` takes its query's
offset into account, `parity_read` reads from the start of the strip whatever the offset is.
-/
namespace Ublk.Raidsp

open Shared Serial

/-- A part of `limit` bytes that passes the checks of a query. -/
structure Extent (limit : Nat) where
  off : Nat
  size : Nat
  pos : 0 < size
  fits : off + size ≤ limit

/-- Queries in flight over the same devices. -/
structure Flight where
  disk : Disk
  query : Role → Query

namespace Flight

def initial (dev : Addr → Byte) : Flight := ⟨⟨dev, 0⟩, fun _ => .read fun _ => 0⟩

def submit (E : Env) (r : Role) (q : Query) (ss : List Sub) (x : Flight) : Int × Flight :=
  let s := q.submitAll E ss x.disk
  (s.1, ⟨s.2.2, Function.update x.query r s.2.1⟩)

/-- Some bytes of a subquery take effect, or one completes. -/
def act : Act → Flight → Option Flight
  | .effect r k hit, x => ((x.query r).effect k hit x.disk.dev).map fun q =>
      ⟨{ x.disk with dev := q.2 }, Function.update x.query r q.1⟩
  | .settle r k e, x => ((x.query r).settle k e).map fun q =>
      ⟨x.disk, Function.update x.query r q⟩

def run : List Act → Flight → Option Flight
  | [], x => some x
  | a :: as, x => (x.act a).bind (run as)

/-- Nothing of the query is in flight any more, and nothing went wrong. -/
def Done (r : Role) (x : Flight) : Prop := (x.query r).ops = [] ∧ (x.query r).Clean

variable (G : Geometry) (E : Env)

/-- The parity part of `backend::stripe_write`. -/
def stripeParity (k : Nat) (wp : Extent G.stripSz) (parity : Nat → Byte) (x : Flight) :
    Int × Flight :=
  x.submit E .wqp (.writing parity) (G.parityWrite k wp.off wp.size)

/-- `backend::stripe_write`. -/
def stripeWrite (k : Nat) (wd : Extent G.stripeDataSz) (data : Nat → Byte) (wp : Extent G.stripSz)
    (parity : Nat → Byte) (x : Flight) : Int × Flight :=
  let r := x.submit E .wqd (.writing data) (G.dataWrite k wd.off wd.size)
  if r.1 = 0 then r.2.stripeParity G E k wp parity else r

/-- `backend::parity_read`. -/
def parityRead (k : Nat) (rd : Extent G.stripSz) (buf : Nat → Byte) (x : Flight) : Int × Flight :=
  x.submit E .rpq (.read buf) (G.parityRead k rd.size)

end Flight

open Flight

/-- What a byte of the parity strip of stripe `k` is once `parity` has been written. -/
def placed (G : Geometry) (dev : Addr → Byte) (k : Nat) (wp : Extent G.stripSz)
    (parity : Nat → Byte) : Nat → Byte :=
  overlay (fun j => dev (G.parityLoc k j)) wp.off wp.size parity

/-- A stripe write, and a read of the parity after it: `as` is what the devices do until the parity
has been written, `as'` what they do until it has been read. -/
structure Trip (G : Geometry) (E : Env) (k : Nat) (wd : Extent G.stripeDataSz)
    (wp rd : Extent G.stripSz) (dev : Addr → Byte) (data parity buf : Nat → Byte)
    (as as' : List Act) (y z : Flight) : Prop where
  accepted : ((initial dev).stripeWrite G E k wd data wp parity).1 = 0
  writes : ((initial dev).stripeWrite G E k wd data wp parity).2.run as = some y
  written : y.Done .wqp
  reads : (y.parityRead G E k rd buf).2.run as' = some z
  read : z.Done .rpq

/-- Parity is read where it was written, and writing it touches no data. -/
structure Placement (G : Geometry) (k : Nat) (wd : Extent G.stripeDataSz)
    (wp rd : Extent G.stripSz) : Prop where
  agrees : ∀ E dev data parity buf as as' y z,
    Trip G E k wd wp rd dev data parity buf as as' y z →
      ∀ i < rd.size, (z.query .rpq).buf i = placed G dev k wp parity (rd.off + i)
  /-- The submit of the parity part. -/
  apart : ∀ E (x : Flight) parity k' i,
    (x.stripeParity G E k wp parity).2.disk.dev (G.loc k' i) = x.disk.dev (G.loc k' i)
  /-- What it does later. -/
  apart_act : ∀ E dev data parity as x j hit x',
    ((initial dev).stripeWrite G E k wd data wp parity).2.run as = some x →
      x.act (.effect .wqp j hit) = some x' →
        ∀ k' i, x'.disk.dev (G.loc k' i) = x.disk.dev (G.loc k' i)

variable {G : Geometry} {E : Env} {k k' i j : Nat} {wd : Extent G.stripeDataSz}
  {wp rd : Extent G.stripSz} {dev : Addr → Byte} {data parity buf strip : Nat → Byte}
  {as as' : List Act} {a : Act} {x x' y z : Flight} {r : Role} {hit : Nat → Bool} {e : Int}

theorem parityLoc_ne_loc (hj : j < G.stripSz) : G.parityLoc k j ≠ G.loc k' i := by
  intro h
  by_cases hk : k' = k
  · subst hk
    exact loc_ne_parityLoc i j h.symm
  · have hrow := congrArg (fun a : Addr => a.2 / G.stripSz) h
    rw [Geometry.row_parityLoc hj, Geometry.row_loc] at hrow
    exact hk hrow.symm

/-- All that a step of a flight does to the query it is about, and to the devices. -/
structure Moved (q : Query) (dev : Addr → Byte) (q' : Query) (dev' : Addr → Byte) : Prop where
  busy : q.ops ≠ []
  write : q'.write = q.write
  buf : q.write = true → q'.buf = q.buf
  follows : ∀ {loc size R}, Set.InjOn loc (Set.Iio size) → q.Follows loc size R dev →
    q'.Follows loc size R dev'
  elsewhere : ∀ {loc size R a}, q.Follows loc size R dev → (∀ p < size, loc p ≠ a) →
    dev' a = dev a
  still : q.write = false → dev' = dev

theorem act_cases (h : x.act a = some x') : ∃ r, (∀ r', r' ≠ r → x'.query r' = x.query r') ∧
    Moved (x.query r) x.disk.dev (x'.query r) x'.disk.dev := by
  cases a with
  | effect r k hit =>
    obtain ⟨⟨q', dev'⟩, he, rfl⟩ := Option.map_eq_some_iff.mp h
    obtain ⟨hwrite, -, -, -, -, hbuf⟩ := Query.effect_keeps he
    refine ⟨r, fun r' hne => Function.update_of_ne hne _ _, ?_⟩
    simp only [Function.update_self]
    refine ⟨fun hn => ?_, hwrite, hbuf, fun hinj hf => Query.follows_effect hf hinj he,
      fun hf ha => Query.effect_elsewhere hf he ha, fun hw => Query.dev_effect_of_read hw he⟩
    obtain ⟨op, hop, -⟩ := Query.effect_eq he
    rw [hn] at hop
    cases hop
  | settle r k e =>
    obtain ⟨q', he, rfl⟩ := Option.map_eq_some_iff.mp h
    obtain ⟨hbusy, hwrite, -, hbuf, -⟩ := Query.settle_keeps he
    refine ⟨r, fun r' hne => Function.update_of_ne hne _ _, ?_⟩
    simp only [Function.update_self]
    exact ⟨hbusy, hwrite, fun _ => hbuf, fun _ hf => Query.follows_settle hf he, fun _ _ => rfl,
      fun _ => rfl⟩

theorem idle_run (h : (x.query r).ops = []) (hr : x.run as = some y) : (y.query r).ops = [] := by
  induction as generalizing x with
  | nil => exact Option.some.inj hr ▸ h
  | cons a as ih =>
    obtain ⟨x', ha, hr⟩ := Option.bind_eq_some_iff.mp hr
    obtain ⟨r', hsame, hm⟩ := act_cases ha
    have hne : r ≠ r' := by
      rintro rfl
      exact hm.busy h
    exact ih ((hsame r hne).symm ▸ h) hr

/-- While data and parity are being written. -/
structure Writing (G : Geometry) (k : Nat) (wd : Extent G.stripeDataSz) (wp : Extent G.stripSz)
    (dev : Addr → Byte) (parity : Nat → Byte) (x : Flight) : Prop where
  wqd : (x.query .wqd).Follows (fun p => G.loc k (wd.off + p)) wd.size (fun _ => False) x.disk.dev
  wqp : (x.query .wqp).Follows (fun p => G.parityLoc k (wp.off + p)) wp.size (fun _ => True)
    x.disk.dev
  write : (x.query .wqp).write = true
  buf : (x.query .wqp).buf = parity
  outside : ∀ j, ¬ (wp.off ≤ j ∧ j < wp.off + wp.size) →
    x.disk.dev (G.parityLoc k j) = dev (G.parityLoc k j)
  idle : (x.query .rqd).ops = [] ∧ (x.query .rpq).ops = []

/-- While the parity is being read. Data may still be written. -/
structure Reading (G : Geometry) (k : Nat) (wd : Extent G.stripeDataSz) (rd : Extent G.stripSz)
    (strip : Nat → Byte) (x : Flight) : Prop where
  wqd : (x.query .wqd).Follows (fun p => G.loc k (wd.off + p)) wd.size (fun _ => False) x.disk.dev
  rpq : (x.query .rpq).Follows (G.parityLoc k) rd.size (fun _ => True) x.disk.dev
  write : (x.query .rpq).write = false
  strip : ∀ j, x.disk.dev (G.parityLoc k j) = strip j
  idle : (x.query .rqd).ops = [] ∧ (x.query .wqp).ops = []

theorem parityPart_injOn {off : Nat} (s : Set Nat) :
    Set.InjOn (fun p => G.parityLoc k (off + p)) s := by
  intro a _ b _ h
  have hj := (Prod.mk.inj h).2
  omega

theorem dataPart_injOn {off : Nat} (s : Set Nat) : Set.InjOn (fun p => G.loc k (off + p)) s :=
  loc_injOn (fun p => off + p) (fun _ _ h => Nat.add_left_cancel h) s

theorem writing_act (h : Writing G k wd wp dev parity x) (ha : x.act a = some x') :
    Writing G k wd wp dev parity x' := by
  obtain ⟨hwqd, hwqp, hwrite, hbuf, hout, hidle⟩ := h
  obtain ⟨r, hsame, hm⟩ := act_cases ha
  cases r with
  | rqd => exact absurd hidle.1 hm.busy
  | rpq => exact absurd hidle.2 hm.busy
  | wqd =>
    -- no byte of the parity strip is one of the data
    have hdev : ∀ j, x'.disk.dev (G.parityLoc k j) = x.disk.dev (G.parityLoc k j) :=
      fun j => hm.elsewhere hwqd fun p _ => loc_ne_parityLoc _ j
    rw [← hsame .wqp (by decide)] at hwqp hwrite hbuf
    rw [← hsame .rqd (by decide), ← hsame .rpq (by decide)] at hidle
    exact ⟨hm.follows (dataPart_injOn _) hwqd, Query.follows_elsewhere hwqp fun p _ => hdev _,
      hwrite, hbuf, fun j hj => (hdev j).trans (hout j hj), hidle⟩
  | wqp =>
    rw [← hsame .wqd (by decide)] at hwqd
    rw [← hsame .rqd (by decide), ← hsame .rpq (by decide)] at hidle
    refine ⟨?_, hm.follows (parityPart_injOn _) hwqp, hm.write.trans hwrite,
      (hm.buf hwrite).trans hbuf, fun j hj => ?_, hidle⟩
    · refine Query.follows_elsewhere hwqd fun p _ => hm.elsewhere hwqp fun p' _ => ?_
      exact (loc_ne_parityLoc _ _).symm
    · refine (hm.elsewhere hwqp fun p hp he => hj ?_).trans (hout j hj)
      have hpj : wp.off + p = j := by simpa [Geometry.parityLoc] using he
      omega

theorem reading_act (h : Reading G k wd rd strip x) (ha : x.act a = some x') :
    Reading G k wd rd strip x' := by
  obtain ⟨hwqd, hrpq, hwrite, hstrip, hidle⟩ := h
  obtain ⟨r, hsame, hm⟩ := act_cases ha
  cases r with
  | rqd => exact absurd hidle.1 hm.busy
  | wqp => exact absurd hidle.2 hm.busy
  | wqd =>
    have hdev : ∀ j, x'.disk.dev (G.parityLoc k j) = x.disk.dev (G.parityLoc k j) :=
      fun j => hm.elsewhere hwqd fun p _ => loc_ne_parityLoc _ j
    rw [← hsame .rpq (by decide)] at hrpq hwrite
    rw [← hsame .rqd (by decide), ← hsame .wqp (by decide)] at hidle
    exact ⟨hm.follows (dataPart_injOn _) hwqd, Query.follows_elsewhere hrpq fun p _ => hdev p,
      hwrite, fun j => (hdev j).trans (hstrip j), hidle⟩
  | rpq =>
    have hdev := hm.still hwrite
    rw [← hsame .wqd (by decide), ← hdev] at hwqd
    rw [← hsame .rqd (by decide), ← hsame .wqp (by decide)] at hidle
    exact ⟨hwqd, hm.follows (parityLoc_injOn _) hrpq, hm.write.trans hwrite,
      fun j => hdev ▸ hstrip j, hidle⟩

theorem writing_run (h : Writing G k wd wp dev parity x) (hr : x.run as = some y) :
    Writing G k wd wp dev parity y := by
  induction as generalizing x with
  | nil => exact Option.some.inj hr ▸ h
  | cons a as ih =>
    obtain ⟨x', ha, hr⟩ := Option.bind_eq_some_iff.mp hr
    exact ih (writing_act h ha) hr

theorem reading_run (h : Reading G k wd rd strip x) (hr : x.run as = some y) :
    Reading G k wd rd strip y := by
  induction as generalizing x with
  | nil => exact Option.some.inj hr ▸ h
  | cons a as ih =>
    obtain ⟨x', ha, hr⟩ := Option.bind_eq_some_iff.mp hr
    exact ih (reading_act h ha) hr

theorem query_submit_self {q : Query} {ss : List Sub} :
    (x.submit E r q ss).2.query r = (q.submitAll E ss x.disk).2.1 := Function.update_self ..

theorem query_submit_of_ne {q : Query} {ss : List Sub} {r' : Role} (h : r' ≠ r) :
    (x.submit E r q ss).2.query r' = x.query r' := Function.update_of_ne h ..

theorem parityWrite_elsewhere {addr : Addr} (ha : ∀ p < wp.size, G.parityLoc k (wp.off + p) ≠ addr) :
    (x.stripeParity G E k wp parity).2.disk.dev addr = x.disk.dev addr :=
  Query.submitAll_elsewhere (fun _ hs => Geometry.parityWrite_fits_from hs) ha

/-- The parity part of a write, submitted after the data part. -/
theorem writing_stripeParity
    (hwqd : (x.query .wqd).Follows (fun p => G.loc k (wd.off + p)) wd.size (fun _ => False)
      x.disk.dev)
    (hdev : ∀ j, x.disk.dev (G.parityLoc k j) = dev (G.parityLoc k j))
    (hidle : (x.query .rqd).ops = [] ∧ (x.query .rpq).ops = []) :
    Writing G k wd wp dev parity (x.stripeParity G E k wp parity).2 := by
  have hfits : ∀ s ∈ G.parityWrite k wp.off wp.size,
      s.Fits (fun p => G.parityLoc k (wp.off + p)) wp.size :=
    fun s hs => Geometry.parityWrite_fits_from hs
  have hquery : (x.stripeParity G E k wp parity).2.query .wqp =
      ((Query.writing parity).submitAll E (G.parityWrite k wp.off wp.size) x.disk).2.1 :=
    query_submit_self
  have hsame : ∀ r, r ≠ .wqp → (x.stripeParity G E k wp parity).2.query r = x.query r :=
    fun r hr => query_submit_of_ne hr
  refine ⟨?_, ?_, ?_, ?_, fun j hj => ?_, ?_⟩
  · rw [hsame .wqd (by decide)]
    refine Query.follows_elsewhere hwqd fun p _ => parityWrite_elsewhere fun p' _ => ?_
    exact (loc_ne_parityLoc _ _).symm
  · rw [hquery]
    exact Query.follows_submitAll (Query.follows_writing parity) hfits (parityPart_injOn _)
      fun _ p hp _ => .inr (Geometry.parityWrite_cover hp)
  · rw [hquery, Query.write_submitAll]
    rfl
  · rw [hquery]
    exact Query.buf_submitAll_of_write rfl
  · refine (parityWrite_elsewhere fun p hp he => hj ?_).trans (hdev j)
    have hpj : wp.off + p = j := by simpa [Geometry.parityLoc] using he
    omega
  · rw [hsame .rqd (by decide), hsame .rpq (by decide)]
    exact hidle

/-- The data part of a write that is accepted is. -/
theorem data_of_accepted (h : ((initial dev).stripeWrite G E k wd data wp parity).1 = 0) :
    ((initial dev).submit E .wqd (.writing data) (G.dataWrite k wd.off wd.size)).1 = 0 := by
  by_contra hne
  rw [stripeWrite, if_neg hne] at h
  exact hne h

/-- What a stripe write starts from, if its data part is accepted. -/
theorem writing_stripeWrite
    (hsub : ((initial dev).submit E .wqd (.writing data) (G.dataWrite k wd.off wd.size)).1 = 0) :
    Writing G k wd wp dev parity ((initial dev).stripeWrite G E k wd data wp parity).2 := by
  have hfits : ∀ s ∈ G.dataWrite k wd.off wd.size, s.Fits (fun p => G.loc k (wd.off + p)) wd.size :=
    fun s hs => Geometry.dataWrite_fits wd.fits hs
  have hsame : ∀ r, r ≠ .wqd → ((initial dev).submit E .wqd (.writing data)
      (G.dataWrite k wd.off wd.size)).2.query r = (initial dev).query r :=
    fun r hr => query_submit_of_ne hr
  rw [stripeWrite, if_pos hsub]
  refine writing_stripeParity ?_ (fun j => ?_) ?_
  · rw [query_submit_self]
    exact Query.follows_submitAll (Query.follows_writing data) hfits (dataPart_injOn _)
      fun _ _ _ hf => hf.elim
  · exact Query.submitAll_elsewhere hfits fun p _ => loc_ne_parityLoc _ j
  · rw [hsame .rqd (by decide), hsame .rpq (by decide)]
    exact ⟨rfl, rfl⟩

/-- The strip once the parity has been written. -/
theorem strip_of_written (h : Writing G k wd wp dev parity x) (hw : x.Done .wqp) (j : Nat) :
    x.disk.dev (G.parityLoc k j) = placed G dev k wp parity j := by
  rw [placed, overlay]
  by_cases hj : wp.off ≤ j ∧ j < wp.off + wp.size
  · rw [if_pos hj]
    have hbyte := Query.agrees_of_ended h.wqp hw.2 hw.1 (by omega : j - wp.off < wp.size) trivial
    rw [h.buf, Nat.add_sub_cancel' hj.1] at hbyte
    exact hbyte.symm
  · rw [if_neg hj]
    exact h.outside j hj

/-- What a read of the parity starts from. -/
theorem reading_parityRead (h : Writing G k wd wp dev parity y) (hw : y.Done .wqp) :
    Reading G k wd rd (placed G dev k wp parity) (y.parityRead G E k rd buf).2 := by
  have hle : rd.size ≤ G.stripSz := by have := rd.fits; omega
  have hdev : (y.parityRead G E k rd buf).2.disk.dev = y.disk.dev :=
    Query.dev_submitAll_of_read rfl
  have hquery : (y.parityRead G E k rd buf).2.query .rpq =
      ((Query.read buf).submitAll E (G.parityRead k rd.size) y.disk).2.1 := query_submit_self
  have hsame : ∀ r, r ≠ .rpq → (y.parityRead G E k rd buf).2.query r = y.query r :=
    fun r hr => query_submit_of_ne hr
  refine ⟨?_, ?_, ?_, fun j => ?_, ?_⟩
  · rw [hsame .wqd (by decide), hdev]
    exact h.wqd
  · rw [hquery]
    exact Query.follows_submitAll (Query.follows_read buf)
      (fun _ hs => Geometry.parityRead_fits hle hs) (parityLoc_injOn _)
      fun _ p hp _ => .inr (Geometry.parityRead_cover hle hp)
  · rw [hquery, Query.write_submitAll]
    rfl
  · rw [hdev]
    exact strip_of_written h hw j
  · rw [hsame .rqd (by decide), hsame .wqp (by decide)]
    exact ⟨h.idle.1, hw.1⟩

/-- What is read is the front of the strip. -/
theorem buf_of_trip (h : Trip G E k wd wp rd dev data parity buf as as' y z) (hi : i < rd.size) :
    (z.query .rpq).buf i = placed G dev k wp parity i := by
  have hy := writing_run (writing_stripeWrite (data_of_accepted h.accepted)) h.writes
  have hz : Reading G k wd rd (placed G dev k wp parity) z :=
    reading_run (reading_parityRead hy h.written) h.reads
  exact (Query.agrees_of_ended hz.rpq h.read.2 h.read.1 hi trivial).trans (hz.strip i)

/-- A read is of the bytes asked for where the strip repeats itself. -/
theorem agrees_iff (h : Trip G E k wd wp rd dev data parity buf as as' y z) :
    (∀ i < rd.size, (z.query .rpq).buf i = placed G dev k wp parity (rd.off + i)) ↔
      ∀ i < rd.size, placed G dev k wp parity i = placed G dev k wp parity (rd.off + i) :=
  forall₂_congr fun _ hi => by rw [buf_of_trip h hi]

/-- Devices that carry out a subquery as it is submitted. -/
theorem exists_trip (hE : Immediate E) : ∃ y z, Trip G E k wd wp rd dev data parity buf [] [] y z := by
  have hsub : ∀ (x : Flight) r (q : Query) ss, q.Clean → q.ops = [] →
      (x.submit E r q ss).1 = 0 ∧ (x.submit E r q ss).2.Done r := by
    intro x r q ss hc hops
    obtain ⟨hret, hclean⟩ := @Query.clean_submitAll E q ss x.disk
      (succeeds_of_immediate hE q.write) hc
    refine ⟨hret, ?_, ?_⟩
    · rw [query_submit_self, ops_submitAll hE]
      exact hops
    · rw [query_submit_self]
      exact hclean
  obtain ⟨hdata, -⟩ := hsub (initial dev) .wqd (.writing data) (G.dataWrite k wd.off wd.size)
    ⟨rfl, rfl⟩ rfl
  obtain ⟨hpar, hdone⟩ := hsub
    ((initial dev).submit E .wqd (.writing data) (G.dataWrite k wd.off wd.size)).2 .wqp
    (.writing parity) (G.parityWrite k wp.off wp.size) ⟨rfl, rfl⟩ rfl
  have hwrite : (initial dev).stripeWrite G E k wd data wp parity = stripeParity G E k wp parity
      ((initial dev).submit E .wqd (.writing data) (G.dataWrite k wd.off wd.size)).2 := by
    rw [stripeWrite, if_pos hdata]
  refine ⟨_, _, hwrite ▸ hpar, rfl, hwrite ▸ hdone, rfl, ?_⟩
  exact (hsub _ .rpq (.read buf) (G.parityRead k rd.size) ⟨rfl, rfl⟩ rfl).2

theorem stripeParity_apart : (x.stripeParity G E k wp parity).2.disk.dev (G.loc k' i) =
    x.disk.dev (G.loc k' i) :=
  parityWrite_elsewhere fun p hp => parityLoc_ne_loc (by have := wp.fits; omega)

theorem effect_apart (hr : ((initial dev).stripeWrite G E k wd data wp parity).2.run as = some x)
    (ha : x.act (.effect .wqp j hit) = some x') :
    x'.disk.dev (G.loc k' i) = x.disk.dev (G.loc k' i) := by
  obtain ⟨⟨q', dev'⟩, he, rfl⟩ := Option.map_eq_some_iff.mp ha
  by_cases h : ((initial dev).submit E .wqd (.writing data) (G.dataWrite k wd.off wd.size)).1 = 0
  · have hw := writing_run (writing_stripeWrite h) hr
    exact Query.effect_elsewhere hw.wqp he fun p hp => parityLoc_ne_loc (by have := wp.fits; omega)
  · -- the parity part was not submitted
    rw [stripeWrite, if_neg h] at hr
    have hidle : (x.query .wqp).ops = [] := by
      have hsame : ((initial dev).submit E .wqd (.writing data)
          (G.dataWrite k wd.off wd.size)).2.query .wqp = (initial dev).query .wqp :=
        query_submit_of_ne (by decide)
      exact idle_run (hsame ▸ rfl) hr
    obtain ⟨op, hop, -⟩ := Query.effect_eq he
    rw [hidle] at hop
    cases hop

/-- A byte of the strip other than all others. -/
def spike (j : Nat) : Nat → Byte := fun i => if i = j then ⟨1⟩ else 0

theorem placed_spike : placed G (fun a => spike (k * G.stripSz + j) a.2) k wp
    (fun p => spike j (wp.off + p)) i = spike j i := by
  rw [placed, overlay]
  split
  · rw [Nat.add_sub_cancel' (by omega)]
  · simp [spike, Geometry.parityLoc]

/-- A read that does not begin with the strip gets other bytes than it asks for. -/
theorem off_eq_zero (h : Placement G k wd wp rd) : rd.off = 0 := by
  by_contra hne
  obtain ⟨y, z, ht⟩ := @exists_trip G { beh := fun _ _ => .done 0 fun _ => true, junk := fun _ _ => 0 } k wd wp rd
    (fun a => spike (k * G.stripSz + rd.off) a.2) (fun _ => 0) (fun p => spike rd.off (wp.off + p))
    (fun _ => 0) fun _ _ => ⟨_, rfl⟩
  have hread := h.agrees _ _ _ _ _ _ _ _ _ ht 0 rd.pos
  rw [buf_of_trip ht rd.pos, placed_spike, placed_spike] at hread
  rw [spike, spike, if_neg (Ne.symm hne), if_pos (Nat.add_zero _)] at hread
  exact absurd hread (by decide)

/-- Parity placed for writing is found by a read exactly if the read begins with the strip. Any
other read gets the right bytes exactly where the strip, once written, repeats itself. -/
theorem placement_iff (G : Geometry) (k : Nat) (wd : Extent G.stripeDataSz)
    (wp rd : Extent G.stripSz) :
    (Placement G k wd wp rd ↔ rd.off = 0) ∧
      ∀ E dev data parity buf as as' y z, Trip G E k wd wp rd dev data parity buf as as' y z →
        ((∀ i < rd.size, (z.query .rpq).buf i = placed G dev k wp parity (rd.off + i)) ↔
          ∀ i < rd.size, placed G dev k wp parity i = placed G dev k wp parity (rd.off + i)) := by
  refine ⟨⟨off_eq_zero, fun h0 => ⟨?_, ?_, ?_⟩⟩, ?_⟩
  · intro E dev data parity buf as as' y z ht i hi
    rw [h0, Nat.zero_add]
    exact buf_of_trip ht hi
  · intro E x parity k' i
    exact stripeParity_apart
  · intro E dev data parity as x j hit x' hr ha k' i
    exact effect_apart hr ha
  · intro E dev data parity buf as as' y z ht
    exact agrees_iff ht

theorem placement_iff_front : Placement (raid5 512 3 ⟨9, rfl⟩ ⟨1, rfl⟩ (by decide)) 4
    ⟨512, 512, by decide, by decide⟩ ⟨256, 256, by decide, by decide⟩
    ⟨0, 300, by decide, by decide⟩ :=
  (placement_iff _ _ _ _ _).1.mpr rfl

/-- A byte of the parity strip that is not the first. -/
theorem not_placement : ¬ Placement (raid5 512 3 ⟨9, rfl⟩ ⟨1, rfl⟩ (by decide)) 0
    ⟨0, 512, by decide, by decide⟩ ⟨0, 512, by decide, by decide⟩ ⟨1, 1, by decide, by decide⟩ :=
  fun h => absurd (off_eq_zero h) (by decide)

/-- In 64 bits the checks of both functions pass, and these are the subqueries. -/
theorem checked_eq {wqd wqp rq : Span} (hk : Checked.Low G k) (hz : G.stripeDataSz + G.stripSz < 2 ^ 64)
    (hd : wqd.len = wd.size) (hp : wqp.len = wp.size) (hr : rq.len = rd.size) :
    Checked.backendWrite G k wd.off wqd wp.off wqp =
        some (G.dataWrite k wd.off wd.size ++ G.parityWrite k wp.off wp.size) ∧
      Checked.parityRead G k rq rd.off = some (G.parityRead k rd.size) := by
  obtain ⟨off, size, hpos, hfits⟩ := wd
  obtain ⟨poff, psize, hpos', hfits'⟩ := wp
  obtain ⟨roff, rsize, hpos'', hfits''⟩ := rd
  subst hd hp hr
  exact ⟨Checked.backendWrite_eq hk hpos hfits hz hpos' hfits', Checked.parityRead_eq hk hpos'' hfits''⟩

end Ublk.Raidsp
