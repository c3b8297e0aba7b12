import Ublk.Lib.LastWrites
import Ublk.Moved
import Ublk.Raidsp.Order
import Ublk.Raidsp.Rmw

/-!
The data of a stripe whatever fails. A byte is undone by nothing but another write of it: what was
stored without an error stays until a later sub-write covers it.
-/
namespace Ublk.Raidsp

open Shared Serial Acceptor

variable {G : Geometry} {E : Env} {dev₀ : Addr → Byte} {w w' : SubWrite} {x x' : Inner} {r : Role}
  {q : Query} {e : Int} {k i : Nat} {parity : Nat → Byte} {act : Act} {b : Byte}
  {s t : State SubWrite Inner}

/-- Its data was taken in by every handler and completed without an error. -/
def SubWrite.Stored (w : SubWrite) : Prop := w.Wrote ∧ (w.query .wqd).Clean

/-- What byte `i` of a stripe may hold after the sub-writes `ws`. -/
def MayHold (old : Nat → Byte) (ws : List SubWrite) (i : Nat) : Byte → Prop :=
  LastWrites.Left (fun w => w.Covers i) SubWrite.Stored (fun w => w.src (i - w.off)) (old i) ws

/-- Each byte of stripe `k` is what some sub-write that ended left. -/
def Traced (G : Geometry) (dev₀ : Addr → Byte) (k : Nat) (x : Inner) : Prop :=
  ∀ i < G.stripeDataSz, MayHold (dataOf G dev₀ k) (x.log k) i (x.disk.dev (G.loc k i))

/-- What a sub-write that works on a stripe keeps of it. -/
structure Working (G : Geometry) (dev₀ : Addr → Byte) (w : SubWrite) (x : Inner) : Prop where
  fits : w.off + w.size ≤ G.stripeDataSz
  bytes : ∀ i < G.stripeDataSz,
    MayHold (dataOf G dev₀ w.stripe) (x.log w.stripe) i (x.disk.dev (G.loc w.stripe i)) ∨
      w.Covers i ∧ x.disk.dev (G.loc w.stripe i) = w.src (i - w.off)
  reads : ∀ r, ¬ r.Strip → (w.query r).write = false
  data : w.Wrote → (w.query .wqd).buf = w.src
  wqd : (w.query .wqd).Follows (fun p => G.loc w.stripe (w.off + p)) w.size (fun _ => w.Wrote)
    x.disk.dev
  wqp : (w.query .wqp).Follows (G.parityLoc w.stripe) G.stripSz (fun _ => False) x.disk.dev

theorem working_of_same (h : Working G dev₀ w x) (hq : w'.query = w.query)
    (hr : w'.request = w.request) (hd : x'.disk = x.disk) (hl : x'.done = x.done) :
    Working G dev₀ w' x' := by
  have hlog : ∀ k, x'.log k = x.log k := fun k => by rw [Inner.log, Inner.log, hl]
  have hslice := slice_of_request hr
  constructor <;> simp only [SubWrite.Wrote, hq, hslice, hd, hlog]
  · exact h.fits
  · exact h.bytes
  · exact h.reads
  · exact h.data
  · exact h.wqd
  · exact h.wqp

theorem working_setErr (h : Working G dev₀ w x) : Working G dev₀ (w.setErr e) x :=
  working_of_same h SubWrite.query_setErr SubWrite.request_setErr rfl rfl

theorem working_whenIdle {s : SubWrite × Inner} {f : SubWrite → Inner → SubWrite × Inner}
    (h : Working G dev₀ s.1 s.2) (hf : Working G dev₀ (f s.1 s.2).1 (f s.1 s.2).2) :
    Working G dev₀ (whenIdle r f s).1 (whenIdle r f s).2 := by
  unfold whenIdle
  split
  · exact hf
  · exact h

theorem working_writeDone (h : Working G dev₀ w x) :
    Working G dev₀ (writeDone G r w x).1 (writeDone G r w x).2 := by
  obtain ⟨hq, hd, -⟩ := query_writeDone (G := G) (r := r) (w := w) (x := x)
  have hs : Stays G w x (writeDone G r w x) := stays_writeDone
  exact working_of_same h hq hs.request hd (by rw [hs.rest])

/-- A query to read comes in the place of another one. -/
theorem working_set_read (hr : ¬ r.Strip) (hq : q.write = false) (h : Working G dev₀ w x)
    {d : Disk} (hd : d.dev = x.disk.dev) : Working G dev₀ (w.set r q) { x with disk := d } := by
  have hd' : Role.wqd ≠ r := fun he => hr (.inl he.symm)
  have hp' : Role.wqp ≠ r := fun he => hr (.inr he.symm)
  have hwrote : (w.set r q).Wrote ↔ w.Wrote := by
    rw [SubWrite.Wrote, SubWrite.query_set_of_ne hd']
    rfl
  refine ⟨h.fits, fun i hi => ?_, fun r' hr' => ?_, fun hw => ?_, ?_, ?_⟩
  · have hb := h.bytes i hi
    rw [← hd] at hb
    exact hb
  · by_cases he : r' = r
    · subst he
      rwa [SubWrite.query_set_self]
    · rw [SubWrite.query_set_of_ne he]
      exact h.reads r' hr'
  · rw [SubWrite.query_set_of_ne hd']
    exact h.data (hwrote.mp hw)
  · rw [SubWrite.query_set_of_ne hd']
    simp only [hd, hwrote]
    exact h.wqd
  · rw [SubWrite.query_set_of_ne hp']
    simp only [hd]
    exact h.wqp

theorem working_submitRead {buf : Nat → Byte} {ss : List Sub} (hr : ¬ r.Strip)
    (h : Working G dev₀ w x) : Working G dev₀ (submitRead E r buf ss w x).2.1
      (submitRead E r buf ss w x).2.2 :=
  working_set_read hr (by simp [Query.read]) h (Query.dev_submitAll_of_read rfl)

/-- Where a sub-write writes a byte of its stripe. -/
theorem src_of_covers (h : w.Covers i) : i - w.off < w.size ∧ w.off + (i - w.off) = i := by
  obtain ⟨h₁, h₂⟩ := h
  omega

/-- Bytes that a sub-write leaves as they are or writes. -/
theorem bytes_of_either {dev : Addr → Byte} (h : Working G dev₀ w x)
    (hin : ∀ p < w.size, dev (G.loc w.stripe (w.off + p)) = x.disk.dev (G.loc w.stripe (w.off + p)) ∨
      dev (G.loc w.stripe (w.off + p)) = w.src p)
    (hout : ∀ i < G.stripeDataSz, ¬ w.Covers i → dev (G.loc w.stripe i) = x.disk.dev (G.loc w.stripe i))
    (hi : i < G.stripeDataSz) :
    MayHold (dataOf G dev₀ w.stripe) (x.log w.stripe) i (dev (G.loc w.stripe i)) ∨
      w.Covers i ∧ dev (G.loc w.stripe i) = w.src (i - w.off) := by
  by_cases hc : w.Covers i
  · obtain ⟨hlt, he⟩ := src_of_covers hc
    have hone := hin _ hlt
    rw [he] at hone
    obtain hone | hone := hone
    · rw [hone]
      exact h.bytes i hi
    · exact .inr ⟨hc, hone⟩
  · rw [hout i hi hc]
    exact h.bytes i hi

theorem loc_ne_of_not_covers (h : ¬ w.Covers i) {p : Nat} (hp : p < w.size) :
    G.loc k (w.off + p) ≠ G.loc k i := by
  intro he
  have := Geometry.loc_injective he
  exact h ⟨by omega, by omega⟩

theorem working_backendWrite (h : Working G dev₀ w x) :
    Working G dev₀ (backendWrite G E w parity x).2.1 (backendWrite G E w parity x).2.2 := by
  have hsubs : ∀ s ∈ G.dataWrite w.stripe w.off w.size,
      s.Fits (fun p => G.loc w.stripe (w.off + p)) w.size :=
    fun s hs => Geometry.dataWrite_fits h.fits hs
  have hstrip : ∀ s ∈ G.parityWrite w.stripe 0 G.stripSz,
      s.Fits (G.parityLoc w.stripe) G.stripSz := fun s hs => Geometry.parityWrite_fits hs
  have hd := @Query.follows_submitAll E (Query.writing w.src) _ x.disk _ _ (fun _ => False)
    (fun _ => True) (Query.follows_writing _) hsubs (loc_injOn _ (by omega) _)
    fun _ p hp _ => .inr (Geometry.dataWrite_cover h.fits hp)
  have hin : ∀ p < w.size, _ := fun p hp =>
    @Query.submitAll_either E (Query.writing w.src) _ x.disk _ _ p (loc_injOn _ (by omega) _) hp rfl hsubs
  have hout : ∀ i, ¬ w.Covers i → _ := fun i hn =>
    @Query.submitAll_elsewhere E (Query.writing w.src) _ x.disk _ _ (G.loc w.stripe i) hsubs
      fun p hp => loc_ne_of_not_covers hn hp
  -- the parity comes behind the data and lands elsewhere
  have hpar : ∀ d : Disk, ∀ i, ((Query.writing parity).submitAll E
      (G.parityWrite w.stripe 0 G.stripSz) d).2.2.dev (G.loc w.stripe i) = d.dev (G.loc w.stripe i) :=
    fun d i => Query.submitAll_elsewhere hstrip fun p _ => (loc_ne_parityLoc i p).symm
  have hdev : ∀ i, (backendWrite G E w parity x).2.2.disk.dev (G.loc w.stripe i) =
      ((Query.writing w.src).submitAll E (G.dataWrite w.stripe w.off w.size) x.disk).2.2.dev
        (G.loc w.stripe i) := by
    intro i
    simp only [backendWrite]
    split
    · exact hpar _ i
    · rfl
  have hbytes : ∀ i < G.stripeDataSz, MayHold (dataOf G dev₀ w.stripe) (x.log w.stripe) i
      ((backendWrite G E w parity x).2.2.disk.dev (G.loc w.stripe i)) ∨
        w.Covers i ∧ (backendWrite G E w parity x).2.2.disk.dev (G.loc w.stripe i) =
          w.src (i - w.off) := by
    refine fun i hi => bytes_of_either h (fun p hp => ?_) (fun i _ hn => ?_) hi
    · rw [hdev]
      exact hin p hp
    · rw [hdev]
      exact hout i hn
  refine ⟨h.fits, hbytes, fun r hr => ?_, fun _ => ?_, ?_, ?_⟩
  · rw [reads_backendWrite hr]
    exact h.reads r hr
  all_goals
    simp only [backendWrite, SubWrite.Wrote, SubWrite.toSlice_set, SubWrite.query_set_self,
      SubWrite.query_set_of_ne, ne_eq, reduceCtorEq, not_false_eq_true]
  · exact Query.buf_submitAll_of_write rfl
  · have hwrite : (Query.writing w.src).write = true := rfl
    simp only [Query.write_submitAll, hwrite]
    split
    · exact Query.follows_elsewhere hd fun p _ => hpar _ _
    · exact hd
  · split
    · exact Query.follows_submitAll (Query.follows_writing _) hstrip (parityLoc_injOn _)
        fun _ _ _ hf => hf.elim
    · exact Query.follows_writing _

theorem working_stripeCoherentParityWrite (h : Working G dev₀ w x) :
    Working G dev₀ (stripeCoherentParityWrite G E w parity x).2.1
      (stripeCoherentParityWrite G E w parity x).2.2 := by
  unfold stripeCoherentParityWrite
  have hb := @working_backendWrite G E dev₀ w x parity h
  have hd := working_whenIdle (r := .wqd) hb (working_writeDone (r := .wqd) hb)
  exact working_whenIdle hd (working_writeDone hd)

theorem working_stripeIncoherentParityWrite (h : Working G dev₀ w x) :
    Working G dev₀ (stripeIncoherentParityWrite G E w parity x).2.1
      (stripeIncoherentParityWrite G E w parity x).2.2 := by
  have hb := @working_backendWrite G E dev₀ w x parity h
  obtain ⟨r, r', -, -, -, he⟩ := stripeIncoherentParityWrite_eq G E w parity x
  rw [he]
  dsimp only
  split
  · exact working_of_same hb (by simp [combinedCompleterGuard])
      (by simp [combinedCompleterGuard]) rfl rfl
  · exact hb

theorem working_rpqDone (h : Working G dev₀ w x) :
    Working G dev₀ (rpqDone G E w x).1 (rpqDone G E w x).2 := by
  unfold rpqDone
  dsimp only
  split
  · exact working_stripeCoherentParityWrite h
  · exact working_setErr h

theorem working_rqdDone (h : Working G dev₀ w x) :
    Working G dev₀ (rqdDone G E w x).1 (rqdDone G E w x).2 := by
  have hrpq : ¬ Role.Strip .rpq := by simp [Role.Strip]
  unfold rqdDone
  dsimp only
  split
  · split
    · have hs : Working G dev₀ (submitRead E .rpq (fun j => E.junk w.id (G.stripeDataSz + j))
          (G.parityRead w.stripe G.stripSz) w x).2.1
          (submitRead E .rpq (fun j => E.junk w.id (G.stripeDataSz + j))
          (G.parityRead w.stripe G.stripSz) w x).2.2 := working_submitRead hrpq h
      exact working_setErr (working_whenIdle hs (working_rpqDone hs))
    · exact working_setErr (working_stripeIncoherentParityWrite h)
  · exact working_setErr h

theorem working_queryDone (h : Working G dev₀ w x) :
    Working G dev₀ (queryDone G E r w x).1 (queryDone G E r w x).2 := by
  cases r with
  | rqd => exact working_rqdDone h
  | rpq => exact working_rpqDone h
  | wqd => exact working_writeDone h
  | wqp => exact working_writeDone h

theorem working_stripePartWrite (h : Working G dev₀ w x) :
    Working G dev₀ (stripePartWrite G E w x).2.1 (stripePartWrite G E w x).2.2 := by
  have hrqd : ¬ Role.Strip .rqd := by simp [Role.Strip]
  unfold stripePartWrite
  dsimp only
  exact working_whenIdle (working_submitRead hrqd h) (working_rqdDone (working_submitRead hrqd h))

theorem working_process (h : Working G dev₀ w x) :
    Working G dev₀ (process G E w x).2.1 (process G E w x).2.2 := by
  have h' : Working G dev₀ { w with coherent := x.coh w.stripe } x :=
    working_of_same h rfl rfl rfl rfl
  suffices hs : ∀ s : Int × SubWrite × Inner, Working G dev₀ s.2.1 s.2.2 →
      Working G dev₀ { s.2.1 with res := s.1 } s.2.2 by
    unfold process
    refine hs _ ?_
    split
    · exact working_stripePartWrite h'
    · unfold stripeDataWrite stripeWrite
      split
      · exact working_stripeCoherentParityWrite h'
      · exact working_stripeIncoherentParityWrite h'
  exact fun s hs => working_of_same hs rfl rfl rfl rfl

/-- Some subqueries of a query to write go on. -/
theorem working_set_strip (h : Working G dev₀ w x) (hr : r.Strip)
    (hw : q.write = (w.query r).write) (hbuf : (w.query r).write = true → q.buf = (w.query r).buf)
    {d : Disk} (hb : ∀ i < G.stripeDataSz,
      MayHold (dataOf G dev₀ w.stripe) (x.log w.stripe) i (d.dev (G.loc w.stripe i)) ∨
        w.Covers i ∧ d.dev (G.loc w.stripe i) = w.src (i - w.off))
    (hd : ((w.set r q).query .wqd).Follows (fun p => G.loc w.stripe (w.off + p)) w.size
      (fun _ => w.Wrote) d.dev)
    (hp : ((w.set r q).query .wqp).Follows (G.parityLoc w.stripe) G.stripSz (fun _ => False)
      d.dev) : Working G dev₀ (w.set r q) { x with disk := d } := by
  have hwrote : (w.set r q).Wrote ↔ w.Wrote := by
    unfold SubWrite.Wrote
    by_cases he : Role.wqd = r
    · subst he
      rw [SubWrite.query_set_self, hw]
    · rw [SubWrite.query_set_of_ne he]
  refine ⟨h.fits, hb, fun r' hr' => ?_, fun hwr => ?_, ?_, hp⟩
  · rw [SubWrite.query_set_of_ne fun he => hr' (by rwa [he])]
    exact h.reads r' hr'
  · have hwr' := hwrote.mp hwr
    by_cases he : Role.wqd = r
    · subst he
      rw [SubWrite.query_set_self, hbuf hwr']
      exact h.data hwr'
    · rw [SubWrite.query_set_of_ne he]
      exact h.data hwr'
  · simp only [hwrote]
    exact hd

theorem working_settle {n : Nat} (h : Working G dev₀ w x)
    (hq : (w.query r).settle n e = some q) : Working G dev₀ (w.set r q) x := by
  obtain ⟨-, hwrite, -, hbuf, -⟩ := Query.settle_keeps hq
  by_cases hr : r.Strip
  · have hs := hr
    obtain rfl | rfl := hr
    · refine working_set_strip h hs hwrite (fun _ => hbuf) h.bytes ?_ ?_
      · rw [SubWrite.query_set_self]
        exact Query.follows_settle h.wqd hq
      · exact h.wqp
    · refine working_set_strip h hs hwrite (fun _ => hbuf) h.bytes h.wqd ?_
      rw [SubWrite.query_set_self]
      exact Query.follows_settle h.wqp hq
  · exact working_set_read hr (hwrite.trans (h.reads r hr)) h rfl

/-- What takes effect is bytes of the data where they belong, or parity elsewhere. -/
theorem working_effect {n : Nat} {hit : Nat → Bool} {dev' : Addr → Byte} (h : Working G dev₀ w x)
    (hq : (w.query r).effect n hit x.disk.dev = some (q, dev')) :
    Working G dev₀ (w.set r q) { x with disk := { x.disk with dev := dev' } } := by
  obtain ⟨hwrite, -, -, -, -, hbuf⟩ := Query.effect_keeps hq
  by_cases hr : r.Strip
  · have hs := hr
    obtain rfl | rfl := hr
    · have hout : ∀ i, ¬ w.Covers i → dev' (G.loc w.stripe i) = x.disk.dev (G.loc w.stripe i) :=
        fun i hn => Query.effect_elsewhere h.wqd hq fun p hp => loc_ne_of_not_covers hn hp
      have hin : ∀ p < w.size, dev' (G.loc w.stripe (w.off + p)) =
          x.disk.dev (G.loc w.stripe (w.off + p)) ∨
            dev' (G.loc w.stripe (w.off + p)) = w.src p := by
        intro p hp
        by_cases hwr : w.Wrote
        · have := Query.effect_either (loc_injOn _ (by omega) _) hp hwr h.wqd.fits hq
          rwa [h.data hwr] at this
        · rw [Query.dev_effect_of_read (Bool.eq_false_iff.mpr hwr) hq]
          exact .inl rfl
      refine working_set_strip h hs hwrite hbuf
        (fun i hi => bytes_of_either h hin (fun i _ => hout i) hi) ?_ ?_
      · rw [SubWrite.query_set_self]
        exact Query.follows_effect h.wqd (loc_injOn _ (by omega) _) hq
      · refine Query.follows_elsewhere h.wqp fun p _ => ?_
        exact Query.effect_elsewhere h.wqd hq fun p' _ => loc_ne_parityLoc _ p
    · have hsame : ∀ i, dev' (G.loc w.stripe i) = x.disk.dev (G.loc w.stripe i) := fun i =>
        Query.effect_elsewhere h.wqp hq fun p _ => (loc_ne_parityLoc i p).symm
      have hb : ∀ i < G.stripeDataSz,
          MayHold (dataOf G dev₀ w.stripe) (x.log w.stripe) i (dev' (G.loc w.stripe i)) ∨
            w.Covers i ∧ dev' (G.loc w.stripe i) = w.src (i - w.off) := by
        intro i hi
        rw [hsame]
        exact h.bytes i hi
      refine working_set_strip h hs hwrite hbuf hb
        (Query.follows_elsewhere h.wqd fun p _ => hsame _) ?_
      · rw [SubWrite.query_set_self]
        exact Query.follows_effect h.wqp (parityLoc_injOn _) hq
  · exact working_set_read hr (hwrite.trans (h.reads r hr)) h
      (Query.dev_effect_of_read (h.reads r hr) hq)

theorem working_react (h : Working G dev₀ w x) (hr : react G E act w x = some (w', x')) :
    Working G dev₀ w' x' := by
  cases act with
  | effect r n hit =>
    obtain ⟨q, hq, he⟩ := Option.map_eq_some_iff.mp hr
    cases he
    exact working_effect h hq
  | settle r n e =>
    obtain ⟨q, hq, he⟩ := Option.map_eq_some_iff.mp hr
    have hs : Working G dev₀ (w.set r q) x := working_settle h hq
    have hd := working_whenIdle (r := r) (s := (w.set r q, x)) hs
      (working_queryDone (E := E) (r := r) hs)
    rwa [he] at hd

/-- Ownership of a stripe. -/
def tracedStripes (G : Geometry) (dev₀ : Addr → Byte) : Guard SubWrite Inner where
  free k x := Traced G dev₀ k x
  held w x := Working G dev₀ w x
  fit w := w.off + w.size ≤ G.stripeDataSz ∧ ∀ r, (w.query r).Untouched
  ended _ := True

theorem traced_of_same (hd : ∀ a : Addr, a.2 / G.stripSz = k → x'.disk.dev a = x.disk.dev a)
    (hl : x'.log k = x.log k) : (tracedStripes G dev₀).Keeps (acceptor G E) k x x' := by
  constructor
  · intro h i hi
    rw [hd _ Geometry.row_loc, hl]
    exact h i hi
  · intro w hk h
    have hk : w.stripe = k := hk
    subst hk
    refine ⟨h.fits, fun i hi => ?_, h.reads, h.data,
      Query.follows_elsewhere h.wqd fun p _ => hd _ Geometry.row_loc,
      Query.follows_elsewhere h.wqp fun p hp => hd _ (Geometry.row_parityLoc hp)⟩
    rw [hd _ Geometry.row_loc, hl]
    exact h.bytes i hi

theorem traced_of_elsewhere {k' : Nat} (h : Elsewhere G k' x x') (hl : x'.done = x.done)
    (hk : k ≠ k') : (tracedStripes G dev₀).Keeps (acceptor G E) k x x' :=
  traced_of_same (fun a ha => h.dev a (ha.trans_ne hk)) (by rw [Inner.log, hl]; rfl)

/-- A sub-write that stored its data left it there; else each byte is the old or the new one. -/
theorem traced_of_working (h : Working G dev₀ w x) (hb : w.busy = false) :
    Traced G dev₀ w.stripe { x with done := x.done ++ [w] } := by
  intro i hi
  rw [log_append_self]
  by_cases hs : w.Covers i ∧ w.Stored
  · obtain ⟨hc, hwr, hclean⟩ := hs
    obtain ⟨hlt, he⟩ := src_of_covers hc
    have hd := h.wqd.agrees hclean _ hlt hwr
      (by simp [Query.Pending, show (w.query .wqd).ops = [] from SubWrite.not_busy.mp hb .wqd])
    rw [h.data hwr, he] at hd
    exact LastWrites.left_of_last hc hd.symm
  · obtain hold | ⟨hc, hnew⟩ := h.bytes i hi
    · exact LastWrites.left_of_lost hold fun hc hst => hs ⟨hc, hst⟩
    · exact LastWrites.left_of_last hc hnew

theorem placed_of_working (h : Working G dev₀ w x) :
    (tracedStripes G dev₀).Placed (acceptor G E) w x :=
  ⟨fun _ => h, fun hb => ⟨trivial, traced_of_working h hb⟩⟩

theorem working_of_traced (h : Traced G dev₀ w.stripe x) (hw : (tracedStripes G dev₀).fit w) :
    Working G dev₀ w x := by
  obtain ⟨hfits, hq⟩ := hw
  have hn : ¬ w.Wrote := by simp [SubWrite.Wrote, write_of_untouched (hq .wqd)]
  refine ⟨hfits, fun i hi => .inl (h i hi), fun r _ => write_of_untouched (hq r),
    fun hwr => absurd hwr hn, ?_, ?_⟩
  · rw [hq .wqd]
    exact ⟨by simp [Query.read], fun _ _ _ hwr => absurd hwr hn, Query.honest_read _⟩
  · rw [hq .wqp]
    exact Query.follows_read _

theorem elsewhere_react_of_working (h : Working G dev₀ w x)
    (hr : react G E act w x = some (w', x')) : Elsewhere G w.stripe x x' := by
  cases act with
  | effect r n hit =>
    obtain ⟨⟨q, dev'⟩, hq, he⟩ := Option.map_eq_some_iff.mp hr
    cases he
    refine elsewhere_disk fun a ha => ?_
    by_cases hs : r.Strip
    · obtain rfl | rfl := hs
      · exact Query.effect_elsewhere h.wqd hq fun p _ => elsewhere_loc ha _
      · exact Query.effect_elsewhere h.wqp hq fun p hp => elsewhere_parityLoc ha hp
    · exact congrFun (Query.dev_effect_of_read (h.reads r hs) hq) a
  | settle r n e =>
    obtain ⟨q, hq, he⟩ := Option.map_eq_some_iff.mp hr
    have hs : Stays G w x (whenIdle r (queryDone G E r) (w.set r q, x)) :=
      stays_whenIdle ⟨rfl, rfl, fun _ => elsewhere_refl⟩ fun _ => stays_queryDone
    have := hs.elsewhere h.fits
    rwa [he] at this

theorem tracedStripes_sound :
    (tracedStripes G dev₀).Sound (acceptor G E) (fun _ _ => True) fun _ _ => True where
  start w x hw hx := placed_of_working (working_process (working_of_traced hx hw))
  react act w x w' x' _ h hr := placed_of_working (working_react h hr)
  start_other w x k hw hk := traced_of_elsewhere (stays_process.elsewhere hw.1)
    (by rw [show ((acceptor G E).start w x).2.2 = _ from stays_process.rest]) hk
  react_other act w x w' x' k _ h hr hk :=
    traced_of_elsewhere (elsewhere_react_of_working h hr) (by rw [(react_keeps hr).2]) hk
  enter_other w x k hk := traced_of_same (fun _ _ => rfl) (log_append_of_ne hk)
  leave _ _ _ _ := keeps_refl
  split _ _ _ _ := traced_of_same (fun _ _ => rfl) rfl
  split_fit _ _ _ _ h := by
    obtain ⟨p, hp, hslice, hq, -⟩ := mem_split h
    obtain ⟨-, -, hin, -⟩ := Blocks.mem_cut G.stripeDataSz_pos hp
    refine ⟨by rwa [hslice], fun r => ?_⟩
    rw [Query.Untouched, hq]
    rfl
  park_fit _ h := h
  aside b x t x' t' k _ h := by
    obtain ⟨hx, hd⟩ := beside_keeps h
    exact traced_of_same (fun a _ => by rw [hd]) (by rw [Inner.log, hx]; rfl)

theorem traced_initial : Traced G dev₀ k (Inner.initial dev₀) :=
  fun _ _ => LastWrites.left_nil.mpr rfl

/-- What every run keeps in which no waiting sub-write is turned down as it is restarted. -/
theorem traced_run
    (h : Lts.Run (acceptor G E).step (RestartAccepted G E) (.initial (Inner.initial dev₀)) s) :
    Disciplined (acceptor G E) s ∧ Owned (tracedStripes G dev₀) (acceptor G E) s :=
  owned_run acceptor_keyed tracedStripes_sound (fun _ => traced_initial)
    (Lts.run_mono (fun _ _ h => ⟨restarts_iff.mpr h, guarded_true⟩) h)

/-- A byte comes from the sub-writes that ended or from the one at work. -/
theorem bytes_of_owned (hd : Disciplined (acceptor G E) s)
    (ho : Owned (tracedStripes G dev₀) (acceptor G E) s) (k : Nat) (hi : i < G.stripeDataSz) :
    MayHold (dataOf G dev₀ k) (s.inner.log k) i (s.inner.disk.dev (G.loc k i)) ∨
      ∃ w ∈ s.active, w.stripe = k ∧ w.Covers i ∧
        s.inner.disk.dev (G.loc k i) = w.src (i - w.off) := by
  by_cases hl : s.locks.Locked k
  · obtain hm | hm := List.mem_append.mp ((hd.locked k).mp hl)
    · obtain ⟨w, hw, rfl⟩ := List.mem_map.mp hm
      have hheld : Working G dev₀ w s.inner := ho.held w hw
      obtain hold | ⟨hc, hnew⟩ := hheld.bytes i hi
      · exact .inl hold
      · exact .inr ⟨w, hw, rfl, hc, hnew⟩
    · obtain ⟨f, hf, rfl⟩ := List.mem_map.mp hm
      obtain ⟨hf, hfin⟩ := List.mem_filter.mp hf
      exact .inl (ho.search f hf (by simpa using hfin) i hi)
  · exact .inl (ho.free k hl i hi)

/-- A sub-write is for bytes of a client's write, and brings those. -/
def Requested (G : Geometry) (x : Inner) (w : SubWrite) : Prop :=
  ∃ r, (w.cid, r) ∈ x.writes ∧ ∀ i, w.Covers i →
    r.off ≤ w.stripe * G.stripeDataSz + i ∧ w.stripe * G.stripeDataSz + i < r.off + r.size ∧
      w.src (i - w.off) = r.data (w.stripe * G.stripeDataSz + i - r.off)

theorem requested_of_made (h : w.toSlice ∈ x.made G) : Requested G x w := by
  obtain ⟨⟨c, r⟩, hr, hs⟩ := List.mem_flatMap.mp h
  obtain ⟨p, hp, he⟩ := List.mem_map.mp hs
  have hp : p ∈ Blocks.cut G.stripeDataSz r.off r.size := hp
  obtain ⟨hat, hlen, -, -⟩ := Blocks.mem_cut G.stripeDataSz_pos hp
  unfold Requested
  rw [← he]
  refine ⟨r, hr, fun i hi => ?_⟩
  obtain ⟨h₁, h₂⟩ : p.inner ≤ i ∧ i < p.inner + p.len := hi
  simp only [WriteReq.slice]
  generalize p.id * G.stripeDataSz = base at *
  refine ⟨by omega, by omega, ?_⟩
  congr 1
  omega

theorem requested_run
    (h : Lts.Run (acceptor G E).step (RestartAccepted G E) (.initial (Inner.initial dev₀)) s)
    (hw : w ∈ s.active ∨ w ∈ s.inner.done) : Requested G s.inner w := by
  refine requested_of_made (Multiset.mem_coe.mp (Multiset.mem_of_le
    (tags_le_run acceptor_tracing rfl h) ?_))
  simp only [tags, Multiset.mem_add, Multiset.mem_coe, List.mem_map]
  obtain hw | hw := hw
  · exact .inl (.inr ⟨w, hw, rfl⟩)
  · exact .inr ⟨w, hw, rfl⟩

/-- The data on the devices. `kept` and `untouched` follow from `bytes`: what was stored is there
until it is written over, and where nothing was written all is as before. -/
structure Durable (G : Geometry) (dev₀ : Addr → Byte) (s : State SubWrite Inner) : Prop where
  bytes : ∀ k, ∀ i < G.stripeDataSz,
    MayHold (dataOf G dev₀ k) (s.inner.log k) i (s.inner.disk.dev (G.loc k i)) ∨
      ∃ w ∈ s.active, w.stripe = k ∧ w.Covers i ∧
        s.inner.disk.dev (G.loc k i) = w.src (i - w.off)
  kept : ∀ k as w bs, s.inner.log k = as ++ w :: bs → w.Stored → ∀ i < G.stripeDataSz, w.Covers i →
    (∀ v ∈ bs, ¬ v.Covers i) → (∀ v ∈ s.active, v.stripe = k → ¬ v.Covers i) →
      s.inner.disk.dev (G.loc k i) = w.src (i - w.off)
  untouched : ∀ k, ∀ i < G.stripeDataSz, (∀ v ∈ s.inner.log k, ¬ v.Covers i) →
    (∀ v ∈ s.active, v.stripe = k → ¬ v.Covers i) →
      s.inner.disk.dev (G.loc k i) = dev₀ (G.loc k i)
  requested : ∀ w, w ∈ s.active ∨ w ∈ s.inner.done → Requested G s.inner w

/-- Whatever the handlers reject or fail, of reads as of writes, and in any order of steps. -/
theorem durable_run (G : Geometry) (E : Env) (dev₀ : Addr → Byte) (s : State SubWrite Inner)
    (h : Lts.Run (acceptor G E).step (RestartAccepted G E) (.initial (Inner.initial dev₀)) s) :
    Durable G dev₀ s := by
  obtain ⟨hd, ho⟩ := traced_run h
  have hbytes := fun k i (hi : i < G.stripeDataSz) => bytes_of_owned hd ho k hi
  refine ⟨hbytes, fun k as w bs hl hs i hi hc hb ha => ?_, fun k i hi hn ha => ?_,
    fun w hw => requested_run h hw⟩
  · obtain hm | ⟨v, hv, hk, hcv, -⟩ := hbytes k i hi
    · rw [hl] at hm
      have hv := LastWrites.eq_of_solid hm hc hs hb
      exact hv
    · exact absurd hcv (ha v hv hk)
  · obtain hm | ⟨v, hv, hk, hcv, -⟩ := hbytes k i hi
    · exact LastWrites.eq_of_none hm hn
    · exact absurd hcv (ha v hv hk)

/-- The fifth write fails after a hundred bytes. -/
def fifthFails : Env where
  beh write i := if write ∧ i = 4 then .done 5 fun j => decide (j < 100) else .done 0 fun _ => true
  junk _ _ := 0

/-- Two writes of the first stripe, the second one failing in the second strip. -/
def overwriteRun : List (Label WriteReq Act Beside) :=
  [.arrive (stripeReq fun _ => ⟨1⟩), .tick, .tick, .tick, .tick,
    .arrive (stripeReq fun _ => ⟨2⟩), .tick, .tick, .tick, .tick]

theorem durable_run_overwrite : ∃ s, afterRun fifthFails overwriteRun = some s ∧
    (s.inner.disk.dev (0, 0), s.inner.disk.dev (1, 99), s.inner.disk.dev (1, 100)) =
      (⟨2⟩, ⟨2⟩, ⟨1⟩) ∧ Durable smallRaid (fun _ => 0) s := by
  obtain ⟨s, hs⟩ : ∃ s, afterRun fifthFails overwriteRun = some s :=
    Option.isSome_iff_exists.mp (by decide +kernel)
  have hend : (afterRun fifthFails overwriteRun).map (fun s => (s.inner.disk.dev (0, 0),
      s.inner.disk.dev (1, 99), s.inner.disk.dev (1, 100))) = some (⟨2⟩, ⟨2⟩, ⟨1⟩) := by
    decide +kernel
  simp only [hs, Option.map_some, Option.some.injEq] at hend
  have haccept : ∀ c i, (fifthFails.beh c i).Accepts := by
    intro c i
    unfold fifthFails
    dsimp only
    split <;> trivial
  refine ⟨s, hs, hend, durable_run _ _ _ s (Lts.run_of_exec (fun l _ s => ?_) hs)⟩
  cases l with
  | tick => exact fun _ _ _ _ _ _ _ _ _ => haccept _ _
  | _ => trivial

end Ublk.Raidsp
