import Ublk.Cache.Front

/-!
What reads have of the backend. A byte that was read is the backend's as long as no write reached it
since, and so is one that was delivered.
-/
namespace Ublk.Cache

open Shared

variable {sz : Nat} {E : Env} {cov hit : Nat → Bool} {x y : Front} {t : Requests} {f : Fill}
  {r : ClientRead} {p : Blocks.Piece} {ps : List Blocks.Piece} {dev dev' : Addr → Byte}
  {i j k rd cid off size fuel id : Nat} {e : Int} {chunk b : Nat → Byte} {o : Outcome} {s : Sub}

/-- The loop over a read cuts it at the chunks. -/
theorem readPieces_eq (hsz : 0 < sz) {rb : Nat} : readPieces sz off size fuel id rb =
    Blocks.pieces sz size fuel id ((off + rb) % sz) rb := by
  induction fuel generalizing id rb with
  | zero => rfl
  | succ fuel ih =>
    rw [readPieces, Blocks.pieces]
    split
    · rename_i hrb
      dsimp only
      rw [ih]
      have hmod := Nat.mod_lt (off + rb) hsz
      obtain hle | hgt := Nat.le_total (sz - (off + rb) % sz) (size - rb)
      · rw [min_eq_left hle]
        have hdiv := Nat.div_add_mod (off + rb) sz
        have hnext : off + (rb + (sz - (off + rb) % sz)) = sz * ((off + rb) / sz + 1) := by
          rw [Nat.mul_add]
          omega
        rw [hnext, Nat.mul_mod_right]
      · rw [min_eq_right hgt]
        have hend : rb + (size - rb) = size := by omega
        cases fuel with
        | zero => rfl
        | succ fuel => simp [Blocks.pieces, hend]
    · rfl

theorem mem_readPieces (hsz : 0 < sz) (h : p ∈ readPieces sz off size size (off / sz) 0) :
    off + p.pos = p.id * sz + p.inner ∧ p.pos + p.len ≤ size ∧ p.inner + p.len ≤ sz ∧
      0 < p.len := by
  rw [readPieces_eq hsz] at h
  exact Blocks.mem_cut hsz h

/-- The backend's byte `j` of chunk `k`. -/
def chunkAt (sz : Nat) (dev : Addr → Byte) (k j : Nat) : Byte := dev (0, k * sz + j)

/-- The query of a fill is under way, and what it has read is the backend's. -/
structure Fill.Sound (sz : Nat) (dev : Addr → Byte) (reads : List ClientRead) (f : Fill) :
    Prop where
  shape : ∃ took, f.query.ops = [⟨chunkSub sz f.piece.id, took⟩]
  clean : f.query.write = false ∧ f.query.err = 0
  agree : ∀ j < sz, f.took j = true → f.late j = false → f.query.buf j = chunkAt sz dev f.piece.id j
  fits : f.piece.inner + f.piece.len ≤ sz
  link : ∃ r, reads[f.rd]? = some r ∧ r.off + f.piece.pos = f.piece.id * sz + f.piece.inner ∧
    ∀ i < f.piece.len, f.late (f.piece.inner + i) = true → r.raced (f.piece.pos + i) = true

def ClientRead.Sound (dev : Addr → Byte) (r : ClientRead) : Prop :=
  ∀ i, r.got i = true → r.raced i = false → r.buf i = dev (0, r.off + i)

structure Tracked (sz : Nat) (x : Front) : Prop where
  fills : ∀ f ∈ x.fills, f.Sound sz x.disk.dev x.reads
  reads : ∀ r ∈ x.reads, r.Sound x.disk.dev

/-- What is cached is the backend's, but for bytes that writes under way are yet to reach. -/
def Hits (sz : Nat) (cov : Nat → Bool) (x : Front) : Prop :=
  ∀ k d, x.cache.get k = some d → ∃ b, d = some b ∧
    ∀ j < sz, b j = chunkAt sz x.disk.dev k j ∨ cov (k * sz + j) = true

/-- A chunk all of which was read. -/
structure Fill.Whole (sz : Nat) (dev : Addr → Byte) (reads : List ClientRead) (f : Fill) :
    Prop where
  agree : ∀ j < sz, f.late j = false → f.query.buf j = chunkAt sz dev f.piece.id j
  fits : f.piece.inner + f.piece.len ≤ sz
  link : ∃ r, reads[f.rd]? = some r ∧ r.off + f.piece.pos = f.piece.id * sz + f.piece.inner ∧
    ∀ i < f.piece.len, f.late (f.piece.inner + i) = true → r.raced (f.piece.pos + i) = true

theorem tracked_initial {c : FlatLru Nat (Nat → Byte)} {disk : Disk} {seq : Nat} :
    Tracked sz ⟨disk, c, seq, [], [], false⟩ := by
  constructor <;> simp

/-- Writes that reach nothing but the bytes of `hit`. -/
def Front.Reaches (hit : Nat → Bool) (x : Front) (dev : Addr → Byte) : Prop :=
  ∀ a, hit a = false → dev (0, a) = x.disk.dev (0, a)

theorem tracked_mark (h : Tracked sz x) {disk : Disk} (hd : x.Reaches hit disk.dev) :
    Tracked sz ({ x with disk }.mark sz hit) := by
  constructor
  · intro g hg
    obtain ⟨f, hf, rfl⟩ := List.mem_map.mp hg
    have hs := h.fills f hf
    refine ⟨hs.shape, hs.clean, fun j hj ht hl => ?_, hs.fits, ?_⟩
    · obtain ⟨hl, hn⟩ := Bool.or_eq_false_iff.mp hl
      have ht : f.took j = true := ht
      refine (hs.agree j hj ht hl).trans (hd _ ?_).symm
      simpa [ht] using hn
    · obtain ⟨r, hr, hoff, hlate⟩ := hs.link
      refine ⟨_, List.getElem?_map.trans (congrArg _ hr), hoff, fun i hi hl => ?_⟩
      have haddr : r.off + (f.piece.pos + i) = f.piece.id * sz + (f.piece.inner + i) := by omega
      change (r.raced (f.piece.pos + i) || hit (r.off + (f.piece.pos + i))) = true
      rw [haddr, Bool.or_eq_true]
      obtain hl | hl := Bool.or_eq_true_iff.mp hl
      · exact .inl (hlate i hi hl)
      · exact .inr (Bool.and_eq_true_iff.mp hl).2
  · intro g hg
    obtain ⟨r, hr, rfl⟩ := List.mem_map.mp hg
    intro i hg hn
    obtain ⟨hn, hh⟩ := Bool.or_eq_false_iff.mp hn
    exact (h.reads r hr i hg hn).trans (hd _ hh).symm

/-- The reads may have more delivered. -/
def Extends (l l' : List ClientRead) : Prop :=
  ∀ (i : Nat) r, l[i]? = some r → ∃ r', l'[i]? = some r' ∧ r'.off = r.off ∧ r'.raced = r.raced

theorem sound_of_extends {l l' : List ClientRead} (h : f.Sound sz dev l) (hl : Extends l l') :
    f.Sound sz dev l' := by
  obtain ⟨r, hr, hoff, hlate⟩ := h.link
  obtain ⟨r', hr', hoff', hraced⟩ := hl _ r hr
  exact ⟨h.shape, h.clean, h.agree, h.fits, r', hr', hoff' ▸ hoff, hraced ▸ hlate⟩

theorem extends_deliver : Extends x.reads (x.deliver rd p chunk).reads := by
  intro i r hr
  rw [Front.deliver, List.getElem?_modify, hr]
  split
  · exact ⟨_, rfl, rfl, rfl⟩
  · exact ⟨_, rfl, rfl, rfl⟩

/-- A piece delivered is the backend's, but for the bytes writes raced for. -/
theorem tracked_deliver (h : Tracked sz x) {r₀ : ClientRead} (hr₀ : x.reads[rd]? = some r₀)
    (hc : ∀ i < p.len, r₀.raced (p.pos + i) = false →
      chunk (p.inner + i) = x.disk.dev (0, r₀.off + (p.pos + i))) :
    Tracked sz (x.deliver rd p chunk) := by
  refine ⟨fun f hf => sound_of_extends (h.fills f hf) extends_deliver, fun r hr => ?_⟩
  obtain ⟨i, hi⟩ := List.getElem?_of_mem hr
  rw [Front.deliver, List.getElem?_modify] at hi
  obtain ⟨r', hr', rfl⟩ := Option.map_eq_some_iff.mp hi
  have hs := h.reads r' (List.mem_of_getElem? hr')
  split
  · rename_i hrd
    subst hrd
    cases hr₀.symm.trans hr'
    intro i hg hn
    dsimp only at hg hn ⊢
    rw [overlay]
    split
    · rename_i hin
      obtain ⟨m, rfl⟩ := Nat.le.dest hin.1
      rw [Nat.add_sub_cancel_left]
      exact hc m (by omega) hn
    · rename_i hout
      refine hs i ?_ hn
      simpa [hout] using hg
  · exact hs

theorem tracked_congr (h : Tracked sz x) (hf : ∀ f ∈ y.fills, f ∈ x.fills) (hr : y.reads = x.reads)
    (hd : y.disk.dev = x.disk.dev) : Tracked sz y := by
  refine ⟨fun f hy => ?_, fun r hy => ?_⟩
  · rw [hr, hd]
    exact h.fills f (hf f hy)
  · rw [hd]
    exact h.reads r (hr ▸ hy)

theorem tracked_insert (h : Tracked sz x) : Tracked sz (x.insert sz cov f) :=
  tracked_congr h (fun _ => id) rfl rfl

theorem tracked_filled (h : Tracked sz x)
    (hw : f.query.err = 0 → f.Whole sz x.disk.dev x.reads) :
    Tracked sz (x.filled sz cov f t).1 := by
  unfold Front.filled
  split
  · exact h
  · rename_i he
    have hw := hw (by simpa using he)
    obtain ⟨r, hr, hoff, hlate⟩ := hw.link
    have hd : Tracked sz (x.deliver f.rd f.piece f.query.buf) := by
      refine tracked_deliver h hr fun i hi hn => ?_
      have hl : f.late (f.piece.inner + i) = false := by
        rw [Bool.eq_false_iff]
        intro hl
        rw [hlate i hi hl] at hn
        cases hn
      have hfits := hw.fits
      rw [hw.agree _ (by omega) hl, chunkAt]
      congr 2
      omega
    dsimp only
    split
    · exact tracked_insert hd
    · exact hd

/-- Where a query for a whole chunk reads. -/
def chunkLoc (sz k p : Nat) : Addr := (0, k * sz + p)

theorem fits_chunkSub : (chunkSub sz k).Fits (chunkLoc sz k) sz := by
  intro p hp
  simp only [chunkSub, Sub.Covers, Sub.addr, chunkLoc] at *
  exact ⟨by omega, by simp⟩

theorem injOn_chunkLoc : Set.InjOn (chunkLoc sz k) (Set.Iio sz) := by
  intro p _ q _ h
  have := congrArg Prod.snd h
  simp only [chunkLoc] at this
  omega

/-- A query for a chunk follows the backend from its submit on. -/
theorem follows_chunk {disk : Disk} :
    ((Query.read b).submit E (chunkSub sz k) disk).2.1.Follows (chunkLoc sz k) sz (fun _ => True)
      disk.dev := by
  have hdev : ((Query.read b).submit E (chunkSub sz k) disk).2.2.dev = disk.dev :=
    Query.dev_submit_of_read rfl
  rw [← hdev]
  refine Query.follows_submit (Query.follows_read b) fits_chunkSub injOn_chunkLoc ?_
  exact fun _ p hp _ => .inr ⟨Nat.zero_le p, by simpa [chunkSub] using hp⟩

theorem rej_of_accepts {q : Query} {disk : Disk} (ha : (E.beh q.write disk.next).Accepts)
    (hr : q.rej = 0) : (q.submit E s disk).1 = 0 ∧ (q.submit E s disk).2.1.rej = 0 := by
  have hcode : (q.submit E s disk).1 = 0 := by
    unfold Query.submit
    unfold Outcome.Accepts at ha
    split <;> simp_all
  rw [Query.rej_submit, if_pos hcode]
  exact ⟨hcode, hr⟩

/-- A query for a chunk that was accepted and ended without an error has the chunk. -/
theorem buf_chunk {q : Query} (hq : q.Follows (chunkLoc sz k) sz (fun _ => True) dev)
    (hr : q.rej = 0) (ho : q.ops = []) (he : q.err = 0) :
    ∀ j < sz, q.buf j = chunkAt sz dev k j := fun _ hj =>
  Query.agrees_of_ended hq ⟨hr, hq.code.mp he⟩ ho hj trivial

theorem held_submit {q : Query} {disk : Disk} (hq : q.ops = [])
    (ho : (q.submit E s disk).2.1.ops ≠ []) :
    q.submit E s disk = (0, { q with ops := [⟨s, fun _ => false⟩] }, ⟨disk.dev, disk.next + 1⟩) := by
  unfold Query.submit at *
  split at ho
  · exact absurd hq ho
  · rename_i hb
    simp [hq]
  · simp [hq] at ho

/-- The read for a chunk is made for a piece of read `rd`. -/
def Piece.Of (sz : Nat) (x : Front) (rd : Nat) (p : Blocks.Piece) : Prop :=
  p.inner + p.len ≤ sz ∧ ∃ r, x.reads[rd]? = some r ∧ r.off + p.pos = p.id * sz + p.inner

theorem tracked_readChunk (h : Tracked sz x) (hp : Piece.Of sz x rd p)
    (ha : (E.beh false x.disk.next).Accepts) :
    Tracked sz (x.readChunk sz E cov rd cid p t).2.1 := by
  obtain ⟨hfits, r, hr, hoff⟩ := hp
  have hdev := @Query.dev_submit_of_read E (Query.read (E.junk x.disk.next)) (chunkSub sz p.id)
    x.disk rfl
  have hlink : ∃ r, x.reads[rd]? = some r ∧ r.off + p.pos = p.id * sz + p.inner ∧
      ∀ i < p.len, false = true → r.raced (p.pos + i) = true := ⟨r, hr, hoff, fun _ _ hn => nomatch hn⟩
  have h' : Tracked sz { x with
      disk := ((Query.read (E.junk x.disk.next)).submit E (chunkSub sz p.id) x.disk).2.2 } :=
    tracked_congr h (fun _ => id) rfl hdev
  unfold Front.readChunk
  dsimp only
  split
  · rename_i ho
    refine tracked_filled h' fun he => ⟨fun j hj _ => ?_, hfits, hlink⟩
    have hbuf := buf_chunk follows_chunk (rej_of_accepts ha rfl).2 ho he j hj
    rw [hbuf]
    dsimp only
    rw [hdev]
  · rename_i ho
    have hheld := held_submit (q := Query.read (E.junk x.disk.next)) rfl ho
    refine ⟨fun f hf => ?_, h'.reads⟩
    obtain hf | hf := List.mem_append.mp hf
    · exact h'.fills f hf
    · cases List.mem_singleton.mp hf
      refine ⟨⟨_, by rw [hheld]⟩, by rw [hheld]; exact ⟨rfl, rfl⟩, fun j _ ht => ?_, hfits, hlink⟩
      simp [Fill.took, hheld] at ht

theorem size_find : (x.cache.find k).1.size = 0 ↔ x.cache.get k = none := by
  rw [FlatLru.view_find]
  cases x.cache.get k with
  | none => simp
  | some d => simp [x.cache.itemPos.ne']

theorem data_find {d : Option (Nat → Byte)} (h : x.cache.get k = some d) :
    (x.cache.find k).1.data = d := by
  rw [FlatLru.view_find, h]
  rfl

/-- What each piece of a read keeps, the read keeps. -/
theorem readLoop_keeps {P : Front → Prop}
    (hfind : ∀ x k, P x → P { x with cache := (x.cache.find k).2 })
    (hmiss : ∀ p ∈ ps, ∀ x t, P x → x.cache.get p.id = none →
      P (x.readChunk sz E cov rd cid p t).2.1)
    (hhit : ∀ p ∈ ps, ∀ x d, P x → x.cache.get p.id = some d →
      P (x.deliver rd p (d.getD (E.junk x.disk.next)))) (h : P x) :
    P (x.readLoop sz E cov rd cid ps t).2.1 := by
  induction ps generalizing x t with
  | nil => exact h
  | cons p ps ih =>
    have ih := fun y u => @ih y u (fun q hq => hmiss q (.tail _ hq)) fun q hq => hhit q (.tail _ hq)
    have hf := hfind x p.id h
    have hget : (x.cache.find p.id).2.get p.id = x.cache.get p.id := by rw [FlatLru.get_find]
    rw [Front.readLoop]
    split
    · rename_i hz
      have hm := hmiss p (.head _) _ t hf (hget.trans (size_find.mp hz))
      dsimp only
      split
      · exact ih _ _ hm
      · exact hm
    · rename_i hz
      cases hd : x.cache.get p.id with
      | none => exact absurd (size_find.mpr hd) hz
      | some d =>
        have hh := hhit p (.head _) _ d hf (hget.trans hd)
        rw [data_find hd]
        exact ih _ _ hh

theorem get_filled : ((x.filled sz cov f t).1.cache.get k = x.cache.get k) ∨
    (f.query.err = 0 ∧ f.seq = x.seq ∧
      (x.filled sz cov f t).1.cache = (x.cache.update f.piece.id (some f.query.buf)).2) := by
  unfold Front.filled
  split
  · exact .inl rfl
  · rename_i he
    by_cases hs : f.seq = x.seq
    · refine .inr ⟨by simpa using he, hs, ?_⟩
      have hs' : f.seq = (x.deliver f.rd f.piece f.query.buf).seq := hs
      simp only [if_pos hs']
      rfl
    · have hs' : f.seq ≠ (x.deliver f.rd f.piece f.query.buf).seq := hs
      simp only [if_neg hs']
      exact .inl rfl

theorem disk_filled : (x.filled sz cov f t).1.disk = x.disk := by
  unfold Front.filled
  dsimp only
  split
  · rfl
  · split <;> rfl

theorem fills_filled : (x.filled sz cov f t).1.fills = x.fills := by
  unfold Front.filled
  dsimp only
  split
  · rfl
  · split <;> rfl

theorem seq_filled : (x.filled sz cov f t).1.seq = x.seq := by
  unfold Front.filled
  dsimp only
  split
  · rfl
  · split <;> rfl

/-- What is cached once a chunk's query is destroyed was cached before, or is the chunk. -/
theorem cached_filled {d : Option (Nat → Byte)}
    (hk : (x.filled sz cov f t).1.cache.get k = some d) : x.cache.get k = some d ∨
      k = f.piece.id ∧ d = some f.query.buf ∧ f.query.err = 0 ∧ f.seq = x.seq := by
  obtain hg | ⟨he, hs, hc⟩ := @get_filled sz cov x t f k
  · exact .inl (hg ▸ hk)
  · rw [hc] at hk
    by_cases hkf : k = f.piece.id
    · subst hkf
      rw [FlatLru.get_update_self] at hk
      cases hk
      exact .inr ⟨rfl, rfl, he, hs⟩
    · obtain hn | hsame := FlatLru.get_update_of_ne (c := x.cache) (d := some f.query.buf) hkf
      · rw [hn] at hk
        cases hk
      · exact .inl (hsame ▸ hk)

theorem hits_filled (h : Hits sz cov x) (hb : f.query.err = 0 → f.seq = x.seq → ∀ j < sz,
    f.query.buf j = chunkAt sz x.disk.dev f.piece.id j ∨ cov (f.piece.id * sz + j) = true) :
    Hits sz cov (x.filled sz cov f t).1 := by
  intro k d hk
  rw [disk_filled]
  obtain hk | ⟨rfl, rfl, he, hs⟩ := cached_filled hk
  · exact h k d hk
  · exact ⟨_, rfl, hb he hs⟩

theorem hits_readChunk (h : Hits sz cov x) (ha : (E.beh false x.disk.next).Accepts) :
    Hits sz cov (x.readChunk sz E cov rd cid p t).2.1 := by
  have hdev := @Query.dev_submit_of_read E (Query.read (E.junk x.disk.next)) (chunkSub sz p.id)
    x.disk rfl
  have h' : Hits sz cov { x with
      disk := ((Query.read (E.junk x.disk.next)).submit E (chunkSub sz p.id) x.disk).2.2 } := by
    intro k d hk
    dsimp only
    rw [hdev]
    exact h k d hk
  unfold Front.readChunk
  dsimp only
  split
  · rename_i ho
    refine hits_filled h' fun he _ j hj => .inl ?_
    dsimp only
    rw [hdev]
    exact buf_chunk follows_chunk (rej_of_accepts ha rfl).2 ho he j hj
  · exact h'

theorem reads_filled : Extends x.reads (x.filled sz cov f t).1.reads := by
  unfold Front.filled
  split
  · exact fun _ r hr => ⟨r, hr, rfl, rfl⟩
  · dsimp only
    split
    · exact extends_deliver
    · exact extends_deliver

theorem reads_readChunk : Extends x.reads (x.readChunk sz E cov rd cid p t).2.1.reads := by
  unfold Front.readChunk
  dsimp only
  split
  · exact fun i r hr => reads_filled i r hr
  · exact fun _ r hr => ⟨r, hr, rfl, rfl⟩

theorem dev_readChunk : (x.readChunk sz E cov rd cid p t).2.1.disk.dev = x.disk.dev := by
  unfold Front.readChunk
  dsimp only
  split
  · rw [disk_filled]
    exact Query.dev_submit_of_read rfl
  · exact Query.dev_submit_of_read rfl

/-- A read is under way while its loop runs. -/
structure Reading (sz : Nat) (cov : Nat → Bool) (dev : Addr → Byte) (rd off : Nat) (x : Front) :
    Prop where
  tracked : Tracked sz x
  hits : Hits sz cov x
  dev : x.disk.dev = dev
  here : ∃ r, x.reads[rd]? = some r ∧ r.off = off ∧ ∀ i, cov (off + i) = true → r.raced i = true

theorem reading_readLoop (hE : ∀ i, (E.beh false i).Accepts)
    (hps : ∀ p ∈ ps, off + p.pos = p.id * sz + p.inner ∧ p.inner + p.len ≤ sz)
    (h : Reading sz cov dev rd off x) :
    Reading sz cov dev rd off (x.readLoop sz E cov rd cid ps t).2.1 := by
  refine readLoop_keeps ?_ ?_ ?_ h
  · intro y k hy
    refine ⟨tracked_congr hy.tracked (fun _ => id) rfl rfl, ?_, hy.dev, hy.here⟩
    intro k' d hk
    rw [FlatLru.get_find] at hk
    exact hy.hits k' d hk
  · intro p hp y u hy _
    obtain ⟨hoff, hfits⟩ := hps p hp
    obtain ⟨r, hr, hro, hraced⟩ := hy.here
    refine ⟨tracked_readChunk hy.tracked ⟨hfits, r, hr, hro ▸ hoff⟩ (hE _),
      hits_readChunk hy.hits (hE _), dev_readChunk.trans hy.dev, ?_⟩
    obtain ⟨r', hr', hoff', hraced'⟩ := reads_readChunk _ r hr
    exact ⟨r', hr', hoff'.trans hro, fun i hi => hraced' ▸ hraced i hi⟩
  · intro p hp y d hy hd
    obtain ⟨hoff, hfits⟩ := hps p hp
    obtain ⟨r, hr, hro, hraced⟩ := hy.here
    obtain ⟨b, rfl, hb⟩ := hy.hits p.id d hd
    refine ⟨tracked_deliver hy.tracked hr fun i hi hn => ?_, hy.hits, hy.dev, ?_⟩
    · have haddr : p.id * sz + (p.inner + i) = r.off + (p.pos + i) := by omega
      obtain hj | hj := hb (p.inner + i) (by omega)
      · rw [← haddr]
        exact hj
      · rw [haddr, hro] at hj
        rw [hraced _ hj] at hn
        cases hn
    · obtain ⟨r', hr', hoff', hraced'⟩ := extends_deliver _ r hr
      exact ⟨r', hr', hoff'.trans hro, fun i hi => hraced' ▸ hraced i hi⟩

theorem reading_read (hsz : 0 < sz) (hE : ∀ i, (E.beh false i).Accepts) {rg : Range}
    (h : Tracked sz x) (hh : Hits sz cov x) :
    Reading sz cov x.disk.dev x.reads.length rg.off (x.read sz E cov rg b t).1 := by
  refine reading_readLoop hE (fun p hp => ?_) ⟨⟨fun f hf => ?_, fun r hr => ?_⟩, hh, rfl, ?_⟩
  · obtain ⟨hoff, -, hfits, -⟩ := mem_readPieces hsz hp
    exact ⟨hoff, hfits⟩
  · refine sound_of_extends (h.fills f hf) fun i r hr => ⟨r, ?_, rfl, rfl⟩
    have hlt := (List.getElem?_eq_some_iff.mp hr).1
    exact (List.getElem?_append_left hlt).trans hr
  · obtain hr | hr := List.mem_append.mp hr
    · exact h.reads r hr
    · cases List.mem_singleton.mp hr
      intro i hg
      cases hg
  · exact ⟨_, List.getElem?_concat_length, rfl, fun _ => id⟩

theorem sample_cases (h : x.sample i hit = some y) : ∃ f q, x.fills[i]? = some f ∧
    f.query.effect 0 hit x.disk.dev = some q ∧
    y = { x with fills := x.fills.set i { f with query := q.1 } } := by
  obtain ⟨f, hf, h⟩ := Option.bind_eq_some_iff.mp h
  obtain ⟨q, hq, rfl⟩ := Option.map_eq_some_iff.mp h
  exact ⟨f, q, hf, hq, rfl⟩

/-- A byte that a chunk's query has when some of its bytes are read: one it had, or the backend's. -/
theorem sampled {v : Query} {took : Nat → Bool} {q : Query × (Addr → Byte)}
    (hops : v.ops = [⟨chunkSub sz k, took⟩]) (hw : v.write = false)
    (hq : v.effect 0 hit dev = some q) : q.1.write = false ∧ q.1.err = v.err ∧
      ∃ took', q.1.ops = [⟨chunkSub sz k, took'⟩] ∧ ∀ j < sz, took' j = true →
        took j = true ∧ q.1.buf j = v.buf j ∨ q.1.buf j = chunkAt sz dev k j := by
  obtain ⟨hwrite, -, herr, -⟩ := Query.effect_keeps hq
  obtain ⟨op, hop, hv, -⟩ := Query.effect_eq hq
  rw [hops] at hop
  cases hop
  refine ⟨hwrite.trans hw, herr, fun i => took i || hit i, by rw [hv, hops]; rfl, fun j hj ht => ?_⟩
  have hbuf : (v.carry (chunkSub sz k) (fun i => hit i && !took i) dev).1.buf j =
      if hit j = true ∧ took j = false then chunkAt sz dev k j else v.buf j := by
    simp [Query.carry, hw, Sub.Covers, Sub.addr, chunkSub, chunkAt, hj]
  rw [hv]
  dsimp only
  rw [hbuf]
  split
  · exact .inr rfl
  · rename_i hn
    refine .inl ⟨?_, rfl⟩
    by_contra htj
    have htj : took j = false := by simpa using htj
    have hh : hit j = true := (Bool.or_eq_true_iff.mp ht).resolve_left (by simp [htj])
    exact hn ⟨hh, htj⟩

theorem sound_sample {l : List ClientRead} {q : Query × (Addr → Byte)} (h : f.Sound sz dev l)
    (hq : f.query.effect 0 hit dev = some q) : Fill.Sound sz dev l { f with query := q.1 } := by
  obtain ⟨took, hops⟩ := h.shape
  obtain ⟨hw, he⟩ := h.clean
  obtain ⟨hwrite, herr, took', hops', hbytes⟩ := sampled hops hw hq
  refine ⟨⟨took', hops'⟩, ⟨hwrite, herr.trans he⟩, fun j hj ht hl => ?_, h.fits, h.link⟩
  have ht : took' j = true := by simpa [Fill.took, hops'] using ht
  obtain ⟨htook, hbuf⟩ | hbuf := hbytes j hj ht
  · exact hbuf.trans (h.agree j hj (by simp [Fill.took, hops, htook]) hl)
  · exact hbuf

theorem tracked_sample (h : Tracked sz x) (hs : x.sample i hit = some y) : Tracked sz y := by
  obtain ⟨f, q, hf, hq, rfl⟩ := sample_cases hs
  refine ⟨fun g hg => ?_, h.reads⟩
  obtain hg | rfl := List.mem_or_eq_of_mem_set hg
  · exact h.fills g hg
  · exact sound_sample (h.fills f (List.mem_of_getElem? hf)) hq

theorem settle_cases {z : Front × Requests} (h : x.settle sz cov i e t = some z) : ∃ f q,
    x.fills[i]? = some f ∧ f.query.settle 0 e = some q ∧
    z = { x with fills := x.fills.eraseIdx i }.filled sz cov { f with query := q } t := by
  obtain ⟨f, hf, h⟩ := Option.bind_eq_some_iff.mp h
  obtain ⟨q, hq, rfl⟩ := Option.map_eq_some_iff.mp h
  exact ⟨f, q, hf, hq, rfl⟩

/-- A chunk's query that completes without an error has read all of it. -/
theorem whole_settle {l : List ClientRead} {q : Query} (h : f.Sound sz dev l)
    (hq : f.query.settle 0 e = some q) :
    q.err = e ∧ (q.err = 0 → Fill.Whole sz dev l { f with query := q }) := by
  obtain ⟨took, hops⟩ := h.shape
  obtain ⟨hw, he⟩ := h.clean
  obtain ⟨op, hop, htook, rfl⟩ := Query.settle_eq hq
  rw [hops] at hop
  cases hop
  have herr : (({ f.query with ops := f.query.ops.eraseIdx 0 } : Query).setErr e).err = e := by
    unfold Query.setErr
    split
    · rename_i h₀
      exact he.trans h₀.symm
    · rfl
  refine ⟨herr, fun h₀ => ⟨fun j hj hl => ?_, h.fits, h.link⟩⟩
  have hall : took j = true := htook (herr.symm.trans h₀) j hj
  rw [Query.buf_setErr]
  exact h.agree j hj (by simp [Fill.took, hops, hall]) hl

theorem tracked_settle {z : Front × Requests} (h : Tracked sz x)
    (hs : x.settle sz cov i e t = some z) : Tracked sz z.1 := by
  obtain ⟨f, q, hf, hq, rfl⟩ := settle_cases hs
  have hf := h.fills f (List.mem_of_getElem? hf)
  have h' : Tracked sz { x with fills := x.fills.eraseIdx i } :=
    tracked_congr h (fun _ => List.mem_of_mem_eraseIdx) rfl rfl
  exact tracked_filled h' fun he => (whole_settle hf hq).2 he

/-- Chunks come into the cache only as the backend has them, with no write under way to them. -/
def Added (sz : Nat) (cov : Nat → Bool) (x y : Front) : Prop :=
  y.disk.dev = x.disk.dev ∧ ∀ k d, y.cache.get k = some d → x.cache.get k = some d ∨
    ∃ b, d = some b ∧ ∀ j < sz, b j = chunkAt sz x.disk.dev k j ∧ cov (k * sz + j) = false

theorem outdated_filled (h : (x.filled sz cov f t).1.outdated = false) : x.outdated = false ∧
    (f.query.err = 0 → f.seq = x.seq → ∀ j < sz, f.late j = false ∧
      cov (f.piece.id * sz + j) = false) := by
  unfold Front.filled at h
  split at h
  · rename_i he
    exact ⟨h, fun h₀ => absurd h₀ he⟩
  · dsimp only at h
    split at h
    · obtain ⟨ho, hany⟩ := Bool.or_eq_false_iff.mp h
      refine ⟨ho, fun _ _ j hj => ?_⟩
      have hj := List.any_eq_false.mp hany j (List.mem_range.mpr hj)
      simpa using hj
    · rename_i hs
      exact ⟨h, fun _ hn => absurd hn hs⟩

theorem added_filled (h : Added sz cov y x) (ho : (x.filled sz cov f t).1.outdated = false)
    (hb : f.query.err = 0 → ∀ j < sz, f.late j = false →
      f.query.buf j = chunkAt sz y.disk.dev f.piece.id j) :
    Added sz cov y (x.filled sz cov f t).1 := by
  refine ⟨by rw [disk_filled, h.1], fun k d hk => ?_⟩
  obtain hk | ⟨rfl, rfl, he, hs⟩ := cached_filled hk
  · exact h.2 k d hk
  · refine .inr ⟨_, rfl, fun j hj => ?_⟩
    obtain ⟨hl, hcov⟩ := (outdated_filled ho).2 he hs j hj
    exact ⟨hb he j hj hl, hcov⟩

theorem added_readChunk (h : Added sz cov y x) (ha : (E.beh false x.disk.next).Accepts)
    (ho : (x.readChunk sz E cov rd cid p t).2.1.outdated = false) :
    Added sz cov y (x.readChunk sz E cov rd cid p t).2.1 := by
  have hdev := @Query.dev_submit_of_read E (Query.read (E.junk x.disk.next)) (chunkSub sz p.id)
    x.disk rfl
  have h' : Added sz cov y { x with
      disk := ((Query.read (E.junk x.disk.next)).submit E (chunkSub sz p.id) x.disk).2.2 } :=
    ⟨hdev.trans h.1, h.2⟩
  unfold Front.readChunk at ho ⊢
  dsimp only at ho ⊢
  split at ho <;> rename_i hops
  · rw [if_pos hops]
    refine added_filled h' ho fun he j hj _ => ?_
    rw [← h.1]
    exact buf_chunk follows_chunk (rej_of_accepts ha rfl).2 hops he j hj
  · rw [if_neg hops]
    exact h'

theorem outdated_readChunk (h : (x.readChunk sz E cov rd cid p t).2.1.outdated = false) :
    x.outdated = false := by
  unfold Front.readChunk at h
  dsimp only at h
  split at h
  · exact (outdated_filled h).1
  · exact h

theorem added_read (hE : ∀ i, (E.beh false i).Accepts) {rg : Range}
    (ho : (x.read sz E cov rg b t).1.outdated = false) :
    Added sz cov x (x.read sz E cov rg b t).1 := by
  refine readLoop_keeps (P := fun y => y.outdated = false → Added sz cov x y) ?_ ?_ ?_ ?_ ho
  · intro y k h hy
    obtain ⟨hdev, hget⟩ := h hy
    exact ⟨hdev, fun k' d hk => hget k' d (by rwa [FlatLru.get_find] at hk)⟩
  · exact fun p _ y u h _ hy => added_readChunk (h (outdated_readChunk hy)) (hE _) hy
  · exact fun _ _ _ _ h _ => h
  · exact fun _ => ⟨rfl, fun _ _ => .inl⟩

theorem added_settle {z : Front × Requests} (h : Tracked sz x)
    (hs : x.settle sz cov i e t = some z) (ho : z.1.outdated = false) : Added sz cov x z.1 := by
  obtain ⟨f, q, hf, hq, rfl⟩ := settle_cases hs
  have hf := h.fills f (List.mem_of_getElem? hf)
  refine added_filled (x := { x with fills := x.fills.eraseIdx i }) ⟨rfl, fun _ _ => .inl⟩ ho ?_
  exact fun he j hj hl => ((whole_settle hf hq).2 he).agree j hj hl

end Ublk.Cache
