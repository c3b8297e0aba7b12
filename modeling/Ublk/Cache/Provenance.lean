import Ublk.Cache.Shares

/-!
Where the bytes of the cache come from. As long as no read of a chunk is turned down, what is cached
and what reads return was had by the handler below at its place or written there by a client.
-/
namespace Ublk.Cache

open Shared Requests

variable {sz : Nat} {E : Env} {cov hit : Nat → Bool} {x y : Front} {t : Requests} {f : Fill}
  {p : Blocks.Piece} {ps : List Blocks.Piece} {dev : Addr → Byte} {disk : Disk} {v v' : Query}
  {i k rd cid off : Nat} {e : Int} {chunk b : Nat → Byte} {K : Nat → Byte → Prop} {rg : Range}

/-- Chunk `k` has bytes that `K` allows at their places. -/
def Allowed (K : Nat → Byte → Prop) (sz k : Nat) (b : Nat → Byte) : Prop :=
  ∀ j < sz, K (k * sz + j) (b j)

/-- The query for chunk `k` is under way, and what it has read is allowed. -/
structure ChunkRead (K : Nat → Byte → Prop) (sz k : Nat) (v : Query) : Prop where
  clean : v.write = false ∧ v.err = 0
  shape : ∃ took, v.ops = [⟨chunkSub sz k, took⟩] ∧
    ∀ j < sz, took j = true → K (k * sz + j) (v.buf j)

/-- What the handler below has is allowed. -/
def Sourced (K : Nat → Byte → Prop) (dev : Addr → Byte) : Prop := ∀ a, K a (dev (0, a))

theorem chunkRead_sample (hd : Sourced K dev) (h : ChunkRead K sz k v) {q : Query × (Addr → Byte)}
    (hq : v.effect 0 hit dev = some q) : ChunkRead K sz k q.1 := by
  obtain ⟨took, hops, hbytes⟩ := h.shape
  obtain ⟨hwrite, herr, took', hops', hbytes'⟩ := sampled hops h.clean.1 hq
  refine ⟨⟨hwrite, herr.trans h.clean.2⟩, took', hops', fun j hj ht => ?_⟩
  obtain ⟨htook, hbuf⟩ | hbuf := hbytes' j hj ht
  · rw [hbuf]
    exact hbytes j hj htook
  · rw [hbuf]
    exact hd _

theorem chunkRead_settle (h : ChunkRead K sz k v) (hq : v.settle 0 e = some v') :
    v'.ops = [] ∧ v'.err = e ∧ (e = 0 → Allowed K sz k v'.buf) := by
  obtain ⟨took, hops, hbytes⟩ := h.shape
  obtain ⟨op, hop, htook, rfl⟩ := Query.settle_eq hq
  rw [hops] at hop
  cases hop
  refine ⟨by simp [hops], ?_, fun he j hj => ?_⟩
  · unfold Query.setErr
    split
    · rename_i he
      exact h.clean.2.trans he.symm
    · rfl
  · rw [Query.buf_setErr]
    exact hbytes j hj (htook he j hj)

theorem chunkRead_submit (hd : Sourced K disk.dev) (ha : (E.beh false disk.next).Accepts) :
    (((Query.read b).submit E (chunkSub sz k) disk).2.1.ops ≠ [] →
      ChunkRead K sz k ((Query.read b).submit E (chunkSub sz k) disk).2.1) ∧
    (((Query.read b).submit E (chunkSub sz k) disk).2.1.ops = [] →
      ((Query.read b).submit E (chunkSub sz k) disk).2.1.err = 0 →
      Allowed K sz k ((Query.read b).submit E (chunkSub sz k) disk).2.1.buf) := by
  constructor
  · intro ho
    rw [held_submit rfl ho]
    exact ⟨⟨rfl, rfl⟩, _, rfl, fun j _ ht => nomatch ht⟩
  · intro ho he j hj
    have hdev : ((Query.read b).submit E (chunkSub sz k) disk).2.2.dev = disk.dev :=
      Query.dev_submit_of_read rfl
    rw [buf_chunk follows_chunk (rej_of_accepts ha rfl).2 ho he j hj]
    exact hd _

structure Fill.Genuine (K : Nat → Byte → Prop) (sz : Nat) (reads : List ClientRead) (f : Fill) :
    Prop where
  read : ChunkRead K sz f.piece.id f.query
  fits : f.piece.inner + f.piece.len ≤ sz
  link : ∃ r, reads[f.rd]? = some r ∧ r.off + f.piece.pos = f.piece.id * sz + f.piece.inner

/-- All bytes are allowed at their places: those below, those cached, those being read and those
that reads returned. -/
structure Front.Genuine (K : Nat → Byte → Prop) (sz : Nat) (x : Front) : Prop where
  below : Sourced K x.disk.dev
  cached : ∀ k d, x.cache.get k = some d → ∃ b, d = some b ∧ Allowed K sz k b
  fills : ∀ f ∈ x.fills, f.Genuine K sz x.reads
  reads : ∀ r ∈ x.reads, ∀ i, r.got i = true → K (r.off + i) (r.buf i)

/-- Chunks leave the cache at most. -/
theorem genuine_congr (h : x.Genuine K sz) (hd : y.disk.dev = x.disk.dev)
    (hc : ∀ k, y.cache.get k = none ∨ y.cache.get k = x.cache.get k)
    (hf : ∀ f ∈ y.fills, f ∈ x.fills) (hr : y.reads = x.reads) : y.Genuine K sz := by
  refine ⟨hd ▸ h.below, fun k d hk => ?_, fun f hy => hr ▸ h.fills f (hf f hy),
    fun r hy => h.reads r (hr ▸ hy)⟩
  obtain hn | he := hc k
  · rw [hn] at hk
    cases hk
  · exact h.cached k d (he ▸ hk)

/-- A chunk with bytes that are allowed comes into the cache. -/
theorem genuine_update (h : x.Genuine K sz) (hb : Allowed K sz k b) {seq : Nat} {o : Bool} :
    Front.Genuine K sz { x with
      cache := (x.cache.update k (some b)).2, seq, outdated := o } := by
  refine ⟨h.below, fun k' d hk => ?_, h.fills, h.reads⟩
  dsimp only at hk
  by_cases hkk : k' = k
  · subst hkk
    rw [FlatLru.get_update_self] at hk
    cases hk
    exact ⟨b, rfl, hb⟩
  · obtain hn | hsame := FlatLru.get_update_of_ne (c := x.cache) (d := some b) hkk
    · rw [hn] at hk
      cases hk
    · exact h.cached k' d (hsame ▸ hk)

theorem genuine_mark (h : x.Genuine K sz) (hd : Sourced K disk.dev) :
    ({ x with disk }.mark sz hit).Genuine K sz := by
  refine ⟨hd, h.cached, fun g hg => ?_, fun g hg => ?_⟩
  · obtain ⟨f, hf, rfl⟩ := List.mem_map.mp hg
    have hs := h.fills f hf
    obtain ⟨r, hr, hoff⟩ := hs.link
    exact ⟨hs.read, hs.fits, _, List.getElem?_map.trans (congrArg _ hr), hoff⟩
  · obtain ⟨r, hr, rfl⟩ := List.mem_map.mp hg
    exact h.reads r hr

theorem genuine_of_extends {l l' : List ClientRead} (h : f.Genuine K sz l) (hl : Extends l l') :
    f.Genuine K sz l' := by
  obtain ⟨r, hr, hoff⟩ := h.link
  obtain ⟨r', hr', hoff', -⟩ := hl _ r hr
  exact ⟨h.read, h.fits, r', hr', hoff' ▸ hoff⟩

/-- The piece of a chunk is for read `rd`. -/
theorem genuine_deliver (h : x.Genuine K sz) (hp : Piece.Of sz x rd p)
    (hc : Allowed K sz p.id chunk) : (x.deliver rd p chunk).Genuine K sz := by
  obtain ⟨hfits, r₀, hr₀, hoff⟩ := hp
  refine ⟨h.below, h.cached, fun f hf => genuine_of_extends (h.fills f hf) extends_deliver,
    fun r hr => ?_⟩
  obtain ⟨i, hi⟩ := List.getElem?_of_mem hr
  rw [getElem?_deliver] at hi
  obtain ⟨r', hr', rfl⟩ := Option.map_eq_some_iff.mp hi
  have hs := h.reads r' (List.mem_of_getElem? hr')
  split
  · rename_i hrd
    subst hrd
    cases hr₀.symm.trans hr'
    intro m hg
    dsimp only at hg ⊢
    rw [overlay]
    split
    · rename_i hin
      have hj := hc (p.inner + (m - p.pos)) (by omega)
      rwa [show p.id * sz + (p.inner + (m - p.pos)) = r₀.off + m by omega] at hj
    · rename_i hout
      exact hs m (by simpa [hout] using hg)
  · exact hs

theorem genuine_filled (h : x.Genuine K sz) (hp : Piece.Of sz x f.rd f.piece)
    (hb : f.query.err = 0 → Allowed K sz f.piece.id f.query.buf) :
    (x.filled sz cov f t).1.Genuine K sz := by
  unfold Front.filled
  split
  · exact h
  · rename_i he
    have hb := hb (by simpa using he)
    have hd := genuine_deliver h hp hb
    dsimp only
    split
    · exact genuine_update hd hb
    · exact hd

theorem genuine_readChunk (h : x.Genuine K sz) (hp : Piece.Of sz x rd p)
    (ha : (E.beh false x.disk.next).Accepts) :
    (x.readChunk sz E cov rd cid p t).2.1.Genuine K sz := by
  have hdev := @Query.dev_submit_of_read E (Query.read (E.junk x.disk.next)) (chunkSub sz p.id)
    x.disk rfl
  obtain ⟨hheld, hdone⟩ := @chunkRead_submit sz E x.disk p.id (E.junk x.disk.next) K h.below ha
  have h' : Front.Genuine K sz { x with
      disk := ((Query.read (E.junk x.disk.next)).submit E (chunkSub sz p.id) x.disk).2.2 } :=
    genuine_congr h hdev (fun _ => .inr rfl) (fun _ => id) rfl
  unfold Front.readChunk
  dsimp only
  split
  · rename_i ho
    exact genuine_filled h' hp (hdone ho)
  · rename_i ho
    refine ⟨h'.below, h'.cached, fun f hf => ?_, h'.reads⟩
    obtain hf | hf := List.mem_append.mp hf
    · exact h'.fills f hf
    · cases List.mem_singleton.mp hf
      exact ⟨hheld ho, hp.1, hp.2⟩

theorem genuine_readLoop (hE : ∀ i, (E.beh false i).Accepts)
    (hps : ∀ p ∈ ps, off + p.pos = p.id * sz + p.inner ∧ p.inner + p.len ≤ sz)
    (hr : ∃ r, x.reads[rd]? = some r ∧ r.off = off) (h : x.Genuine K sz) :
    (x.readLoop sz E cov rd cid ps t).2.1.Genuine K sz := by
  refine And.left (readLoop_keeps
    (P := fun y => y.Genuine K sz ∧ ∃ r, y.reads[rd]? = some r ∧ r.off = off) ?_ ?_ ?_ ⟨h, hr⟩)
  · rintro y k ⟨hy, hr⟩
    exact ⟨genuine_congr hy rfl (fun _ => .inr (congrFun FlatLru.get_find _)) (fun _ => id) rfl, hr⟩
  · rintro p hp y u ⟨hy, r, hr, hro⟩ -
    obtain ⟨hoff, hfits⟩ := hps p hp
    obtain ⟨r', hr', hoff', -⟩ := @reads_readChunk sz E cov y u p rd cid rd r hr
    exact ⟨genuine_readChunk hy ⟨hfits, r, hr, hro ▸ hoff⟩ (hE _), r', hr', hoff'.trans hro⟩
  · rintro p hp y d ⟨hy, r, hr, hro⟩ hd
    obtain ⟨hoff, hfits⟩ := hps p hp
    obtain ⟨b, rfl, hb⟩ := hy.cached p.id d hd
    obtain ⟨r', hr', hoff', -⟩ := @extends_deliver y p rd b rd r hr
    exact ⟨genuine_deliver hy ⟨hfits, r, hr, hro ▸ hoff⟩ hb, r', hr', hoff'.trans hro⟩

theorem genuine_read (hsz : 0 < sz) (hE : ∀ i, (E.beh false i).Accepts) (h : x.Genuine K sz) :
    (x.read sz E cov rg b t).1.Genuine K sz := by
  refine genuine_readLoop hE (fun p hp => ?_) ⟨_, List.getElem?_concat_length, rfl⟩
    ⟨h.below, h.cached, fun f hf => ?_, fun r hr => ?_⟩
  · obtain ⟨hoff, -, hfits, -⟩ := mem_readPieces hsz hp
    exact ⟨hoff, hfits⟩
  · refine genuine_of_extends (h.fills f hf) fun i r hr => ⟨r, ?_, rfl, rfl⟩
    have hlt := (List.getElem?_eq_some_iff.mp hr).1
    exact (List.getElem?_append_left hlt).trans hr
  · obtain hr | hr := List.mem_append.mp hr
    · exact h.reads r hr
    · cases List.mem_singleton.mp hr
      intro i hg
      cases hg

theorem genuine_sample (h : x.Genuine K sz) (hs : x.sample i hit = some y) : y.Genuine K sz := by
  obtain ⟨f, q, hf, hq, rfl⟩ := sample_cases hs
  refine ⟨h.below, h.cached, fun g hg => ?_, h.reads⟩
  obtain hg | rfl := List.mem_or_eq_of_mem_set hg
  · exact h.fills g hg
  · have hgen := h.fills f (List.mem_of_getElem? hf)
    exact ⟨chunkRead_sample h.below hgen.read hq, hgen.fits, hgen.link⟩

theorem genuine_settle {z : Front × Requests} (h : x.Genuine K sz)
    (hs : x.settle sz cov i e t = some z) : z.1.Genuine K sz := by
  obtain ⟨f, q, hf, hq, rfl⟩ := settle_cases hs
  have hgen := h.fills f (List.mem_of_getElem? hf)
  obtain ⟨-, herr, hbytes⟩ := chunkRead_settle hgen.read hq
  have h' : Front.Genuine K sz { x with fills := x.fills.eraseIdx i } :=
    genuine_congr h rfl (fun _ => .inr rfl) (fun _ => List.mem_of_mem_eraseIdx) rfl
  exact genuine_filled h' ⟨hgen.fits, hgen.link⟩ fun he => hbytes (herr.symm.trans he)

/-- The bytes that a write of `s` would bring are allowed. -/
def Brings (K : Nat → Byte → Prop) (s : Sub) (v : Query) : Prop :=
  v.write = true → ∀ i < s.len, K (s.off + i) (v.buf (s.pos + i))

theorem sourced_carry (hd : Sourced K dev) {s : Sub} (hb : Brings K s v) :
    Sourced K (v.carry s hit dev).2 := by
  intro a
  unfold Query.carry
  split
  · rename_i hw
    dsimp only
    split
    · rename_i hin
      have hbyte := hb hw (a - s.off) (by omega)
      rwa [show s.off + (a - s.off) = a by omega] at hbyte
    · exact hd a
  · exact hd a

theorem sourced_submit {s : Sub} (hd : Sourced K disk.dev) (hb : Brings K s v) :
    Sourced K (v.submit E s disk).2.2.dev := by
  unfold Query.submit
  split
  · exact hd
  · exact hd
  · exact sourced_carry hd hb

/-- The bytes that a query has yet to write are allowed. -/
def Bearing (K : Nat → Byte → Prop) (v : Query) : Prop := ∀ op ∈ v.ops, Brings K op.sub v

theorem bearing_nil (h : v.ops = []) : Bearing K v := fun op hop => by
  rw [h] at hop
  cases hop

theorem bearing_writing {s : Sub} (hb : Brings K s (Query.writing b)) :
    Bearing K ((Query.writing b).submit E s disk).2.1 := by
  by_cases ho : ((Query.writing b).submit E s disk).2.1.ops = []
  · exact bearing_nil ho
  · rw [held_submit (q := Query.writing b) rfl ho]
    intro op hop
    cases List.mem_singleton.mp hop
    exact hb

theorem sourced_effect {q : Query × (Addr → Byte)} (hd : Sourced K dev) (hv : Bearing K v)
    (hq : v.effect k hit dev = some q) : Sourced K q.2 := by
  obtain ⟨op, hop, rfl⟩ := Option.map_eq_some_iff.mp hq
  exact sourced_carry hd (hv op (List.mem_of_getElem? hop))

theorem bearing_effect {q : Query × (Addr → Byte)} (hv : Bearing K v)
    (hq : v.effect k hit dev = some q) : Bearing K q.1 := by
  obtain ⟨hwrite, -, -, -, -, hbuf⟩ := Query.effect_keeps hq
  obtain ⟨op, hop, hops, -⟩ := Query.effect_eq hq
  intro op' hop' hw
  rw [hwrite] at hw
  rw [hbuf hw]
  dsimp only at hops hop'
  rw [hops] at hop'
  obtain hop' | rfl := List.mem_or_eq_of_mem_set hop'
  · exact hv op' hop' hw
  · exact hv op (List.mem_of_getElem? hop) hw

theorem bearing_settle (hv : Bearing K v) (hq : v.settle k e = some v') : Bearing K v' := by
  obtain ⟨op, -, -, rfl⟩ := Query.settle_eq hq
  intro op' hop' hw
  rw [Query.ops_setErr] at hop'
  rw [Query.write_setErr] at hw
  rw [Query.buf_setErr]
  exact hv op' (List.mem_of_mem_eraseIdx hop') hw

/-- Chunks come into the cache only as the handler below has them. -/
def Brought (sz : Nat) (x y : Front) : Prop :=
  y.disk.dev = x.disk.dev ∧ ∀ k d, y.cache.get k = some d → x.cache.get k = some d ∨
    ∃ b, d = some b ∧ ∀ j < sz, b j = chunkAt sz x.disk.dev k j

theorem brought_readChunk (h : Brought sz y x) (ha : (E.beh false x.disk.next).Accepts) :
    Brought sz y (x.readChunk sz E cov rd cid p t).2.1 := by
  refine ⟨dev_readChunk.trans h.1, fun k d hk => ?_⟩
  unfold Front.readChunk at hk
  dsimp only at hk
  split at hk
  · rename_i ho
    obtain hk | ⟨rfl, rfl, he, -⟩ := cached_filled hk
    · exact h.2 k d hk
    · refine .inr ⟨_, rfl, fun j hj => ?_⟩
      dsimp only
      rw [← h.1]
      exact buf_chunk follows_chunk (rej_of_accepts ha rfl).2 ho he j hj
  · exact h.2 k d hk

theorem brought_read (hE : ∀ i, (E.beh false i).Accepts) :
    Brought sz x (x.read sz E cov rg b t).1 := by
  refine readLoop_keeps (P := fun y => Brought sz x y) ?_ ?_ ?_ ?_
  · rintro y k ⟨hdev, hget⟩
    exact ⟨hdev, fun k' d hk => hget k' d (by rwa [FlatLru.get_find] at hk)⟩
  · exact fun p _ y u h _ => brought_readChunk h (hE _)
  · exact fun _ _ _ _ h _ => h
  · exact ⟨rfl, fun _ _ => .inl⟩

theorem next_readChunk : (x.readChunk sz E cov rd cid p t).2.1.disk.next = x.disk.next + 1 := by
  unfold Front.readChunk
  dsimp only
  split
  · rw [disk_filled]
    exact Query.next_submit
  · exact Query.next_submit

theorem err_filled (he : f.query.err ≠ 0) : (x.filled sz cov f t).1 = x ∧
    ((x.filled sz cov f t).2.req f.cid).err ≠ 0 := by
  unfold Front.filled
  rw [if_pos he]
  refine ⟨rfl, ?_⟩
  rw [err_drop, err_setErr, if_pos ⟨rfl, he⟩]
  exact he

theorem failed_submit {s : Sub} (hb : E.beh false disk.next = .done e hit) (he : e ≠ 0) :
    ((Query.read b).submit E s disk).2.1.ops = [] ∧
      ((Query.read b).submit E s disk).2.1.err ≠ 0 := by
  have hb : E.beh (Query.read b).write disk.next = .done e hit := hb
  unfold Query.submit
  rw [hb]
  simp [Query.setErr, he, Query.read]

/-- The query of a chunk fails at once. -/
theorem err_readChunk (hb : E.beh false x.disk.next = .done e hit) (he : e ≠ 0) :
    ((x.readChunk sz E cov rd cid p t).2.2.req cid).err ≠ 0 := by
  obtain ⟨ho, herr⟩ :=
    @failed_submit E hit x.disk e (E.junk x.disk.next) (chunkSub sz p.id) hb he
  unfold Front.readChunk
  dsimp only
  rw [if_pos ho]
  exact (@err_filled sz cov _ (t.share cid) ⟨rd, cid, p, x.seq, _, fun _ => false⟩ herr).2

theorem grows_readLoop : t.Grows (x.readLoop sz E cov rd cid ps t).2.2 :=
  readLoop_both (P := fun _ u => t.Grows u) (fun _ _ _ h => h)
    (fun _ _ _ h => grows_trans h grows_readChunk) (fun _ _ _ _ h => h) grows_refl

/-- A read one of whose submits fails at once has an error. -/
theorem err_readLoop (hE : ∀ i, (E.beh false i).Accepts) {m : Nat} (hc : cid < t.count)
    (hm : x.disk.next ≤ m) (hlt : m < (x.readLoop sz E cov rd cid ps t).2.1.disk.next)
    (hb : E.beh false m = .done e hit) (he : e ≠ 0) :
    ((x.readLoop sz E cov rd cid ps t).2.2.req cid).err ≠ 0 := by
  induction ps generalizing x t with
  | nil => exact absurd hlt (Nat.not_lt.mpr hm)
  | cons p ps ih =>
    rw [Front.readLoop] at hlt ⊢
    dsimp only at hlt ⊢
    split at hlt
    · rename_i hz
      have hcode := @code_readChunk sz E cov { x with cache := (x.cache.find p.id).2 } t p rd cid
        (hE _)
      rw [if_pos hcode] at hlt
      rw [if_pos hz, if_pos hcode]
      have hgrows := @grows_readChunk sz E cov { x with cache := (x.cache.find p.id).2 } t p rd cid
      have hc' := Nat.lt_of_lt_of_le hc hgrows.1
      by_cases hnow : m = x.disk.next
      · subst hnow
        have herr := @err_readChunk sz E cov hit { x with cache := (x.cache.find p.id).2 } t p rd
          cid e hb he
        exact grows_readLoop.2 cid hc' herr
      · refine ih hc' ?_ hlt
        rw [next_readChunk]
        dsimp only
        omega
    · rename_i hz
      rw [if_neg hz]
      exact ih hc hm hlt

theorem err_read (hE : ∀ i, (E.beh false i).Accepts) {m : Nat} (hm : x.disk.next ≤ m)
    (hlt : m < (x.read sz E cov rg b t).1.disk.next) (hb : E.beh false m = .done e hit)
    (he : e ≠ 0) : ((x.read sz E cov rg b t).2.req t.count).err ≠ 0 := by
  have hc : t.count < t.create.count := Nat.lt_succ_self _
  unfold Front.read at hlt ⊢
  dsimp only at hlt ⊢
  have herr := err_readLoop hE hc (by exact hm) hlt hb he
  exact grows_returned.2 _ (Nat.lt_of_lt_of_le hc grows_readLoop.1) herr

theorem count_read : t.count < (x.read sz E cov rg b t).2.count := by
  have hc : t.count < t.create.count := Nat.lt_succ_self _
  exact Nat.lt_of_lt_of_le (Nat.lt_of_lt_of_le hc grows_readLoop.1) grows_returned.1

/-- A chunk that cannot be read leaves the cache and the handler below alone. -/
theorem failed_settle {z : Front × Requests} (hf : x.fills[i]? = some f)
    (hs : x.settle sz cov i e t = some z) (he : e ≠ 0) :
    z.1.cache = x.cache ∧ z.1.disk = x.disk ∧ (z.2.req f.cid).err ≠ 0 := by
  obtain ⟨f', q, hf', hq, rfl⟩ := settle_cases hs
  cases hf.symm.trans hf'
  have hne : q.err ≠ 0 := by
    obtain ⟨op, -, -, rfl⟩ := Query.settle_eq hq
    simp [Query.setErr, he]
  obtain ⟨hfront, herr⟩ := @err_filled sz cov { x with fills := x.fills.eraseIdx i } t
    { f with query := q } hne
  exact ⟨by rw [hfront], by rw [hfront], herr⟩

end Ublk.Cache
