import Ublk.Cache.Delivery
import Ublk.Cache.Rwi
import Ublk.Lib.Runs

/-!
What `RWIHandler` has cached is what the backend has, but for bytes that a write under way covers.
-/
namespace Ublk.Cache

open Shared Requests Words

variable {sz n : Nat} {E : Env} {s t u : Rwi} {f : Fill} {w : Forward} {x y : Front} {i k a : Nat}
  {e : Int} {hit : Nat → Bool} {b : Nat → Byte} {rg : Range} {l : Rwi.Label}

/-- Rounding up comes to nothing, with numbers of 64 bits, or to enough. -/
theorem divRoundUp64_cases {z m : Nat} (hz : z ≤ 2 ^ 64) (h : divRoundUp64 (wrap z) sz = some m) :
    m = 0 ∨ z ≤ m * sz := by
  obtain ⟨_, hsz, h⟩ := Option.bind_eq_some_iff.mp h
  have hsz : 0 < sz := by
    unfold expects at hsz
    split at hsz
    · omega
    · cases hsz
  cases h
  have hv : sub (wrap (wrap z + sz)) 1 < sz ∨ sub (wrap (wrap z + sz)) 1 = z + sz - 1 := by
    unfold sub wrap
    omega
  obtain hv | hv := hv
  · exact .inl (Nat.div_eq_of_lt hv)
  · refine .inr ?_
    rw [hv]
    have hdiv := Nat.div_add_mod' (z + sz - 1) sz
    have hmod := Nat.mod_lt (z + sz - 1) hsz
    omega

/-- A write handed on is under way, and its completer is to drop the chunks it covers. -/
structure Forward.Sound (sz : Nat) (w : Forward) : Prop where
  shape : ∃ took, w.query.ops = [⟨⟨0, w.off, 0, w.len⟩, took⟩]
  write : w.query.write = true
  first : w.chunkIdFirst = w.off / sz
  last : w.chunkIdLast = 0 ∨ w.off + w.len ≤ w.chunkIdLast * sz

/-- A fill that is late is of no use any more, or the write that came between is under way. -/
def Fill.Timely (sz : Nat) (cov : Nat → Bool) (seq : Nat) (f : Fill) : Prop :=
  f.seq ≤ seq ∧ ∀ j < sz, f.late j = true → f.seq = seq → cov (f.piece.id * sz + j) = true

structure Rwi.Inv (sz : Nat) (s : Rwi) : Prop where
  tracked : Tracked sz s.front
  hits : Hits sz s.cov s.front
  timely : ∀ f ∈ s.front.fills, f.Timely sz s.cov s.front.seq
  forwards : ∀ w ∈ s.forwards, w.Sound sz
  delivers : Delivers (fun _ _ => False) s.front s.reqs

theorem cov_iff : s.cov a = true ↔ ∃ w ∈ s.forwards, w.Covers a := by
  simp [Rwi.cov]

theorem timely_mono {cov cov' : Nat → Bool} {m : Nat} (h : f.Timely sz cov m)
    (hc : ∀ a, cov a = true → cov' a = true) : f.Timely sz cov' m :=
  ⟨h.1, fun j hj hl hs => hc _ (h.2 j hj hl hs)⟩

theorem hits_mono {cov cov' : Nat → Bool} (h : Hits sz cov x)
    (hc : ∀ a, cov a = true → cov' a = true) : Hits sz cov' x := by
  intro k d hk
  obtain ⟨b, rfl, hb⟩ := h k d hk
  exact ⟨b, rfl, fun j hj => (hb j hj).imp_right (hc _)⟩

/-- A write changes only bytes that it covers, and so do its effects on what is known of reads. -/
theorem inv_mark (h : s.Inv sz) {disk : Disk} (hd : s.front.Reaches hit disk.dev)
    (hc : ∀ a, hit a = true → s.cov a = true) :
    Rwi.Inv sz { s with front := { s.front with disk }.mark sz hit } := by
  refine ⟨tracked_mark h.tracked hd, fun k d hk => ?_, fun g hg => ?_, h.forwards,
    delivers_mark (delivers_congr h.delivers rfl rfl)⟩
  · obtain ⟨b, rfl, hb⟩ := h.hits k d hk
    refine ⟨b, rfl, fun j hj => ?_⟩
    cases hh : hit (k * sz + j) with
    | true => exact .inr (hc _ hh)
    | false => exact (hb j hj).imp_left fun hb => hb.trans (hd _ hh).symm
  · obtain ⟨f, hf, rfl⟩ := List.mem_map.mp hg
    obtain ⟨hle, hlate⟩ := h.timely f hf
    refine ⟨hle, fun j hj hl hs => ?_⟩
    obtain hl | hl := Bool.or_eq_true_iff.mp hl
    · exact hlate j hj hl hs
    · exact hc _ (Bool.and_eq_true_iff.mp hl).2

/-- A write under way completes. -/
theorem inv_complete (h : s.Inv sz) (hw : w.chunkIdFirst = w.off / sz)
    (hl : w.chunkIdLast = 0 ∨ w.off + w.len ≤ w.chunkIdLast * sz) {ws : List Forward}
    (hws : ∀ a, s.cov a = true → w.Covers a ∨ Rwi.cov { s with forwards := ws } a = true)
    (hsub : ∀ v ∈ ws, v ∈ s.forwards)
    (hs : Rwi.complete w { s with forwards := ws } = some t) : t.Inv sz := by
  obtain ⟨cache, hcache, hs⟩ := Option.bind_eq_some_iff.mp hs
  cases hs
  have hlast : w.off + w.len ≤ w.chunkIdLast * sz := by
    refine hl.resolve_left fun h₀ => ?_
    unfold FlatLru.invalidateRange at hcache
    rw [h₀, if_neg (Nat.not_lt_zero _)] at hcache
    cases hcache
  have hgrows : Grows s.reqs ((s.reqs.setErr w.cid w.query.err).drop w.cid) :=
    grows_trans grows_setErr grows_drop
  refine ⟨tracked_congr h.tracked (fun _ => id) rfl rfl, fun k d hk => ?_, fun f hf => ?_,
    fun v hv => h.forwards v (hsub v hv),
    delivers_grows (delivers_congr h.delivers rfl rfl) hgrows⟩
  · dsimp only at hk
    rw [FlatLru.get_invalidateRange hcache] at hk
    split at hk
    · cases hk
    · rename_i hout
      obtain ⟨b, rfl, hb⟩ := h.hits k d hk
      refine ⟨b, rfl, fun j hj => (hb j hj).imp_right fun hc => ?_⟩
      refine (hws _ hc).resolve_left fun ⟨hlo, hhi⟩ => hout ⟨?_, ?_⟩
      · rw [hw, ← @Blocks.div_block _ k _ hj]
        exact Nat.div_le_div_right hlo
      · have hlt : k * sz < w.chunkIdLast * sz := by omega
        exact Nat.lt_of_mul_lt_mul_right hlt
  · have hle := (h.timely f hf).1
    refine ⟨by dsimp only; omega, fun j hj _ hs => ?_⟩
    dsimp only at hs
    omega

/-- A read leaves the count of writes, and its own fills are not late. -/
theorem timely_read {cov : Nat → Bool} {t : Requests}
    (h : ∀ f ∈ x.fills, f.Timely sz cov x.seq) :
    ∀ f ∈ (x.read sz E cov rg b t).1.fills, f.Timely sz cov (x.read sz E cov rg b t).1.seq := by
  refine readLoop_keeps (P := fun x => ∀ f ∈ x.fills, f.Timely sz cov x.seq) ?_ ?_ ?_ h
  · exact fun _ _ h => h
  · intro p _ x t h _
    unfold Front.readChunk
    dsimp only
    split
    · rw [fills_filled, seq_filled]
      exact h
    · intro f hf
      obtain hf | hf := List.mem_append.mp hf
      · exact h f hf
      · cases List.mem_singleton.mp hf
        exact ⟨Nat.le_refl _, fun _ _ hl => nomatch hl⟩
  · exact fun _ _ _ _ h _ => h

theorem inv_read (hsz : 0 < sz) (hE : ∀ i, (E.beh false i).Accepts) (h : s.Inv sz) :
    Rwi.Inv sz { s with
      front := (s.front.read sz E s.cov rg b s.reqs).1
      reqs := (s.front.read sz E s.cov rg b s.reqs).2 } := by
  have hr := @reading_read sz E s.cov s.front s.reqs b hsz hE rg h.tracked h.hits
  exact ⟨hr.tracked, hr.hits, timely_read h.timely, h.forwards, delivers_read hsz hE h.delivers⟩

theorem inv_sample (h : s.Inv sz) (hs : s.front.sample i hit = some y) :
    Rwi.Inv sz { s with front := y } := by
  have ht := tracked_sample h.tracked hs
  have hdel := delivers_sample h.delivers hs
  obtain ⟨f, q, hf, -, rfl⟩ := sample_cases hs
  refine ⟨ht, h.hits, fun g hg => ?_, h.forwards, hdel⟩
  obtain hg | rfl := List.mem_or_eq_of_mem_set hg
  · exact h.timely g hg
  · exact h.timely f (List.mem_of_getElem? hf)

theorem inv_settle {z : Front × Requests} (h : s.Inv sz)
    (hs : s.front.settle sz s.cov i e s.reqs = some z) :
    Rwi.Inv sz { s with front := z.1, reqs := z.2 } := by
  have ht := tracked_settle h.tracked hs
  have hdel := delivers_settle h.delivers hs
  obtain ⟨f, q, hf, hq, rfl⟩ := settle_cases hs
  have hmem := List.mem_of_getElem? hf
  refine ⟨ht, ?_, fun g hg => ?_, h.forwards, hdel⟩
  · refine hits_filled (x := { s.front with fills := s.front.fills.eraseIdx i }) h.hits ?_
    intro he hseq j hj
    have hw := (whole_settle (h.tracked.fills f hmem) hq).2 he
    cases hl : f.late j with
    | false => exact .inl (hw.agree j hj hl)
    | true => exact .inr ((h.timely f hmem).2 j hj hl hseq)
  · dsimp only at hg ⊢
    rw [fills_filled] at hg
    rw [seq_filled]
    exact h.timely g (List.mem_of_mem_eraseIdx hg)

theorem inv_forward (h : s.Inv sz) (hw : w.Sound sz) :
    Rwi.Inv sz { s with forwards := s.forwards ++ [w] } := by
  have hc : ∀ a, s.cov a = true → Rwi.cov { s with forwards := s.forwards ++ [w] } a = true := by
    intro a ha
    obtain ⟨v, hv, hcov⟩ := cov_iff.mp ha
    exact cov_iff.mpr ⟨v, List.mem_append_left _ hv, hcov⟩
  refine ⟨h.tracked, hits_mono h.hits hc, fun f hf => timely_mono (h.timely f hf) hc, fun v hv => ?_,
    h.delivers⟩
  obtain hv | hv := List.mem_append.mp hv
  · exact h.forwards v hv
  · cases List.mem_singleton.mp hv
    exact hw

theorem inv_reqs (h : s.Inv sz) {reqs : Requests} (hg : Grows s.reqs reqs)
    (ws : List (Range × (Nat → Byte))) : Rwi.Inv sz { s with reqs, written := ws } :=
  ⟨h.tracked, h.hits, h.timely, h.forwards, delivers_grows h.delivers hg⟩

theorem covers_of_lands {o : Outcome} (h : o.lands ⟨0, w.off, 0, w.len⟩ a = true) : w.Covers a := by
  unfold Outcome.lands at h
  split at h
  · exact of_decide_eq_true (Bool.and_eq_true_iff.mp h).1
  · cases h

theorem inv_write (h : s.Inv sz) (hs : s.write sz E rg b = some t) : t.Inv sz := by
  obtain ⟨last, v, hlast, -, hv, rfl⟩ := Rwi.write_cases hs
  have hlast := divRoundUp64_cases rg.top hlast
  let sub : Sub := ⟨0, rg.off, 0, rg.len⟩
  -- the write counts as under way while its submit runs
  let w : Forward := ⟨s.reqs.count, rg.off, rg.len, rg.off / sz, last,
    { Query.writing b with ops := [⟨sub, fun _ => false⟩] }⟩
  have hw : w.Sound sz := ⟨⟨_, rfl⟩, rfl, rfl, hlast⟩
  have hgrows : Grows s.reqs (s.reqs.create.share s.reqs.count) :=
    grows_trans grows_create grows_share
  have hu := inv_forward (inv_reqs h hgrows (s.written ++ [(rg, b)])) hw
  have hreach : s.front.Reaches (fun a => (E.beh true s.front.disk.next).lands sub a)
      ((Query.writing b).submit E sub s.front.disk).2.2.dev :=
    fun a ha => Query.dev_of_not_lands ha
  have hmark := inv_mark hu hreach
    fun a ha => cov_iff.mpr ⟨w, List.mem_append_right _ (.head _), covers_of_lands (w := w) ha⟩
  suffices hi : v.Inv sz by
    exact inv_reqs hi grows_returned v.written
  unfold Rwi.forward at hv
  split at hv
  · refine inv_complete hmark rfl hlast (fun a ha => ?_) (fun v => List.mem_append_left _) hv
    obtain ⟨v, hv, hcov⟩ := cov_iff.mp ha
    obtain hv | hv := List.mem_append.mp hv
    · exact .inr (cov_iff.mpr ⟨v, hv, hcov⟩)
    · cases List.mem_singleton.mp hv
      exact .inl hcov
  · rename_i ho
    cases hv
    have hheld := held_submit (q := Query.writing b) rfl ho
    rw [hheld] at hmark ⊢
    exact hmark

theorem covers_of_lands_op {hit : Nat → Bool} (hw : w.Sound sz)
    (h : (w.query.ops.any fun op => op.lands hit a) = true) : w.Covers a := by
  obtain ⟨took, hops⟩ := hw.shape
  rw [hops, List.any_cons, List.any_nil, Bool.or_false, Op.lands] at h
  exact of_decide_eq_true (Bool.and_eq_true_iff.mp h).1

theorem inv_apply (h : s.Inv sz) (hs : s.step sz E (.apply i hit) = some t) : t.Inv sz := by
  obtain ⟨w, hw, hs⟩ := Option.bind_eq_some_iff.mp hs
  obtain ⟨q, hq, hs⟩ := Option.bind_eq_some_iff.mp hs
  cases hs
  have hlt := (List.getElem?_eq_some_iff.mp hw).1
  have hmem := List.mem_of_getElem? hw
  have hsound := h.forwards w hmem
  have hreach : s.front.Reaches (fun a => w.query.ops.any (·.lands hit a))
      ({ s.front.disk with dev := q.2 } : Disk).dev :=
    fun a ha => Query.dev_of_not_lands_effect hq ha
  have hmark := inv_mark h hreach
    fun a ha => cov_iff.mpr ⟨w, hmem, covers_of_lands_op hsound ha⟩
  have hc : ∀ a, s.cov a = true →
      Rwi.cov { s with forwards := s.forwards.set i { w with query := q.1 } } a = true := by
    intro a ha
    obtain ⟨v, hv, hcov⟩ := cov_iff.mp ha
    obtain ⟨m, hm⟩ := List.getElem?_of_mem hv
    by_cases hmi : m = i
    · subst hmi
      cases hw.symm.trans hm
      exact cov_iff.mpr ⟨_, List.mem_of_getElem? (List.getElem?_set_self hlt), hcov⟩
    · exact cov_iff.mpr ⟨v, List.mem_of_getElem? (i := m)
        (by rw [List.getElem?_set_ne (Ne.symm hmi), hm]), hcov⟩
  refine ⟨hmark.tracked, hits_mono hmark.hits hc, fun f hf => timely_mono (hmark.timely f hf) hc,
    fun v hv => ?_, hmark.delivers⟩
  obtain hv | rfl := List.mem_or_eq_of_mem_set hv
  · exact h.forwards v hv
  · obtain ⟨took, hops⟩ := hsound.shape
    obtain ⟨q, dev⟩ := q
    obtain ⟨op, hop, rfl, -⟩ := Query.effect_eq hq
    rw [hops] at hop
    cases hop
    refine ⟨⟨_, by simp only [hops]; rfl⟩, ?_, hsound.first, hsound.last⟩
    simpa using hsound.write

theorem inv_step (hsz : 0 < sz) (hE : ∀ c i, (E.beh c i).Accepts) (h : s.Inv sz)
    (hs : s.step sz E l = some t) : t.Inv sz := by
  cases l with
  | read r buf =>
    cases hs
    exact inv_read hsz (hE false) h
  | write r src => exact inv_write h hs
  | sample i hit =>
    obtain ⟨y, hy, rfl⟩ := Option.map_eq_some_iff.mp hs
    exact inv_sample h hy
  | apply i hit => exact inv_apply h hs
  | settle i e =>
    obtain ⟨z, hz, rfl⟩ := Option.map_eq_some_iff.mp hs
    exact inv_settle h hz
  | complete i e =>
    obtain ⟨w, hw, hs⟩ := Option.bind_eq_some_iff.mp hs
    obtain ⟨q, hq, hs⟩ := Option.bind_eq_some_iff.mp hs
    obtain ⟨hlt, heq⟩ := List.getElem?_eq_some_iff.mp hw
    have hsound := h.forwards w (List.mem_of_getElem? hw)
    refine inv_complete (w := { w with query := q }) h hsound.first hsound.last (fun a ha => ?_)
      (fun v => List.mem_of_mem_eraseIdx) hs
    obtain ⟨v, hv, hcov⟩ := cov_iff.mp ha
    obtain rfl | hv := List.mem_cons.mp ((List.getElem_cons_eraseIdx_perm hlt).mem_iff.mpr hv)
    · rw [heq] at hcov
      exact .inl hcov
    · exact .inr (cov_iff.mpr ⟨v, hv, hcov⟩)

variable {hn : 0 < n} {hsz : 0 < sz} {dev₀ : Addr → Byte}

theorem inv_initial : (Rwi.initial n sz hn hsz dev₀).Inv sz := by
  refine ⟨tracked_initial, fun k d hk => ?_, ?_, ?_, ?_⟩
  · cases hk
  · simp [Rwi.initial]
  · simp [Rwi.initial]
  · constructor <;> simp [Rwi.initial]

/-- The states that `RWIHandler` reaches. -/
abbrev Rwi.Reached (E : Env) (n sz : Nat) (hn : 0 < n) (hsz : 0 < sz) (dev₀ : Addr → Byte)
    (s : Rwi) : Prop :=
  Lts.Run (Rwi.step sz E) (fun _ _ => True) (Rwi.initial n sz hn hsz dev₀) s

theorem inv_of_reached (hE : ∀ c i, (E.beh c i).Accepts) (h : Rwi.Reached E n sz hn hsz dev₀ s) :
    s.Inv sz :=
  Lts.run_invariant h inv_initial fun _ _ _ hi _ hs => inv_step hsz hE hi hs

/-- A cached byte is the backend's unless a write under way covers it. A read that is over without
an error has the backend's bytes, but for those that a write was under way to when the read came
or reached since. -/
theorem invalidated_of_reached (hE : ∀ c i, (E.beh c i).Accepts)
    (h : Rwi.Reached E n sz hn hsz dev₀ s) :
    (∀ k d, s.front.cache.get k = some d → ∃ b, d = some b ∧ ∀ j < sz,
      b j = s.front.disk.dev (0, k * sz + j) ∨ ∃ w ∈ s.forwards, w.Covers (k * sz + j)) ∧
    ∀ rd r, s.front.reads[rd]? = some r → (∀ f ∈ s.front.fills, f.rd ≠ rd) →
      (s.reqs.req r.cid).err = 0 → ∀ i < r.len, r.raced i = false →
      r.buf i = s.front.disk.dev (0, r.off + i) := by
  have hinv := inv_of_reached hE h
  constructor
  · intro k d hk
    obtain ⟨b, rfl, hb⟩ := hinv.hits k d hk
    exact ⟨b, rfl, fun j hj => (hb j hj).imp_right cov_iff.mp⟩
  · intro rd r hr hf he i hi hn
    have hgot : r.got i = true := by
      rcases hinv.delivers.bytes rd r hr i hi with hg | ⟨f, hfill, hrd, -⟩ | hne | hw
      · exact hg
      · exact absurd hrd (hf f hfill)
      · exact absurd he hne
      · exact hw.elim
    exact hinv.tracked.reads r (List.mem_of_getElem? hr) i hgot hn

/-- A handler that keeps what is submitted. -/
def keeping : Env where
  beh _ _ := .held
  junk _ _ := 0

theorem two_le_top : 0 + 2 ≤ 2 ^ 64 := by decide

/-- Two bytes are read, then read again from the cache. -/
def readTwice : List Rwi.Label :=
  [.read ⟨0, 2, Nat.two_pos, two_le_top⟩ (fun _ => 0), .sample 0 fun _ => true, .settle 0 0,
    .read ⟨0, 2, Nat.two_pos, two_le_top⟩ fun _ => 0]

theorem invalidated_of_reached_readTwice : ∃ s : Rwi,
    Lts.exec (Rwi.step 2 keeping)
      (Rwi.initial 1 2 (by decide) (by decide) fun a => if a.2 = 1 then ⟨7⟩ else 0) readTwice =
      some s ∧ ∃ r, s.front.reads[1]? = some r ∧ ∀ i < 2, r.buf i = s.front.disk.dev (0, i) := by
  obtain ⟨s, r, hs, hr, hfills, herr, hoff, hlen, hraced⟩ : ∃ s r, Lts.exec (Rwi.step 2 keeping)
      (Rwi.initial 1 2 (by decide) (by decide) fun a => if a.2 = 1 then ⟨7⟩ else 0) readTwice =
      some s ∧ s.front.reads[1]? = some r ∧ s.front.fills = [] ∧ (s.reqs.req r.cid).err = 0 ∧
      r.off = 0 ∧ r.len = 2 ∧ ∀ i, r.raced i = false :=
    ⟨_, _, rfl, rfl, rfl, rfl, rfl, rfl, fun _ => rfl⟩
  have hE : ∀ c i, (keeping.beh c i).Accepts := fun _ _ => trivial
  have hrun := Lts.run_of_exec (fun _ _ _ => trivial) hs
  have hall := (invalidated_of_reached hE hrun).2 1 r hr (fun f hf => by simp [hfills] at hf) herr
  rw [hoff, hlen] at hall
  exact ⟨s, hs, r, hr, fun i hi => by simpa using hall i hi (hraced i)⟩

end Ublk.Cache
