import Ublk.Cache.Invalidation
import Ublk.Cache.OneRead

/-!
One write by itself through `RWIHandler`, with nothing that fails below: the handler below gets its
bytes, and the chunks it touches are dropped.
-/
namespace Ublk.Cache

open Shared Requests Words

variable {sz : Nat} {E : Env} {x : Front} {s t : Rwi} {w : Forward} {q q' : Query} {i k a : Nat}
  {e : Int} {hit : Nat → Bool} {src : Nat → Byte} {dev dev' dev₀ : Addr → Byte} {rg : Range}
  {l : Rwi.Label}

/-- What is cached is what `dev` has. -/
def Mirrors (sz : Nat) (dev : Addr → Byte) (c : FlatLru Nat (Nat → Byte)) : Prop :=
  ∀ k d, c.get k = some d → ∃ b, d = some b ∧ ∀ j < sz, b j = chunkAt sz dev k j

theorem hits_iff_mirrors : Hits sz (fun _ => false) x ↔ Mirrors sz x.disk.dev x.cache := by
  simp only [Hits, Mirrors, Bool.false_eq_true, or_false]

def forwardLoc (rg : Range) (p : Nat) : Addr := (0, rg.off + p)

def forwardSub (rg : Range) : Sub := ⟨0, rg.off, 0, rg.len⟩

theorem fits_forwardSub : (forwardSub rg).Fits (forwardLoc rg) rg.len := by
  intro p hp
  simp only [forwardSub, Sub.Covers, Sub.addr, forwardLoc] at *
  exact ⟨by omega, by simp⟩

theorem injOn_forwardLoc : Set.InjOn (forwardLoc rg) (Set.Iio rg.len) := by
  intro p _ q _ h
  have := congrArg Prod.snd h
  simp only [forwardLoc] at this
  omega

/-- The chunks that a write touches, with no wrap in the number of the last. -/
theorem chunks_of_range (hsz : 0 < sz) (hr : rg.off + rg.len + sz ≤ 2 ^ 64) :
    divRoundUp64 (wrap (rg.off + rg.len)) sz = some ((rg.off + rg.len + sz - 1) / sz) ∧
      rg.off / sz < (rg.off + rg.len + sz - 1) / sz ∧
      rg.off + rg.len ≤ (rg.off + rg.len + sz - 1) / sz * sz := by
  have hpos := rg.pos
  refine ⟨?_, ?_, ?_⟩
  · rw [wrap_of_lt (by omega), divRoundUp64_of_le (by omega) hsz hr]
  · calc rg.off / sz < (rg.off + sz) / sz := by rw [Nat.add_div_right _ hsz]; omega
      _ ≤ (rg.off + rg.len + sz - 1) / sz := Nat.div_le_div_right (by omega)
  · have hdiv := Nat.div_add_mod' (rg.off + rg.len + sz - 1) sz
    have hmod := Nat.mod_lt (rg.off + rg.len + sz - 1) hsz
    omega

/-- The write of `src` to `rg`: its query, and what it has brought below so far. -/
structure Carrying (rg : Range) (src : Nat → Byte) (dev₀ dev : Addr → Byte) (q : Query) : Prop where
  write : q.write = true ∧ q.buf = src ∧ q.Clean
  follows : q.Follows (forwardLoc rg) rg.len (fun _ => True) dev
  apart : ∀ a, ¬ (rg.off ≤ a ∧ a < rg.off + rg.len) → dev (0, a) = dev₀ (0, a)

theorem forwardLoc_ne (ha : ¬ (rg.off ≤ a ∧ a < rg.off + rg.len)) :
    ∀ p < rg.len, forwardLoc rg p ≠ (0, a) := by
  intro p hp he
  have := congrArg Prod.snd he
  simp only [forwardLoc] at this
  omega

theorem carrying_submit {d : Disk} (hE : ∀ i, (E.beh true i).Succeeds) :
    ((Query.writing src).submit E (forwardSub rg) d).1 = 0 ∧
      Carrying rg src d.dev ((Query.writing src).submit E (forwardSub rg) d).2.2.dev
        ((Query.writing src).submit E (forwardSub rg) d).2.1 := by
  obtain ⟨hcode, hclean⟩ := Query.clean_submit (s := forwardSub rg) (d := d)
    (q := Query.writing src) (hE _) ⟨rfl, rfl⟩
  refine ⟨hcode, ⟨Query.write_submit, Query.buf_submit_of_write rfl, hclean⟩, ?_, fun a ha => ?_⟩
  · refine Query.follows_submit (Query.follows_writing src) fits_forwardSub injOn_forwardLoc ?_
    exact fun _ p hp _ => .inr ⟨Nat.zero_le p, by simpa [forwardSub] using hp⟩
  · exact Query.submit_elsewhere fits_forwardSub (forwardLoc_ne ha)

theorem carrying_effect (h : Carrying rg src dev₀ dev q) (he : q.effect 0 hit dev = some (q', dev')) :
    Carrying rg src dev₀ dev' q' := by
  obtain ⟨hwrite, hrej, -, hbad, -, hbuf⟩ := Query.effect_keeps he
  refine ⟨⟨hwrite.trans h.write.1, (hbuf h.write.1).trans h.write.2.1, hrej.trans h.write.2.2.1,
    hbad.trans h.write.2.2.2⟩, Query.follows_effect h.follows injOn_forwardLoc he, fun a ha => ?_⟩
  exact (Query.effect_elsewhere h.follows he (forwardLoc_ne ha)).trans (h.apart a ha)

theorem carrying_settle (h : Carrying rg src dev₀ dev q) (hs : q.settle 0 0 = some q') :
    Carrying rg src dev₀ dev q' := by
  obtain ⟨-, hwrite, hrej, hbuf, hbad⟩ := Query.settle_keeps hs
  exact ⟨⟨hwrite.trans h.write.1, hbuf.trans h.write.2.1, hrej.trans h.write.2.2.1,
    hbad.mpr ⟨rfl, h.write.2.2.2⟩⟩, Query.follows_settle h.follows hs, h.apart⟩

/-- A write that is over has its bytes below. -/
theorem dev_of_carrying (h : Carrying rg src dev₀ dev q) (ho : q.ops = []) :
    dev (0, a) = overlay (fun a => dev₀ (0, a)) rg.off rg.len src a := by
  unfold overlay
  split
  · rename_i hin
    obtain ⟨m, rfl⟩ := Nat.le.dest hin.1
    rw [Nat.add_sub_cancel_left, ← h.write.2.1]
    exact (Query.agrees_of_ended h.follows h.write.2.2 ho (by omega) trivial).symm
  · exact h.apart a ‹_›

/-- When the chunks of the write are dropped, the others are as the handler below has them. -/
theorem mirrors_invalidateRange {c c' : FlatLru Nat (Nat → Byte)} {lo hi : Nat}
    (hc : Mirrors sz dev₀ c) (hcar : Carrying rg src dev₀ dev q) (hlo : lo = rg.off / sz)
    (hhi : rg.off + rg.len ≤ hi * sz) (hinv : c.invalidateRange lo hi = some c') :
    Mirrors sz dev c' := by
  intro k d hk
  rw [FlatLru.get_invalidateRange hinv] at hk
  split at hk
  · cases hk
  · rename_i hout
    obtain ⟨b, rfl, hb⟩ := hc k d hk
    refine ⟨b, rfl, fun j hj => (hb j hj).trans (hcar.apart _ fun ⟨hge, hlt⟩ => hout ⟨?_, ?_⟩).symm⟩
    · rw [hlo, ← @Blocks.div_block _ k _ hj]
      exact Nat.div_le_div_right hge
    · have hlt : k * sz < hi * sz := by omega
      exact Nat.lt_of_mul_lt_mul_right hlt

namespace Rwi

/-- The holders of request 0. -/
def only (n c : Nat) : Nat := if c = 0 then n else 0

/-- The client was told of a success, with `n` holders of its request left. -/
structure Told (n : Nat) (t : Requests) : Prop where
  balanced : t.Balanced (only n) none
  unfailing : Unfailing t
  ret : (t.req 0).ret = some 0
  there : 0 < t.count

/-- The write is under way. -/
structure Forwarding (sz : Nat) (dev₀ : Addr → Byte) (rg : Range) (src : Nat → Byte) (w : Forward)
    (s : Rwi) : Prop where
  one : s.forwards = [w]
  made : w.cid = 0 ∧ w.chunkIdFirst = rg.off / sz ∧
    w.chunkIdLast = (rg.off + rg.len + sz - 1) / sz
  shape : ∃ took, w.query.ops = [⟨forwardSub rg, took⟩]
  carrying : Carrying rg src dev₀ s.front.disk.dev w.query
  mirrors : Mirrors sz dev₀ s.front.cache
  alone : s.front.fills = []
  told : Told 1 s.reqs

/-- The write is over. -/
structure Over (sz : Nat) (dev₀ : Addr → Byte) (rg : Range) (src : Nat → Byte) (s : Rwi) : Prop where
  none : s.forwards = []
  dev : ∀ a, s.front.disk.dev (0, a) = overlay (fun a => dev₀ (0, a)) rg.off rg.len src a
  mirrors : Mirrors sz s.front.disk.dev s.front.cache
  alone : s.front.fills = []
  told : Told 0 s.reqs

theorem told_drop (h : Told 1 u) : Told 0 (u.drop 0) :=
  ⟨balanced_drop h.balanced fun d => by simp [only], unfailing_drop h.unfailing, by simpa using h.ret,
    by simpa using h.there⟩

/-- The completer of a write finds chunks to drop. -/
theorem complete_of_carrying (hsz : 0 < sz) (hr : rg.off + rg.len + sz ≤ 2 ^ 64)
    (hm : w.cid = 0 ∧ w.chunkIdFirst = rg.off / sz ∧ w.chunkIdLast = (rg.off + rg.len + sz - 1) / sz)
    (hc : Carrying rg src dev₀ s.front.disk.dev w.query)
    (hx : Mirrors sz dev₀ s.front.cache) : ∃ cache,
      s.complete w = some { s with
        front := { s.front with cache, seq := s.front.seq + 1 }, reqs := s.reqs.drop 0 } ∧
      Mirrors sz s.front.disk.dev cache := by
  obtain ⟨-, hlt, hend⟩ := chunks_of_range hsz hr
  obtain ⟨hcid, hfirst, hlast⟩ := hm
  obtain ⟨cache, hcache⟩ : ∃ cache, s.front.cache.invalidateRange w.chunkIdFirst w.chunkIdLast =
      some cache := by
    rw [hfirst, hlast, FlatLru.invalidateRange, if_pos hlt]
    exact ⟨_, rfl⟩
  have herr : w.query.err = 0 := hc.follows.code.mpr hc.write.2.2.2
  refine ⟨cache, ?_, mirrors_invalidateRange hx hc hfirst (hlast ▸ hend) hcache⟩
  simp [complete, hcache, hcid, herr, setErr]

theorem balanced_made : (((empty.create).share 0).Balanced (only 2) (some 0)) := by
  have hcreate : (empty.create).Balanced (only 1) (some 0) :=
    balanced_create balanced_empty fun d => (Nat.zero_add _).symm
  refine balanced_share hcreate (by simp [only]) fun d => ?_
  unfold only
  split <;> rfl

/-- The call that handed the write on returns. -/
theorem told_returned {n : Nat} (h : u.Balanced (only (n + 1)) (some 0)) (hu : Unfailing u)
    (ht : 0 < u.count) : Told n (u.returned 0 0) := by
  refine ⟨balanced_returned h fun d => ?_, unfailing_returned hu, ret_returned, by simpa using ht⟩
  unfold only
  split <;> rfl

theorem forwarding_write (hsz : 0 < sz) (hm : E.movesFirst = false)
    (hE : ∀ i, (E.beh true i).Succeeds) (hr : rg.off + rg.len + sz ≤ 2 ^ 64) (hf : x.fills = [])
    (hx : Mirrors sz x.disk.dev x.cache) : ∃ s, Rwi.write sz E rg src ⟨x, [], .empty, []⟩ = some s ∧
      ((∃ w, Forwarding sz x.disk.dev rg src w s) ∨ Over sz x.disk.dev rg src s) := by
  obtain ⟨hchunks, -, -⟩ := chunks_of_range hsz hr
  obtain ⟨hcode, hcar⟩ := @carrying_submit E src rg x.disk hE
  have hunfailing : Unfailing ((empty.create).share 0) :=
    unfailing_share (unfailing_create fun _ => rfl)
  let q := (Query.writing src).submit E (forwardSub rg) x.disk
  let w : Forward := ⟨0, rg.off, rg.len, rg.off / sz, (rg.off + rg.len + sz - 1) / sz, q.2.1⟩
  let y : Front := { x with disk := q.2.2 }.mark sz fun a =>
    (E.beh true x.disk.next).lands (forwardSub rg) a
  let s₁ : Rwi := ⟨y, [], (empty.create).share 0, [(rg, src)]⟩
  have hwrite : Rwi.write sz E rg src ⟨x, [], .empty, []⟩ =
      (s₁.forward w).map fun s => { s with reqs := s.reqs.returned 0 0 } := by
    have hguard : (guard (E.movesFirst = false) : Option Unit) = some () := if_pos hm
    rw [Rwi.write, hchunks, hguard]
    change (s₁.forward w).bind (fun s => some { s with reqs := s.reqs.returned 0 q.1 }) = _
    rw [hcode]
    cases s₁.forward w <;> rfl
  have hfills : y.fills = [] := by simp [y, Front.mark, hf]
  rw [hwrite, forward]
  split
  · rename_i ho
    obtain ⟨cache, hdone, hmirrors⟩ :=
      complete_of_carrying (s := s₁) (w := w) hsz hr ⟨rfl, rfl, rfl⟩ hcar hx
    rw [hdone]
    refine ⟨_, rfl, .inr ⟨rfl, fun a => dev_of_carrying hcar ho, hmirrors, hfills, ?_⟩⟩
    refine told_returned (u := (empty.create.share 0).drop 0) ?_ (unfailing_drop hunfailing)
      (by simp)
    refine balanced_drop balanced_made fun d => ?_
    unfold only
    split <;> rfl
  · rename_i ho
    refine ⟨_, rfl, .inl ⟨w, rfl, ⟨rfl, rfl, rfl⟩, ?_, hcar, hx, hfills, ?_⟩⟩
    · have hheld := held_submit (q := Query.writing src) rfl ho
      exact ⟨_, congrArg (fun r => r.2.1.ops) hheld⟩
    · exact told_returned balanced_made hunfailing (by simp)

theorem settle_none (hf : x.fills = []) {cov : Nat → Bool} {u : Requests} :
    x.settle sz cov i e u = none := by
  simp [Front.settle, hf]

theorem sample_none (hf : x.fills = []) : x.sample i hit = none := by
  simp [Front.sample, hf]

/-- A step of the write under way. -/
theorem forwarding_step (hsz : 0 < sz) (hr : rg.off + rg.len + sz ≤ 2 ^ 64)
    (h : Forwarding sz dev₀ rg src w s) (hl : ∀ i e, l = .complete i e → e = 0)
    (hn : ∀ q, Rwi.ask q ≠ l) : ¬ s.Stops sz E l ∧ ∀ t, s.step sz E l = some t →
      (∃ w, Forwarding sz dev₀ rg src w t) ∨ Over sz dev₀ rg src t := by
  cases l with
  | read r buf => exact absurd rfl (hn (.read r buf))
  | write r src => exact absurd rfl (hn (.write r src))
  | sample i hit => simp [Stops, step, sample_none h.alone]
  | settle i e => simp [Stops, step, settle_none h.alone]
  | apply i hit =>
    refine ⟨fun hs => hs, fun t hs => .inl ?_⟩
    obtain ⟨v, hv, hs⟩ := Option.bind_eq_some_iff.mp hs
    obtain ⟨⟨q, dev⟩, hq, hs⟩ := Option.bind_eq_some_iff.mp hs
    cases hs
    rw [h.one] at hv
    obtain ⟨rfl, rfl⟩ : i = 0 ∧ w = v := by
      cases i with
      | zero => exact ⟨rfl, by simpa using hv⟩
      | succ i => simp at hv
    obtain ⟨took, hops⟩ := h.shape
    have hcar := carrying_effect h.carrying hq
    refine ⟨{ w with query := q }, by simp [h.one], h.made, ?_, hcar, h.mirrors, ?_, h.told⟩
    · obtain ⟨op, hop, rfl, -⟩ := Query.effect_eq hq
      rw [hops] at hop
      cases hop
      exact ⟨_, by simp only [hops]; rfl⟩
    · simp [Front.mark, h.alone]
  | complete i e =>
    obtain rfl := hl i e rfl
    have hdone : ∀ (i : Nat) v (q : Query), s.forwards[i]? = some v → v.query.settle 0 0 = some q →
        ∃ t, Rwi.complete { v with query := q } { s with forwards := s.forwards.eraseIdx i } =
          some t ∧ Over sz dev₀ rg src t := by
      intro i v q hv hq
      rw [h.one] at hv
      obtain ⟨rfl, rfl⟩ : i = 0 ∧ w = v := by
        cases i with
        | zero => exact ⟨rfl, by simpa using hv⟩
        | succ i => simp at hv
      have hcar := carrying_settle h.carrying hq
      obtain ⟨cache, hcomplete, hmirrors⟩ :=
        complete_of_carrying (s := { s with forwards := s.forwards.eraseIdx 0 })
          (w := { w with query := q }) hsz hr h.made hcar h.mirrors
      have ho : q.ops = [] := by
        obtain ⟨took, hops⟩ := h.shape
        obtain ⟨op, -, -, rfl⟩ := Query.settle_eq hq
        simp [hops]
      refine ⟨_, hcomplete, by simp [h.one], fun a => dev_of_carrying hcar ho, hmirrors, h.alone, ?_⟩
      exact told_drop h.told
    constructor
    · rintro ⟨v, q, hv, hq, hs⟩
      obtain ⟨t, ht, -⟩ := hdone i v q hv hq
      rw [ht] at hs
      cases hs
    · intro t hs
      obtain ⟨v, hv, hs⟩ := Option.bind_eq_some_iff.mp hs
      obtain ⟨q, hq, hs⟩ := Option.bind_eq_some_iff.mp hs
      obtain ⟨t', ht, hover⟩ := hdone i v q hv hq
      cases ht.symm.trans hs
      exact .inr hover

/-- Nothing is left to do for a write that is over. -/
theorem over_step (h : Over sz dev₀ rg src s) (hn : ∀ q, Rwi.ask q ≠ l) :
    ¬ s.Stops sz E l ∧ s.step sz E l = none := by
  cases l with
  | read r buf => exact absurd rfl (hn (.read r buf))
  | write r src => exact absurd rfl (hn (.write r src))
  | sample i hit => simp [Stops, step, sample_none h.alone]
  | settle i e => simp [Stops, step, settle_none h.alone]
  | apply i hit => simp [Stops, step, h.none]
  | complete i e => simp [Stops, step, h.none]

end Rwi

end Ublk.Cache
