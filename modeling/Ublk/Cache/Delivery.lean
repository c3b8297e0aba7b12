import Ublk.Cache.Tracking

/-! Every byte of a read is delivered, or is being read, or the read has an error. -/
namespace Ublk.Cache

open Shared Requests

variable {sz : Nat} {E : Env} {cov hit : Nat → Bool} {x y : Front} {t u : Requests} {f : Fill}
  {r : ClientRead} {p : Blocks.Piece} {ps : List Blocks.Piece} {i c k rd cid : Nat} {e : Int}
  {chunk b : Nat → Byte} {wait : Nat → Nat → Prop}

def Covered (p : Blocks.Piece) (i : Nat) : Prop := p.pos ≤ i ∧ i < p.pos + p.len

/-- `wait` tells the bytes that a read's loop has yet to come to. -/
structure Delivers (wait : Nat → Nat → Prop) (x : Front) (t : Requests) : Prop where
  cids : ∀ r ∈ x.reads, r.cid < t.count
  fills : ∀ f ∈ x.fills, ∃ r, x.reads[f.rd]? = some r ∧ r.cid = f.cid
  bytes : ∀ rd r, x.reads[rd]? = some r → ∀ i < r.len, r.got i = true ∨
    (∃ f ∈ x.fills, f.rd = rd ∧ Covered f.piece i) ∨ (t.req r.cid).err ≠ 0 ∨ wait rd i

theorem delivers_grows (h : Delivers wait x t) (hu : Grows t u) : Delivers wait x u := by
  refine ⟨fun r hr => Nat.lt_of_lt_of_le (h.cids r hr) hu.1, h.fills, fun rd r hr i hi => ?_⟩
  have hb := h.bytes rd r hr i hi
  have hcid := h.cids r (List.mem_of_getElem? hr)
  exact hb.imp_right (Or.imp_right (Or.imp_left (hu.2 _ hcid)))

theorem getElem?_deliver : (x.deliver rd p chunk).reads[i]? = (x.reads[i]?).map fun r =>
    if rd = i then { r with
      buf := overlay r.buf p.pos p.len fun i => chunk (p.inner + i)
      got := fun i => r.got i || decide (p.pos ≤ i ∧ i < p.pos + p.len) } else r := by
  rw [Front.deliver, List.getElem?_modify]
  cases x.reads[i]? with
  | none => rfl
  | some r =>
    simp only [Option.map_some]
    split <;> rfl

theorem delivers_deliver (h : Delivers wait x t) : Delivers wait (x.deliver rd p chunk) t ∧
    ∀ r, (x.deliver rd p chunk).reads[rd]? = some r → ∀ i, Covered p i → r.got i = true := by
  refine ⟨⟨fun r hr => ?_, fun f hf => ?_, fun rd' r hr i hi => ?_⟩, fun r hr i hi => ?_⟩
  · obtain ⟨j, hj⟩ := List.getElem?_of_mem hr
    rw [getElem?_deliver] at hj
    obtain ⟨r', hr', rfl⟩ := Option.map_eq_some_iff.mp hj
    have hcid := h.cids r' (List.mem_of_getElem? hr')
    split <;> exact hcid
  · obtain ⟨r, hr, hcid⟩ := h.fills f hf
    rw [getElem?_deliver, hr]
    refine ⟨_, rfl, ?_⟩
    split <;> exact hcid
  · rw [getElem?_deliver] at hr
    obtain ⟨r', hr', rfl⟩ := Option.map_eq_some_iff.mp hr
    by_cases hrd : rd = rd'
    · rw [if_pos hrd] at hi ⊢
      have hb := h.bytes rd' r' hr' i hi
      refine hb.imp_left fun hg => ?_
      dsimp only
      rw [hg]
      rfl
    · rw [if_neg hrd] at hi ⊢
      exact h.bytes rd' r' hr' i hi
  · rw [getElem?_deliver] at hr
    obtain ⟨r', hr', rfl⟩ := Option.map_eq_some_iff.mp hr
    rw [if_pos rfl]
    simp only [Bool.or_eq_true, decide_eq_true_eq]
    exact .inr hi

/-- What the piece of a fill waits for comes with the fill's completer. -/
theorem delivers_filled
    (h : Delivers (fun rd i => wait rd i ∨ rd = f.rd ∧ Covered f.piece i) x t)
    (hf : ∃ r, x.reads[f.rd]? = some r ∧ r.cid = f.cid) :
    Delivers wait (x.filled sz cov f t).1 (x.filled sz cov f t).2 := by
  obtain ⟨r₀, hr₀, hcid⟩ := hf
  unfold Front.filled
  split
  · rename_i he
    have hgrows : Grows t ((t.setErr f.cid f.query.err).drop f.cid) :=
      grows_trans grows_setErr grows_drop
    obtain ⟨hcids, hfills, hbytes⟩ := delivers_grows h hgrows
    refine ⟨hcids, hfills, fun rd r hr i hi => ?_⟩
    obtain hb | hb | hb | hb | ⟨rfl, hc⟩ := hbytes rd r hr i hi
    · exact .inl hb
    · exact .inr (.inl hb)
    · exact .inr (.inr (.inl hb))
    · exact .inr (.inr (.inr hb))
    · cases hr₀.symm.trans hr
      refine .inr (.inr (.inl ?_))
      rw [Requests.err_drop, Requests.err_setErr, if_pos ⟨hcid, he⟩]
      exact he
  · obtain ⟨hd, hgot⟩ := @delivers_deliver _ _ f.piece f.rd f.query.buf _ h
    obtain ⟨hcids, hfills, hbytes⟩ := delivers_grows (u := t.drop f.cid) hd grows_drop
    have hnow : Delivers wait (x.deliver f.rd f.piece f.query.buf) (t.drop f.cid) := by
      refine ⟨hcids, hfills, fun rd r hr i hi => ?_⟩
      obtain hb | hb | hb | hb | ⟨rfl, hc⟩ := hbytes rd r hr i hi
      · exact .inl hb
      · exact .inr (.inl hb)
      · exact .inr (.inr (.inl hb))
      · exact .inr (.inr (.inr hb))
      · exact .inl (hgot r hr i hc)
    dsimp only
    split
    · exact ⟨hnow.cids, hnow.fills, hnow.bytes⟩
    · exact hnow

theorem delivers_readChunk
    (h : Delivers (fun rd' i => wait rd' i ∨ rd' = rd ∧ Covered p i) x t)
    (hr : ∃ r, x.reads[rd]? = some r ∧ r.cid = cid) :
    Delivers wait (x.readChunk sz E cov rd cid p t).2.1 (x.readChunk sz E cov rd cid p t).2.2 := by
  obtain ⟨hcids, hfills, hbytes⟩ := delivers_grows h (grows_share (c := cid))
  unfold Front.readChunk
  dsimp only
  split
  · exact delivers_filled ⟨hcids, hfills, hbytes⟩ hr
  · refine ⟨hcids, fun f hf => ?_, fun rd' r' hr' i hi => ?_⟩
    · obtain hf | hf := List.mem_append.mp hf
      · exact hfills f hf
      · cases List.mem_singleton.mp hf
        exact hr
    · obtain hb | ⟨f, hf, hb⟩ | hb | hb | ⟨rfl, hc⟩ := hbytes rd' r' hr' i hi
      · exact .inl hb
      · exact .inr (.inl ⟨f, List.mem_append_left _ hf, hb⟩)
      · exact .inr (.inr (.inl hb))
      · exact .inr (.inr (.inr hb))
      · exact .inr (.inl ⟨_, List.mem_append_right _ (.head _), rfl, hc⟩)

theorem code_readChunk (ha : (E.beh false x.disk.next).Accepts) :
    (x.readChunk sz E cov rd cid p t).1 = 0 :=
  (rej_of_accepts (q := Query.read (E.junk x.disk.next)) ha rfl).1

/-- The reads and the reads' numbers stay. -/
def SameCids (l l' : List ClientRead) : Prop :=
  ∀ (i : Nat) r, l[i]? = some r → ∃ r', l'[i]? = some r' ∧ r'.cid = r.cid

theorem cids_deliver : SameCids x.reads (x.deliver rd p chunk).reads := by
  intro i r hr
  rw [getElem?_deliver, hr]
  refine ⟨_, rfl, ?_⟩
  split <;> rfl

theorem cids_filled : SameCids x.reads (x.filled sz cov f t).1.reads := by
  unfold Front.filled
  split
  · exact fun _ r hr => ⟨r, hr, rfl⟩
  · dsimp only
    split
    · exact cids_deliver
    · exact cids_deliver

theorem cids_readChunk : SameCids x.reads (x.readChunk sz E cov rd cid p t).2.1.reads := by
  unfold Front.readChunk
  dsimp only
  split
  · exact fun i r hr => cids_filled i r hr
  · exact fun _ r hr => ⟨r, hr, rfl⟩

theorem delivers_readLoop (hE : ∀ i, (E.beh false i).Accepts)
    (h : Delivers (fun rd' i => rd' = rd ∧ ∃ p ∈ ps, Covered p i) x t)
    (hr : ∃ r, x.reads[rd]? = some r ∧ r.cid = cid) :
    Delivers (fun _ _ => False) (x.readLoop sz E cov rd cid ps t).2.1
        (x.readLoop sz E cov rd cid ps t).2.2 ∧
      (x.readLoop sz E cov rd cid ps t).1 = 0 := by
  induction ps generalizing x t with
  | nil =>
    refine ⟨⟨h.cids, h.fills, fun rd r hr i hi => ?_⟩, rfl⟩
    obtain hb | hb | hb | ⟨-, p, hp, -⟩ := h.bytes rd r hr i hi
    · exact .inl hb
    · exact .inr (.inl hb)
    · exact .inr (.inr (.inl hb))
    · cases hp
  | cons p ps ih =>
    obtain ⟨r, hr, hcid⟩ := hr
    have hsplit : Delivers (fun rd' i => (rd' = rd ∧ ∃ p ∈ ps, Covered p i) ∨
        rd' = rd ∧ Covered p i) { x with cache := (x.cache.find p.id).2 } t := by
      refine ⟨h.cids, h.fills, fun rd r hr i hi => ?_⟩
      have hb := h.bytes rd r hr i hi
      refine hb.imp_right (Or.imp_right (Or.imp_right ?_))
      rintro ⟨rfl, q, hq, hc⟩
      obtain rfl | hq := List.mem_cons.mp hq
      · exact .inr ⟨rfl, hc⟩
      · exact .inl ⟨rfl, q, hq, hc⟩
    rw [Front.readLoop]
    split
    · dsimp only
      rw [if_pos (code_readChunk (hE _))]
      obtain ⟨r', hr', hcid'⟩ := @cids_readChunk sz E cov
        { x with cache := (x.cache.find p.id).2 } t p rd cid rd r hr
      exact ih (delivers_readChunk hsplit ⟨r, hr, hcid⟩) ⟨r', hr', hcid'.trans hcid⟩
    · let chunk := (x.cache.find p.id).1.data.getD (E.junk x.disk.next)
      obtain ⟨hd, hgot⟩ := @delivers_deliver _ _ p rd chunk _ hsplit
      obtain ⟨r', hr', hcid'⟩ := @cids_deliver { x with cache := (x.cache.find p.id).2 } p rd chunk
        rd r hr
      refine ih ⟨hd.cids, hd.fills, fun rd' r hr i hi => ?_⟩ ⟨r', hr', hcid'.trans hcid⟩
      obtain hb | hb | hb | hb | ⟨rfl, hc⟩ := hd.bytes rd' r hr i hi
      · exact .inl hb
      · exact .inr (.inl hb)
      · exact .inr (.inr (.inl hb))
      · exact .inr (.inr (.inr hb))
      · exact .inl (hgot r hr i hc)

theorem delivers_read (hsz : 0 < sz) (hE : ∀ i, (E.beh false i).Accepts) {rg : Range}
    (h : Delivers (fun _ _ => False) x t) :
    Delivers (fun _ _ => False) (x.read sz E cov rg b t).1 (x.read sz E cov rg b t).2 := by
  obtain ⟨hcids, hfills, hbytes⟩ := delivers_grows h grows_create
  refine delivers_grows (delivers_readLoop hE ⟨fun r hr => ?_, fun f hf => ?_, ?_⟩ ?_).1
    grows_returned
  · obtain hr | hr := List.mem_append.mp hr
    · exact hcids r hr
    · cases List.mem_singleton.mp hr
      simp
  · obtain ⟨r, hr, hcid⟩ := hfills f hf
    have hlt := (List.getElem?_eq_some_iff.mp hr).1
    exact ⟨r, (List.getElem?_append_left hlt).trans hr, hcid⟩
  · intro rd r hr i hi
    by_cases hrd : rd < x.reads.length
    · have hr : x.reads[rd]? = some r := (List.getElem?_append_left hrd).symm.trans hr
      exact (hbytes rd r hr i hi).imp_right (Or.imp_right (Or.imp_right False.elim))
    · have hlt := (List.getElem?_eq_some_iff.mp hr).1
      rw [List.length_append, List.length_singleton] at hlt
      obtain rfl : rd = x.reads.length := by omega
      rw [List.getElem?_concat_length] at hr
      cases hr
      refine .inr (.inr (.inr ⟨rfl, ?_⟩))
      rw [readPieces_eq hsz]
      exact Blocks.cut_cover hsz hi
  · exact ⟨_, List.getElem?_concat_length, rfl⟩

theorem delivers_sample (h : Delivers wait x t) (hs : x.sample i hit = some y) :
    Delivers wait y t := by
  obtain ⟨f, q, hf, -, rfl⟩ := sample_cases hs
  have hlt := (List.getElem?_eq_some_iff.mp hf).1
  have hmem := List.mem_of_getElem? hf
  refine ⟨h.cids, fun g hg => ?_, fun rd r hr j hj => ?_⟩
  · obtain hg | rfl := List.mem_or_eq_of_mem_set hg
    · exact h.fills g hg
    · exact h.fills f hmem
  · have hb := h.bytes rd r hr j hj
    refine hb.imp_right (Or.imp_left ?_)
    rintro ⟨g, hg, hrd, hc⟩
    obtain ⟨m, hm⟩ := List.getElem?_of_mem hg
    by_cases hmi : m = i
    · subst hmi
      cases hf.symm.trans hm
      exact ⟨_, List.mem_of_getElem? (List.getElem?_set_self hlt), hrd, hc⟩
    · refine ⟨g, List.mem_of_getElem? (i := m) ?_, hrd, hc⟩
      rw [List.getElem?_set_ne (Ne.symm hmi), hm]

theorem delivers_settle {z : Front × Requests} (h : Delivers wait x t)
    (hs : x.settle sz cov i e t = some z) : Delivers wait z.1 z.2 := by
  obtain ⟨f, q, hf, -, rfl⟩ := settle_cases hs
  obtain ⟨hlt, heq⟩ := List.getElem?_eq_some_iff.mp hf
  refine delivers_filled ⟨h.cids, fun g hg => h.fills g (List.mem_of_mem_eraseIdx hg), ?_⟩
    (h.fills f (List.mem_of_getElem? hf))
  intro rd r hr j hj
  obtain hb | ⟨g, hg, hrd, hc⟩ | hb | hb := h.bytes rd r hr j hj
  · exact .inl hb
  · have hperm := List.getElem_cons_eraseIdx_perm hlt
    obtain rfl | hg := List.mem_cons.mp (hperm.mem_iff.mpr hg)
    · rw [heq] at hrd hc
      exact .inr (.inr (.inr (.inr ⟨hrd.symm, hc⟩)))
    · exact .inr (.inl ⟨g, hg, hrd, hc⟩)
  · exact .inr (.inr (.inl hb))
  · exact .inr (.inr (.inr (.inl hb)))

theorem delivers_mark (h : Delivers wait x t) : Delivers wait (x.mark sz hit) t := by
  have hget : ∀ (i : Nat) r, (x.mark sz hit).reads[i]? = some r → ∃ r', x.reads[i]? = some r' ∧
      r.cid = r'.cid ∧ r.len = r'.len ∧ r.got = r'.got := by
    intro i r hr
    have hr := (List.getElem?_map (f := _)).symm.trans hr
    obtain ⟨r', hr', rfl⟩ := Option.map_eq_some_iff.mp hr
    exact ⟨r', hr', rfl, rfl, rfl⟩
  refine ⟨fun r hr => ?_, fun g hg => ?_, fun rd r hr i hi => ?_⟩
  · obtain ⟨r', hr', rfl⟩ := List.mem_map.mp hr
    exact h.cids r' hr'
  · obtain ⟨f, hf, rfl⟩ := List.mem_map.mp hg
    obtain ⟨r, hr, hcid⟩ := h.fills f hf
    exact ⟨_, List.getElem?_map.trans (congrArg _ hr), hcid⟩
  · obtain ⟨r', hr', hcid, hlen, hgot⟩ := hget rd r hr
    rw [hcid, hgot]
    obtain hb | ⟨f, hf, hb⟩ | hb := h.bytes rd r' hr' i (hlen ▸ hi)
    · exact .inl hb
    · exact .inr (.inl ⟨_, List.mem_map_of_mem hf, hb⟩)
    · exact .inr (.inr hb)

theorem delivers_congr (h : Delivers wait x t) (hf : y.fills = x.fills) (hr : y.reads = x.reads) :
    Delivers wait y t := by
  constructor
  · rw [hr]
    exact h.cids
  · rw [hf, hr]
    exact h.fills
  · rw [hf, hr]
    exact h.bytes

end Ublk.Cache
