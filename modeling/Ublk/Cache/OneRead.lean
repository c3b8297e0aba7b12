import Ublk.Cache.RWHandler
import Ublk.Cache.Shares

/-! One read by itself, with nothing that fails below: it delivers what the handler below has. -/
namespace Ublk.Cache

open Shared Requests

variable {sz : Nat} {E : Env} {cov hit : Nat → Bool} {x y : Front} {t u : Requests} {f : Fill}
  {p : Blocks.Piece} {ps : List Blocks.Piece} {i rd cid : Nat} {e : Int} {b : Nat → Byte}
  {dev : Addr → Byte} {rg : Range} {z : Front × Requests}

/-- What a read was made with. -/
def ClientRead.made (r : ClientRead) : Nat × Nat × Nat × (Nat → Bool) :=
  (r.cid, r.off, r.len, r.raced)

theorem made_deliver : (x.deliver rd p b).reads.map ClientRead.made = x.reads.map ClientRead.made := by
  refine List.ext_getElem? fun j => ?_
  rw [List.getElem?_map, List.getElem?_map, Front.deliver, List.getElem?_modify]
  cases x.reads[j]? with
  | none => rfl
  | some r =>
    simp only [Option.map_some]
    split <;> rfl

theorem made_filled :
    (x.filled sz cov f t).1.reads.map ClientRead.made = x.reads.map ClientRead.made := by
  unfold Front.filled
  split
  · rfl
  · dsimp only
    split
    · exact made_deliver
    · exact made_deliver

/-- The reads there are, and no chunk in flight that a write came to. -/
structure Unraced (l : List (Nat × Nat × Nat × (Nat → Bool))) (x : Front) : Prop where
  reads : x.reads.map ClientRead.made = l
  fills : ∀ f ∈ x.fills, ∀ j, f.late j = false

theorem unraced_filled {l : List (Nat × Nat × Nat × (Nat → Bool))} (h : Unraced l x) :
    Unraced l (x.filled sz cov f t).1 := by
  refine ⟨made_filled.trans h.reads, ?_⟩
  rw [fills_filled]
  exact h.fills

theorem unraced_readLoop {l : List (Nat × Nat × Nat × (Nat → Bool))} (h : Unraced l x) :
    Unraced l (x.readLoop sz E cov rd cid ps t).2.1 := by
  refine readLoop_keeps (fun _ _ h => ⟨h.reads, h.fills⟩) (fun p _ y u hy _ => ?_)
    (fun p _ y d hy _ => ⟨made_deliver.trans hy.reads, hy.fills⟩) h
  unfold Front.readChunk
  dsimp only
  split
  · exact unraced_filled ⟨hy.reads, hy.fills⟩
  · refine ⟨hy.reads, fun f hf => ?_⟩
    obtain hf | hf := List.mem_append.mp hf
    · exact hy.fills f hf
    · cases List.mem_singleton.mp hf
      exact fun _ => rfl

theorem code_readLoop (hE : ∀ i, (E.beh false i).Accepts) :
    (x.readLoop sz E cov rd cid ps t).1 = 0 := by
  induction ps generalizing x t with
  | nil => rfl
  | cons p ps ih =>
    rw [Front.readLoop]
    split
    · dsimp only
      rw [if_pos (code_readChunk (hE _))]
      exact ih
    · exact ih

theorem ret_returned {c : Nat} : ((t.returned c e).req c).ret = some e := by
  simp [returned]

theorem ret_filled : ∀ c, ((x.filled sz cov f t).2.req c).ret = (t.req c).ret := by
  intro c
  rw [reqs_filled]
  split <;> simp

/-- Read 0 is under way and nothing else. -/
structure Alone (sz : Nat) (dev : Addr → Byte) (rg : Range) (x : Front) (t : Requests) : Prop where
  tracked : Tracked sz x
  hits : Hits sz (fun _ => false) x
  delivers : Delivers (fun _ _ => False) x t
  unraced : Unraced [(0, rg.off, rg.len, fun _ => false)] x
  balanced : t.Balanced (fun d => 0 + fillsOf d x) none
  unfailing : Unfailing t
  dev : x.disk.dev = dev
  ret : (t.req 0).ret = some 0
  there : 0 < t.count

theorem alone_read (hsz : 0 < sz) (hE : ∀ i, (E.beh false i).Succeeds) (hf : x.fills = [])
    (hr : x.reads = []) (hh : Hits sz (fun _ => false) x) :
    Alone sz x.disk.dev rg (x.read sz E (fun _ => false) rg b .empty).1
      (x.read sz E (fun _ => false) rg b .empty).2 := by
  have hacc := fun i => accepts_of_succeeds (hE i)
  have htracked : Tracked sz x := by constructor <;> simp [hf, hr]
  have hread := @reading_read sz E (fun _ => false) x .empty b hsz hacc rg htracked hh
  refine ⟨hread.tracked, hread.hits, delivers_read hsz hacc ?_, ?_, balanced_read ?_,
    unfailing_read hE fun _ => rfl, hread.dev, ?_, ?_⟩
  · constructor <;> simp [hf, hr]
  · exact unraced_readLoop ⟨by simp [hr, ClientRead.made, empty], by simp [hf]⟩
  · have : (fun d => 0 + fillsOf d x) = fun _ => 0 := by simp [fillsOf, hf]
    rw [this]
    exact balanced_empty
  · rw [Front.read, code_readLoop hacc]
    exact ret_returned
  · have hg : Grows _ (x.read sz E (fun _ => false) rg b .empty).2 :=
      grows_trans (readLoop_both (P := fun _ u => create empty |>.Grows u) (fun _ _ _ h => h)
        (fun _ _ _ h => grows_trans h grows_readChunk) (fun _ _ _ _ h => h) grows_refl) grows_returned
    exact Nat.lt_of_lt_of_le Nat.one_pos hg.1

theorem alone_sample (h : Alone sz dev rg x t) (hs : x.sample i hit = some y) :
    Alone sz dev rg y t := by
  have htracked := tracked_sample h.tracked hs
  have hdelivers := delivers_sample h.delivers hs
  have hfills := fills_sample hs
  obtain ⟨f, q, hf, -, rfl⟩ := sample_cases hs
  refine ⟨htracked, h.hits, hdelivers, ⟨h.unraced.reads, fun g hg => ?_⟩, ?_, h.unfailing, h.dev,
    h.ret, h.there⟩
  · rcases List.mem_or_eq_of_mem_set hg with hg | rfl
    · exact h.unraced.fills g hg
    · exact h.unraced.fills f (List.mem_of_getElem? hf)
  · simpa only [fillsOf, hfills] using h.balanced

theorem alone_settle (h : Alone sz dev rg x t)
    (hs : x.settle sz (fun _ => false) i 0 t = some z) : Alone sz dev rg z.1 z.2 := by
  have htracked := tracked_settle h.tracked hs
  have hdelivers := delivers_settle h.delivers hs
  have hbalanced := balanced_settle hs h.balanced
  have hunfailing := unfailing_settle h.tracked hs rfl h.unfailing
  have hgrows := grows_settle hs
  obtain ⟨f, q, hf, hq, rfl⟩ := settle_cases hs
  have hmem := List.mem_of_getElem? hf
  have hx : Unraced [(0, rg.off, rg.len, fun _ => false)]
      { x with fills := x.fills.eraseIdx i } :=
    ⟨h.unraced.reads, fun g hg => h.unraced.fills g (List.mem_of_mem_eraseIdx hg)⟩
  refine ⟨htracked, hits_filled (x := { x with fills := x.fills.eraseIdx i }) h.hits ?_, hdelivers,
    unraced_filled hx, hbalanced, hunfailing, ?_, ?_, Nat.lt_of_lt_of_le h.there hgrows.1⟩
  · intro he _ j hj
    have hw := (whole_settle (h.tracked.fills f hmem) hq).2 he
    exact .inl (hw.agree j hj (h.unraced.fills f hmem j))
  · rw [disk_filled]
    exact h.dev
  · rw [ret_filled]
    exact h.ret

/-- When nothing is in flight any more the client has been told, and has the bytes. -/
theorem answer_of_alone (h : Alone sz dev rg x t) (hf : x.fills = []) :
    (x.answer t).ret = some 0 ∧ (x.answer t).err = 0 ∧ (x.answer t).runs = 1 ∧
      ∀ i < rg.len, (x.answer t).buf i = dev (0, rg.off + i) := by
  refine ⟨h.ret, h.unfailing 0, ?_, fun i hi => ?_⟩
  · have hruns := h.balanced.runs 0 h.there
    simpa [Front.answer, fillsOf, hf] using hruns
  · obtain ⟨r, hr, hmade⟩ : ∃ r, x.reads = [r] ∧ r.made = (0, rg.off, rg.len, fun _ => false) := by
      have hreads := h.unraced.reads
      rcases hx : x.reads with _ | ⟨r, _ | ⟨r', rs⟩⟩
      · simp [hx] at hreads
      · exact ⟨r, rfl, by simpa [hx] using hreads⟩
      · simp [hx] at hreads
    simp only [ClientRead.made, Prod.mk.injEq] at hmade
    obtain ⟨hcid, hoff, hlen, hraced⟩ := hmade
    have hgot : r.got i = true := by
      have hb := h.delivers.bytes 0 r (by simp [hr]) i (hlen ▸ hi)
      rcases hb with hb | ⟨f, hmem, -⟩ | hb | hb
      · exact hb
      · simp [hf] at hmem
      · exact absurd (h.unfailing _) hb
      · exact hb.elim
    have hbuf := h.tracked.reads r (by simp [hr]) i hgot (by rw [hraced])
    rw [h.dev, hoff] at hbuf
    simpa [Front.answer, hr] using hbuf

end Ublk.Cache
