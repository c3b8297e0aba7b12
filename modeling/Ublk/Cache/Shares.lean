import Ublk.Cache.Delivery

/-! A client's read lives as long as the call that received it and its chunks in flight. -/
namespace Ublk.Cache

open Shared Requests

variable {sz : Nat} {E : Env} {cov hit : Nat → Bool} {x y : Front} {t u : Requests} {f : Fill}
  {p : Blocks.Piece} {ps : List Blocks.Piece} {i c rd cid : Nat} {e : Int} {b : Nat → Byte}
  {base : Nat → Nat} {o : Option Nat} {rg : Range}

/-- How many chunks are in flight for request `c`. -/
def fillsOf (c : Nat) (x : Front) : Nat := (x.fills.map Fill.cid).count c

/-- What each piece of a read keeps of the requests, the read keeps. -/
theorem readLoop_both {P : Front → Requests → Prop}
    (hfind : ∀ x t k, P x t → P { x with cache := (x.cache.find k).2 } t)
    (hmiss : ∀ x t p, P x t → P (x.readChunk sz E cov rd cid p t).2.1
      (x.readChunk sz E cov rd cid p t).2.2)
    (hhit : ∀ x t p chunk, P x t → P (x.deliver rd p chunk) t) (h : P x t) :
    P (x.readLoop sz E cov rd cid ps t).2.1 (x.readLoop sz E cov rd cid ps t).2.2 := by
  induction ps generalizing x t with
  | nil => exact h
  | cons p ps ih =>
    have hf := hfind x t p.id h
    rw [Front.readLoop]
    split
    · have hm := hmiss _ _ p hf
      dsimp only
      split
      · exact ih hm
      · exact hm
    · exact ih (hhit _ _ p _ hf)

/-- What becomes of the requests when a chunk's query is destroyed. -/
theorem reqs_filled : (x.filled sz cov f t).2 =
    if f.query.err = 0 then t.drop f.cid else (t.setErr f.cid f.query.err).drop f.cid := by
  unfold Front.filled
  by_cases he : f.query.err = 0
  · simp [he]
  · simp [he]

theorem grows_filled : t.Grows (x.filled sz cov f t).2 := by
  rw [reqs_filled]
  split
  · exact grows_drop
  · exact grows_trans grows_setErr grows_drop

theorem balanced_filled (h : t.Balanced (fun d => base d + fillsOf d x + if d = f.cid then 1 else 0) o) :
    (x.filled sz cov f t).2.Balanced (fun d => base d + fillsOf d (x.filled sz cov f t).1) o := by
  rw [reqs_filled]
  unfold fillsOf at *
  rw [fills_filled]
  split
  · exact balanced_drop h fun _ => rfl
  · exact balanced_drop (balanced_setErr h) fun _ => rfl

theorem grows_readChunk : t.Grows (x.readChunk sz E cov rd cid p t).2.2 := by
  unfold Front.readChunk
  dsimp only
  split
  · exact grows_trans grows_share grows_filled
  · exact grows_share

theorem balanced_readChunk (hc : 0 < base cid) (h : t.Balanced (fun d => base d + fillsOf d x) o) :
    (x.readChunk sz E cov rd cid p t).2.2.Balanced
      (fun d => base d + fillsOf d (x.readChunk sz E cov rd cid p t).2.1) o := by
  have hs := balanced_share h (c := cid) (by omega) fun _ => rfl
  unfold Front.readChunk
  dsimp only
  split
  · exact balanced_filled hs
  · refine Eq.mp ?_ hs
    congr 1
    funext d
    simp only [fillsOf, List.map_append, List.count_append, List.map_cons, List.map_nil,
      List.count_singleton, beq_iff_eq, eq_comm (a := cid), Nat.add_assoc]

theorem grows_read : t.Grows (x.read sz E cov rg b t).2 := by
  refine grows_trans grows_create (grows_trans ?_ grows_returned)
  exact readLoop_both (P := fun _ u => t.create.Grows u) (fun _ _ _ h => h)
    (fun _ _ _ h => grows_trans h grows_readChunk) (fun _ _ _ _ h => h) grows_refl

theorem balanced_read (h : t.Balanced (fun d => base d + fillsOf d x) none) :
    (x.read sz E cov rg b t).2.Balanced (fun d => base d + fillsOf d (x.read sz E cov rg b t).1)
      none := by
  have hcreate := balanced_create h (g := fun d => base d + (if d = t.count then 1 else 0) +
    fillsOf d x) fun d => by omega
  refine balanced_returned (readLoop_both (P := fun y u => u.Balanced (fun d =>
    base d + (if d = t.count then 1 else 0) + fillsOf d y) (some t.count)) (fun _ _ _ h => h)
    (fun _ _ _ h => balanced_readChunk (by simp) h) (fun _ _ _ _ h => h) hcreate) fun d => ?_
  dsimp only [Front.read]
  omega

theorem fills_sample (h : x.sample i hit = some y) : y.fills.map Fill.cid = x.fills.map Fill.cid := by
  obtain ⟨f, q, hf, -, rfl⟩ := sample_cases h
  obtain ⟨hlt, rfl⟩ := List.getElem?_eq_some_iff.mp hf
  refine List.ext_getElem? fun j => ?_
  by_cases hj : i = j
  · subst hj
    simp [hlt]
  · simp [hj]

theorem grows_settle {z : Front × Requests} (h : x.settle sz cov i e t = some z) : t.Grows z.2 := by
  obtain ⟨f, q, -, -, rfl⟩ := settle_cases h
  exact grows_filled

theorem balanced_settle {z : Front × Requests} (h : x.settle sz cov i e t = some z)
    (hb : t.Balanced (fun d => base d + fillsOf d x) o) :
    z.2.Balanced (fun d => base d + fillsOf d z.1) o := by
  obtain ⟨f, q, hf, -, rfl⟩ := settle_cases h
  obtain ⟨hlt, rfl⟩ := List.getElem?_eq_some_iff.mp hf
  refine balanced_filled (f := { x.fills[i] with query := q }) (Eq.mp ?_ hb)
  congr 1
  funext d
  have hperm := ((List.getElem_cons_eraseIdx_perm hlt).map Fill.cid).count_eq d
  rw [List.map_cons, List.count_cons] at hperm
  simp only [beq_iff_eq, eq_comm (b := d)] at hperm
  dsimp only [fillsOf]
  omega

/-- No request has an error. -/
def Unfailing (t : Requests) : Prop := ∀ c, (t.req c).err = 0

theorem unfailing_create (h : Unfailing t) : Unfailing t.create := by
  intro c
  rw [req_create]
  split
  · rfl
  · exact h c

theorem unfailing_share (h : Unfailing t) : Unfailing (t.share c) := fun d => by
  rw [err_share]
  exact h d

theorem unfailing_setErr (h : Unfailing t) (he : e = 0) : Unfailing (t.setErr c e) := by
  rw [setErr, if_pos he]
  exact h

theorem unfailing_drop (h : Unfailing t) : Unfailing (t.drop c) := fun d => by
  rw [err_drop]
  exact h d

theorem unfailing_returned (h : Unfailing t) : Unfailing (t.returned c e) := by
  refine unfailing_drop fun d => ?_
  by_cases hd : d = c
  · subst hd
    simpa using h d
  · simpa [hd] using h d

theorem unfailing_filled (h : Unfailing t) (he : f.query.err = 0) :
    Unfailing (x.filled sz cov f t).2 := by
  rw [reqs_filled, if_pos he]
  exact unfailing_drop h

/-- A submit that succeeds, and is over, is over without an error. -/
theorem err_submit {q : Query} {s : Sub} {disk : Disk} (h : (E.beh q.write disk.next).Succeeds)
    (hq : q.err = 0) : (q.submit E s disk).2.1.err = 0 := by
  unfold Query.submit
  unfold Outcome.Succeeds at h
  split
  · simp_all
  · exact hq
  · rename_i e hit hb
    rw [hb] at h
    simp [Query.setErr, h, hq]

theorem unfailing_read (hE : ∀ i, (E.beh false i).Succeeds) (h : Unfailing t) :
    Unfailing (x.read sz E cov rg b t).2 := by
  refine unfailing_returned (readLoop_both (P := fun _ u => Unfailing u) (fun _ _ _ h => h)
    (fun y u p h => ?_) (fun _ _ _ _ h => h) (unfailing_create h))
  unfold Front.readChunk
  dsimp only
  split
  · exact unfailing_filled (unfailing_share h) (err_submit (hE _) rfl)
  · exact unfailing_share h

theorem unfailing_settle {z : Front × Requests} (hx : Tracked sz x)
    (h : x.settle sz cov i e t = some z) (he : e = 0) (ht : Unfailing t) : Unfailing z.2 := by
  obtain ⟨f, q, hf, hq, rfl⟩ := settle_cases h
  exact unfailing_filled ht
    ((whole_settle (hx.fills f (List.mem_of_getElem? hf)) hq).1.trans he)

/-- Fronts that differ in what reads they have at most. -/
structure FrontEq (x y : Front) : Prop where
  disk : x.disk = y.disk
  cache : x.cache = y.cache
  seq : x.seq = y.seq
  outdated : x.outdated = y.outdated

theorem frontEq_refl : FrontEq x x := ⟨rfl, rfl, rfl, rfl⟩

theorem frontEq_filled {g : Fill} (h : FrontEq x y) (hp : f.piece.id = g.piece.id) (hs : f.seq = g.seq)
    (hq : f.query = g.query) (hl : f.late = g.late) :
    FrontEq (x.filled sz cov f t).1 (y.filled sz cov g u).1 := by
  obtain ⟨hd, hc, hn, ho⟩ := h
  unfold Front.filled
  rw [hq]
  split
  · exact ⟨hd, hc, hn, ho⟩
  · have hiff : f.seq = (x.deliver f.rd f.piece g.query.buf).seq ↔
        g.seq = (y.deliver g.rd g.piece g.query.buf).seq := by
      rw [hs]
      exact iff_of_eq (congrArg _ hn)
    dsimp only
    by_cases hseq : g.seq = (y.deliver g.rd g.piece g.query.buf).seq
    · rw [if_pos hseq, if_pos (hiff.mpr hseq)]
      refine ⟨hd, ?_, hn, ?_⟩
      · simp only [Front.insert, Front.deliver, hp, hc, hq]
      · simp only [Front.insert, Front.deliver, hp, ho, hl]
    · rw [if_neg hseq, if_neg (hiff.not.mpr hseq)]
      exact ⟨hd, hc, hn, ho⟩

theorem frontEq_readChunk {c' : Nat} (h : FrontEq x y) : (x.readChunk sz E cov rd cid p t).1 =
      (y.readChunk sz E cov rd c' p u).1 ∧
    FrontEq (x.readChunk sz E cov rd cid p t).2.1 (y.readChunk sz E cov rd c' p u).2.1 := by
  obtain ⟨hd, hc, hn, ho⟩ := h
  unfold Front.readChunk
  simp only [hd, true_and]
  split
  · exact frontEq_filled ⟨rfl, hc, hn, ho⟩ rfl hn rfl rfl
  · exact ⟨rfl, hc, hn, ho⟩

theorem frontEq_readLoop {c' : Nat} (h : FrontEq x y) :
    FrontEq (x.readLoop sz E cov rd cid ps t).2.1 (y.readLoop sz E cov rd c' ps u).2.1 := by
  induction ps generalizing x y t u with
  | nil => exact h
  | cons p ps ih =>
    obtain ⟨hd, hc, hn, ho⟩ := h
    rw [Front.readLoop, Front.readLoop, hc]
    split
    · have hm := @frontEq_readChunk sz E cov { x with cache := (y.cache.find p.id).2 }
        { y with cache := (y.cache.find p.id).2 } t u p rd cid c' ⟨hd, rfl, hn, ho⟩
      dsimp only
      rw [hm.1]
      split
      · exact ih hm.2
      · exact hm.2
    · exact ih ⟨hd, rfl, hn, ho⟩

/-- Whatever the requests are, the same chunks come into the cache. -/
theorem frontEq_read : FrontEq (x.read sz E cov rg b t).1 (x.read sz E cov rg b u).1 :=
  frontEq_readLoop ⟨rfl, rfl, rfl, rfl⟩

end Ublk.Cache
