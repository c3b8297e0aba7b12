import Ublk.Cache.OneWrite

/-!
Requests whose chunks lie inside a handler of `C` bytes. All that is submitted for them lies inside,
so that a handler which fails only what crosses its end does what one does that fails nothing.
-/
namespace Ublk

variable {C : Nat} {s : Sub} {o : Outcome} {E : Env} {q : Query} {e : Int} {d : Disk}

/-- What would fail stays in flight. -/
def Outcome.mend : Outcome → Outcome
  | .reject _ _ => .held
  | .held => .held
  | .done e hit => if e = 0 then .done e hit else .held

def Env.mend (E : Env) : Env := { E with beh := fun b i => (E.beh b i).mend }

theorem mend_succeeds : o.mend.Succeeds := by
  cases o with
  | reject e he => trivial
  | held => trivial
  | done e hit =>
    rw [Outcome.mend]
    split
    · assumption
    · trivial

theorem mend_of_heeds (h : o.heeds C s = true) (hin : s.off + s.len ≤ C) : o.mend = o := by
  cases o with
  | reject e he =>
    have hout : C < s.off + s.len := of_decide_eq_true h
    omega
  | held => rfl
  | done e hit =>
    have he : e = 0 ↔ s.off + s.len ≤ C := of_decide_eq_true h
    exact if_pos (he.mpr hin)

/-- A subquery inside completes without an error. -/
theorem zero_of_heeds {op : Op} (h : q.heeds C e = true) (hops : q.ops = [op])
    (hin : op.sub.off + op.sub.len ≤ C) : e = 0 :=
  (of_decide_eq_true (List.all_eq_true.mp h op (by simp [hops]))).mpr hin

theorem submit_mend (h : (E.beh q.write d.next).mend = E.beh q.write d.next) :
    q.submit E.mend s d = q.submit E s d := by
  have hb : E.mend.beh q.write d.next = E.beh q.write d.next := h
  unfold Query.submit
  rw [hb]

namespace Cache

open Shared Requests Serial Words

variable {sz k : Nat} {cov hit : Nat → Bool} {x y : Front} {t u : Requests} {f : Fill}
  {p : Blocks.Piece} {ps : List Blocks.Piece} {i rd cid : Nat} {b : Nat → Byte} {rg : Range}

/-- A chunk that starts inside the whole chunks of `C` bytes ends inside. -/
theorem chunk_inside (h : k * sz < C / sz * sz) : k * sz + sz ≤ C := by
  have hlt : k < C / sz := Nat.lt_of_mul_lt_mul_right h
  have hmul : (k + 1) * sz ≤ C / sz * sz := Nat.mul_le_mul_right sz hlt
  have hle := Nat.div_mul_le_self C sz
  rw [Nat.add_mul] at hmul
  omega

theorem inside_of_piece (hsz : 0 < sz) (hr : rg.off + rg.len ≤ C / sz * sz)
    (hp : p ∈ readPieces sz rg.off rg.len rg.len (rg.off / sz) 0) : p.id * sz + sz ≤ C := by
  obtain ⟨hoff, hend, -, hpos⟩ := mem_readPieces hsz hp
  exact chunk_inside (by omega)

theorem inside_of_slice (hsz : 0 < sz) (hr : rg.off + rg.len ≤ C / sz * sz) {v : Slice}
    {src : Nat → Byte} (hv : v ∈ Rwt.slices sz cid rg src) : v.chunkId * sz + sz ≤ C := by
  obtain ⟨hle, hpos⟩ := Rwt.mem_slices_id hsz hv
  exact chunk_inside (by omega)

theorem readChunk_mend (h : (E.beh false x.disk.next).mend = E.beh false x.disk.next) :
    x.readChunk sz E.mend cov rd cid p t = x.readChunk sz E cov rd cid p t := by
  have hq : (Query.read (E.junk x.disk.next)).submit E.mend (chunkSub sz p.id) x.disk =
      (Query.read (E.junk x.disk.next)).submit E (chunkSub sz p.id) x.disk := submit_mend h
  have hj : E.mend.junk = E.junk := rfl
  unfold Front.readChunk
  rw [hj, hq]

theorem readLoop_mend (hin : ∀ p ∈ ps, p.id * sz + sz ≤ C)
    (hh : x.loopHeeds C sz E cov rd cid ps t = true) :
    x.readLoop sz E.mend cov rd cid ps t = x.readLoop sz E cov rd cid ps t := by
  induction ps generalizing x t with
  | nil => rfl
  | cons p ps ih =>
    have ih := fun y u => @ih y u fun p hp => hin p (.tail _ hp)
    rw [Front.loopHeeds] at hh
    rw [Front.readLoop, Front.readLoop]
    dsimp only at hh ⊢
    by_cases hz : (x.cache.find p.id).1.size = 0
    · rw [if_pos hz] at hh
      rw [if_pos hz, if_pos hz]
      obtain ⟨hheeds, hrest⟩ := Bool.and_eq_true_iff.mp hh
      have hmend := mend_of_heeds hheeds (hin p (.head _))
      rw [@readChunk_mend E sz cov { x with cache := (x.cache.find p.id).2 } t p rd cid hmend]
      split
      · rename_i h0
        rw [if_pos h0] at hrest
        exact ih _ _ hrest
      · rfl
    · rw [if_neg hz] at hh
      rw [if_neg hz, if_neg hz]
      exact ih _ _ hh

theorem read_mend (hin : ∀ p ∈ readPieces sz rg.off rg.len rg.len (rg.off / sz) 0,
    p.id * sz + sz ≤ C) (hh : x.readHeeds C sz E cov rg b t = true) :
    x.read sz E.mend cov rg b t = x.read sz E cov rg b t := by
  have hloop := readLoop_mend hin hh
  unfold Front.read
  dsimp only
  rw [hloop]

/-- The chunks that are being read lie inside. -/
def Within (C sz : Nat) (x : Front) : Prop := ∀ f ∈ x.fills, f.piece.id * sz + sz ≤ C

theorem within_read (hin : ∀ p ∈ readPieces sz rg.off rg.len rg.len (rg.off / sz) 0,
    p.id * sz + sz ≤ C) (hf : x.fills = []) : Within C sz (x.read sz E cov rg b t).1 := by
  refine readLoop_keeps (fun _ _ h => h) (fun p hp y u hy _ => ?_) (fun _ _ _ _ h _ => h) ?_
  · unfold Front.readChunk
    dsimp only
    split
    · intro f hf
      rw [fills_filled] at hf
      exact hy f hf
    · intro f hf
      obtain hf | hf := List.mem_append.mp hf
      · exact hy f hf
      · rw [List.mem_singleton.mp hf]
        exact hin p hp
  · intro f hmem
    have hmem : f ∈ x.fills := hmem
    rw [hf] at hmem
    cases hmem

theorem within_sample (h : Within C sz x) (hs : x.sample i hit = some y) : Within C sz y := by
  obtain ⟨f, q, hf, -, rfl⟩ := sample_cases hs
  intro g hg
  rcases List.mem_or_eq_of_mem_set hg with hg | rfl
  · exact h g hg
  · exact h f (List.mem_of_getElem? hf)

theorem within_settle {z : Front × Requests} (h : Within C sz x)
    (hs : x.settle sz cov i e t = some z) : Within C sz z.1 := by
  obtain ⟨f, q, -, -, rfl⟩ := settle_cases hs
  intro g hg
  rw [fills_filled] at hg
  exact h g (List.mem_of_mem_eraseIdx hg)

/-- A chunk that lies inside has been read without an error. -/
theorem settle_zero {z : Front × Requests} (ht : Tracked sz x) (hw : Within C sz x)
    (hh : x.settleHeeds C i e = true) (hs : x.settle sz cov i e t = some z) : e = 0 := by
  obtain ⟨f, q, hf, -, -⟩ := settle_cases hs
  have hmem := List.mem_of_getElem? hf
  obtain ⟨took, hops⟩ := (ht.fills f hmem).shape
  rw [Front.settleHeeds, hf] at hh
  exact zero_of_heeds hh hops (hw f hmem)

namespace Rwt

variable {w : ChunkWrite} {z : Inner} {a : Act}

theorem submitWrite_mend (h : (E.beh true z.front.disk.next).mend = E.beh true z.front.disk.next) :
    submitWrite sz E.mend w z = submitWrite sz E w z := by
  have hq : (Query.writing w.src).submit E.mend (w.sub sz) z.front.disk =
      (Query.writing w.src).submit E (w.sub sz) z.front.disk := submit_mend h
  have hb : E.mend.beh true z.front.disk.next = E.beh true z.front.disk.next := h
  unfold submitWrite
  rw [hq, hb]

theorem rmwDone_mend (hin : w.chunkId * sz + w.chunkOffset + w.size ≤ C)
    (hh : rmwHeeds C sz E w z = true) : rmwDone sz E.mend w z = rmwDone sz E w z := by
  unfold rmwDone
  by_cases he : w.rmwq.err = 0
  · have hsub : submitHeeds C sz E w z = true := by simpa [rmwHeeds, he] using hh
    rw [if_pos he, if_pos he]
    exact congrArg Prod.snd (submitWrite_mend (mend_of_heeds hsub hin))
  · rw [if_neg he, if_neg he]

theorem readFirst_mend (hin : w.chunkId * sz + w.chunkOffset + w.size ≤ C)
    (hc : w.chunkId * sz + sz ≤ C) (hh : readHeeds C sz E w z = true) :
    readFirst sz E.mend w z = readFirst sz E w z := by
  obtain ⟨hheeds, hrest⟩ := Bool.and_eq_true_iff.mp hh
  have hq : (Query.read (E.junk z.front.disk.next)).submit E.mend (chunkSub sz w.chunkId)
      z.front.disk = (Query.read (E.junk z.front.disk.next)).submit E (chunkSub sz w.chunkId)
      z.front.disk := submit_mend (mend_of_heeds hheeds hc)
  have hj : E.mend.junk = E.junk := rfl
  unfold readFirst
  rw [hj, hq]
  dsimp only
  split
  · rename_i ho
    have hrmw := (Bool.or_eq_true_iff.mp hrest).resolve_left (by simp [ho])
    exact congrArg (Prod.mk _) (rmwDone_mend hin hrmw)
  · rfl

theorem process_mend (hin : w.chunkId * sz + w.chunkOffset + w.size ≤ C)
    (hc : w.chunkId * sz + sz ≤ C) (hh : processHeeds C sz E w z = true) :
    process sz E.mend w z = process sz E w z := by
  unfold processHeeds at hh
  unfold process
  by_cases hfull : ¬ w.size < sz
  · rw [if_pos hfull] at hh
    rw [if_pos hfull, if_pos hfull]
    exact submitWrite_mend (mend_of_heeds hh hin)
  · rw [if_neg hfull] at hh
    rw [if_neg hfull, if_neg hfull]
    dsimp only
    split
    · rename_i hz
      rw [if_pos hz] at hh
      exact readFirst_mend hin hc hh
    · rename_i hz
      rw [if_neg hz] at hh
      exact submitWrite_mend (mend_of_heeds hh hin)

theorem react_mend (hin : w.chunkId * sz + w.chunkOffset + w.size ≤ C)
    (hh : actHeeds C sz E a w z = true) : react sz E.mend a w z = react sz E a w z := by
  cases a with
  | sample hit => rfl
  | apply hit => rfl
  | complete e => rfl
  | fill e =>
    obtain ⟨-, hrest⟩ := Bool.and_eq_true_iff.mp hh
    change (w.rmwq.settle 0 e).map (fun q => rmwDone sz E.mend { w with rmwq := q } z) =
      (w.rmwq.settle 0 e).map fun q => rmwDone sz E { w with rmwq := q } z
    cases hq : w.rmwq.settle 0 e with
    | none => rfl
    | some q =>
      rw [hq] at hrest
      exact congrArg some (rmwDone_mend (w := { w with rmwq := q }) hin hrest)

/-- What a part waits for lies inside and completes without an error. -/
theorem act_succeeds {dev₀ : Addr → Byte} {r : ChunkWrite × Inner}
    (hw : (chunks sz dev₀).held w z) (hin : w.chunkId * sz + w.chunkOffset + w.size ≤ C)
    (hc : w.chunkId * sz + sz ≤ C) (hh : actHeeds C sz E a w z = true)
    (hr : react sz E a w z = some r) : a.Succeeds := by
  cases a with
  | sample hit => trivial
  | apply hit => trivial
  | fill e =>
    obtain ⟨hheeds, -⟩ := Bool.and_eq_true_iff.mp hh
    obtain ⟨q, hq, -⟩ := Option.map_eq_some_iff.mp hr
    rcases hw with hw | ⟨hw, -⟩
    · obtain ⟨took, hops⟩ := hw.shape
      exact zero_of_heeds hheeds hops hc
    · rw [settle_nil hw.read.1] at hq
      cases hq
  | complete e =>
    obtain ⟨q, hq, -⟩ := Option.map_eq_some_iff.mp hr
    rcases hw with hw | ⟨hw, hne⟩
    · rw [settle_nil (by simp [hw.fresh, Query.writing])] at hq
      cases hq
    · obtain ⟨-, took, hops⟩ := hw.shape.resolve_left hne
      exact zero_of_heeds hh hops hin

end Rwt

end Cache

end Ublk
