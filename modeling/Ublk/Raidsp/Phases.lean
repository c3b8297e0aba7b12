import Ublk.Raidsp.Stripe

/-! Each function of the acceptor takes a sub-write from one phase to the next. -/
namespace Ublk.Raidsp

open Shared Serial Acceptor

variable {G : Geometry} {E : Env} {dev₀ dev dev' : Addr → Byte} {w w' : SubWrite} {x x' : Inner}
  {r : Role} {q : Query} {e : Int} {k : Nat} {old parity : Nat → Byte}

theorem log_append_self : Inner.log { x with done := x.done ++ [w] } w.stripe =
    x.log w.stripe ++ [w] := by
  simp [Inner.log]

theorem log_append_of_ne (hk : k ≠ w.stripe) :
    Inner.log { x with done := x.done ++ [w] } k = x.log k := by
  simp [Inner.log, Ne.symm hk]

/-- Once all strips are written the stripe holds the new data over the old. -/
theorem dataOf_of_written (h : Writes G dev₀ old w x) (hb : w.busy = false) (hw : w.Written)
    {i : Nat} (hi : i < G.stripeDataSz) :
    x.disk.dev (G.loc w.stripe i) = overlay old w.off w.size w.src i := by
  unfold overlay
  split
  · rename_i hin
    have := Query.agrees_of_ended h.wqd hw.1 (SubWrite.not_busy.mp hb .wqd)
      (by omega : i - w.off < w.size) trivial
    rw [h.data.2, Nat.add_sub_cancel' hin.1] at this
    exact this.symm
  · exact h.outside i hi ‹_›

theorem settled_of_writes (h : Writes G dev₀ old w x) (hf : Flagged w x) (hb : w.busy = false) :
    Settled G dev₀ w.stripe { x with done := x.done ++ [w] } := by
  have hidle := SubWrite.not_busy.mp hb
  have hflag := hf (.inr ⟨hidle _, hidle _⟩)
  simp only [hidle, true_imp_iff, Role.Strip, forall_eq_or_imp, forall_eq] at hflag
  constructor
  · intro ht hc
    rw [log_append_self] at ht
    obtain ⟨hd, hp⟩ := hflag.mp hc
    have hrej : ¬ ((w.query .wqd).rej ≠ 0 ∨ (w.query .wqp).rej ≠ 0) := fun hr => by
      have := ht w (by simp) hr
      simp_all
    have hw : w.Written := by
      simp only [not_or, not_not] at hrej
      exact ⟨⟨hrej.1, hd⟩, ⟨hrej.2, hp⟩⟩
    refine xorZero_iff.mpr fun j hj => ?_
    change x.disk.dev (G.parityLoc w.stripe j) = _
    rw [← Query.agrees_of_ended h.wqp hw.2 (hidle _) hj hw.1.1,
      h.parity.2 (fun v hv => ht v (List.mem_append_left _ hv)) j hj]
    exact share_congr fun i hi => (dataOf_of_written h hb hw hi).symm
  · intro hall
    rw [log_append_self] at hall ⊢
    have hw := hall w (by simp)
    refine ⟨fun i hi => (dataOf_of_written h hb hw hi).trans ?_, fun _ => ?_⟩
    · rw [applyAll, List.foldl_append]
      have := h.base (fun v hv => hall v (List.mem_append_left _ hv)) i hi
      simp only [List.foldl_cons, List.foldl_nil, overlay]
      rw [this]
      rfl
    · exact hflag.mpr ⟨hw.1.2, hw.2.2⟩

theorem writes_of_eq (h : Writes G dev₀ old w x) (hq : w'.query = w.query)
    (hr : w'.request = w.request) (hd : x'.disk = x.disk) (hl : x'.done = x.done) :
    Writes G dev₀ old w' x' := by
  have hlog : ∀ k, x'.log k = x.log k := fun k => by rw [Inner.log, Inner.log, hl]
  have hslice := slice_of_request hr
  constructor <;> simp only [SubWrite.Idle, hq, hslice, hd, hlog]
  · exact h.fits
  · exact h.idle
  · exact h.base
  · exact h.outside
  · exact h.data
  · exact h.parity
  · exact h.wqd
  · exact h.wqp

theorem writes_stays {s : SubWrite × Inner} (h : Writes G dev₀ old w x) (hs : Stays G w x s)
    (hq : s.1.query = w.query) (hd : s.2.disk = x.disk) : Writes G dev₀ old s.1 s.2 :=
  writes_of_eq h hq hs.request hd (by rw [hs.rest])

/-- What the strips of `w` are about to be written over. -/
structure Ready (G : Geometry) (dev₀ : Addr → Byte) (parity : Nat → Byte) (w : SubWrite)
    (x : Inner) : Prop where
  fits : w.off + w.size ≤ G.stripeDataSz
  idle : w.Idle .rqd ∧ w.Idle .rpq
  set : Settled G dev₀ w.stripe x
  parity : (∀ v ∈ x.log w.stripe, v.Told) → ∀ j < G.stripSz, parity j = share G.stripSz 0
    (overlay (dataOf G x.disk.dev w.stripe) w.off w.size w.src) G.stripeDataSz j

theorem loc_injOn (f : Nat → Nat) (hf : ∀ a b, f a = f b → a = b) (s : Set Nat) :
    Set.InjOn (fun p => G.loc k (f p)) s :=
  fun _ _ _ _ h => hf _ _ (Geometry.loc_injective h)

theorem parityLoc_injOn (s : Set Nat) : Set.InjOn (G.parityLoc k) s := by
  intro a _ b _ h
  simpa [Geometry.parityLoc] using h

theorem loc_ne_parityLoc (i j : Nat) : G.loc k i ≠ G.parityLoc k j :=
  fun h => Geometry.dataDev_ne_parityId (Prod.mk.inj h).1

theorem writes_backendWrite (h : Ready G dev₀ parity w x) :
    Writes G dev₀ (dataOf G x.disk.dev w.stripe) (backendWrite G E w parity x).2.1
      (backendWrite G E w parity x).2.2 := by
  have hd : ((Query.writing w.src).submitAll E (G.dataWrite w.stripe w.off w.size)
      x.disk).2.1.Follows (fun p => G.loc w.stripe (w.off + p)) w.size (fun _ => True)
      ((Query.writing w.src).submitAll E (G.dataWrite w.stripe w.off w.size) x.disk).2.2.dev :=
    Query.follows_submitAll (Query.follows_writing _)
      (fun s hs => Geometry.dataWrite_fits h.fits hs) (loc_injOn _ (by omega) _)
      fun _ p hp _ => .inr (Geometry.dataWrite_cover h.fits hp)
  have hout : ∀ i < G.stripeDataSz, ¬ (w.off ≤ i ∧ i < w.off + w.size) →
      ((Query.writing w.src).submitAll E (G.dataWrite w.stripe w.off w.size) x.disk).2.2.dev
        (G.loc w.stripe i) = dataOf G x.disk.dev w.stripe i := fun i _ hn =>
    Query.submitAll_elsewhere (fun s hs => Geometry.dataWrite_fits h.fits hs) fun p hp he =>
      hn (by have := Geometry.loc_injective he; omega)
  have hrej := @Query.rej_submitAll E (Query.writing w.src) (G.dataWrite w.stripe w.off w.size)
    x.disk rfl
  refine ⟨h.fits, by simpa [backendWrite] using h.idle, fun hw i hi => (h.set.data hw).1 i hi, ?_,
    ?_, ⟨?_, ?_⟩, ?_, ?_⟩
  all_goals
    simp only [backendWrite, SubWrite.toSlice_set, SubWrite.query_set_self,
      SubWrite.query_set_of_ne, ne_eq, reduceCtorEq, not_false_eq_true]
  · intro i hi hn
    split
    · rw [Query.submitAll_elsewhere (fun s hs => Geometry.parityWrite_fits hs)
        fun p _ => (loc_ne_parityLoc i p).symm]
      exact hout i hi hn
    · exact hout i hi hn
  · exact ⟨by simp [Query.writing], Query.buf_submitAll_of_write rfl⟩
  · split
    · simp [Query.writing]
    · rfl
  · intro ht j hj
    have hbuf : (if ((Query.writing w.src).submitAll E (G.dataWrite w.stripe w.off w.size)
        x.disk).1 = 0 then (Query.writing parity).submitAll E (G.parityWrite w.stripe 0 G.stripSz)
          ((Query.writing w.src).submitAll E (G.dataWrite w.stripe w.off w.size) x.disk).2.2
        else (((Query.writing w.src).submitAll E (G.dataWrite w.stripe w.off w.size) x.disk).1,
          Query.writing parity, ((Query.writing w.src).submitAll E
            (G.dataWrite w.stripe w.off w.size) x.disk).2.2)).2.1.buf = parity := by
      split
      · exact Query.buf_submitAll_of_write rfl
      · rfl
    rw [hbuf]
    exact h.parity ht j hj
  · split
    · exact Query.follows_elsewhere hd fun p _ => Query.submitAll_elsewhere
        (fun s hs => Geometry.parityWrite_fits hs) fun p' _ => (loc_ne_parityLoc _ p').symm
    · exact hd
  · rw [hrej]
    split
    · exact Query.follows_submitAll (Query.follows_writing _)
        (fun s hs => Geometry.parityWrite_fits hs) (parityLoc_injOn _)
        fun _ p hp _ => .inr (Geometry.parityWrite_cover hp)
    · rename_i hr
      exact ⟨by simp [Query.writing], fun _ _ _ h₀ => absurd h₀ hr, Query.honest_writing _⟩

theorem code_of_writes (h : Writes G dev₀ old w x) (hr : r.Strip) :
    (w.query r).err = 0 ↔ (w.query r).bad = false := by
  obtain rfl | rfl := hr
  · exact h.wqd.code
  · exact h.wqp.code

/-- On the coherent path the end of a query takes the flag if the query failed. -/
theorem coh_whenIdle {s : SubWrite × Inner} (hc : s.1.coherent = true)
    (hcode : (s.1.query r).err = 0 ↔ (s.1.query r).bad = false) :
    (whenIdle r (writeDone G r) s).2.coh s.1.stripe = true ↔
      s.2.coh s.1.stripe = true ∧ (s.1.Idle r → (s.1.query r).bad = false) := by
  unfold whenIdle writeDone
  rw [if_pos hc]
  split
  · split <;> simp_all [Inner.setCoh]
  · simp_all

/-- On the incoherent path the end of both queries sets the flag to whether none failed. -/
theorem coh_guard (r r' : Role) (h : Writes G dev₀ old w x) (hi : w.Idle .wqd ∧ w.Idle .wqp) :
    (combinedCompleterGuard r r' w x).2.coh w.stripe = true ↔
      ∀ r, r.Strip → w.Idle r → (w.query r).bad = false := by
  have hd := code_of_writes h (.inl rfl)
  have hp := code_of_writes h (.inr rfl)
  simp [combinedCompleterGuard, Inner.setCoh, Role.Strip, hi, hd, hp]

theorem held_guard {r r' : Role} (h : Writes G dev₀ old w x) (hi : w.Idle .wqd ∧ w.Idle .wqp) :
    Held G dev₀ (combinedCompleterGuard r r' w x).1 (combinedCompleterGuard r r' w x).2 := by
  refine .write old (writes_stays h stays_guard ?_ rfl) fun _ => ?_
  · simp [combinedCompleterGuard]
  · simpa [combinedCompleterGuard, SubWrite.Idle] using coh_guard r r' h hi

theorem held_stripeIncoherentParityWrite (h : Ready G dev₀ parity w x) (hc : w.coherent = false) :
    Held G dev₀ (stripeIncoherentParityWrite G E w parity x).2.1
      (stripeIncoherentParityWrite G E w parity x).2.2 := by
  have hw := writes_backendWrite (E := E) h
  obtain ⟨r, r', -, -, -, he⟩ := stripeIncoherentParityWrite_eq G E w parity x
  rw [he]
  dsimp only
  split
  · exact held_guard hw ‹_›
  · rename_i hn
    refine .write _ hw fun hor => ?_
    obtain hor | hor := hor
    · rw [show (backendWrite G E w parity x).2.1.coherent = w.coherent from rfl, hc] at hor
      cases hor
    · exact absurd hor hn

theorem held_stripeCoherentParityWrite (h : Ready G dev₀ parity w x) (hc : w.coherent = true)
    (hx : x.coh w.stripe = true) :
    Held G dev₀ (stripeCoherentParityWrite G E w parity x).2.1
      (stripeCoherentParityWrite G E w parity x).2.2 := by
  have hw := writes_backendWrite (E := E) h
  have hs : Stays G w x (backendWrite G E w parity x).2 := stays_backendWrite
  unfold stripeCoherentParityWrite
  dsimp only
  have hcs : (backendWrite G E w parity x).2.1.coherent = true := hc
  have hxs : (backendWrite G E w parity x).2.2.coh (backendWrite G E w parity x).2.1.stripe =
    true := hx
  generalize (backendWrite G E w parity x).2 = s at *
  obtain ⟨hq₁, hd₁, hc₁⟩ := query_whenIdle (G := G) (r := .wqd) (s := s)
  obtain ⟨hq₂, hd₂, -⟩ :=
    query_whenIdle (G := G) (r := .wqp) (s := whenIdle .wqd (writeDone G .wqd) s)
  have hs₁ : Stays G s.1 s.2 (whenIdle .wqd (writeDone G .wqd) s) :=
    stays_whenIdle stays_refl fun _ => stays_writeDone
  have hs₂ : Stays G s.1 s.2
      (whenIdle .wqp (writeDone G .wqp) (whenIdle .wqd (writeDone G .wqd) s)) :=
    stays_whenIdle hs₁ fun _ => stays_writeDone
  refine .write _ (writes_stays hw hs₂ (hq₂.trans hq₁) (hd₂.trans hd₁)) fun _ => ?_
  have hcoh₁ := coh_whenIdle (G := G) hcs (code_of_writes hw (.inl rfl))
  have hcoh₂ := coh_whenIdle (G := G) (r := .wqp) (hc₁.trans hcs)
    (by rw [hq₁]; exact code_of_writes hw (.inr rfl))
  rw [stripe_of_request hs₁.request] at hcoh₂
  rw [stripe_of_request hs₂.request, hcoh₂, hcoh₁]
  simp only [SubWrite.Idle, hq₂, hq₁, Role.Strip, forall_eq_or_imp, forall_eq, hxs, true_and]

/-- Only the queries, the path and what is asked for matter. -/
theorem held_of_eq (h : Held G dev₀ w x) (hq : w'.query = w.query)
    (hr : w'.request = w.request) (hc : w'.coherent = w.coherent) : Held G dev₀ w' x := by
  have hslice := slice_of_request hr
  cases h with
  | data hfits hset hcoh hbusy hidle hclean hread hf =>
    apply Held.data <;> simp only [SubWrite.Idle, hq, hslice, hc]
    all_goals assumption
  | parity hfits hset hcoh hcw hbusy hidle hclean hread hdata hf =>
    apply Held.parity <;> simp only [SubWrite.Idle, hq, hslice, hc]
    all_goals assumption
  | write old hw hf =>
    refine .write old (writes_of_eq hw hq hr rfl rfl) ?_
    unfold Flagged at *
    simpa only [SubWrite.Idle, hq, hslice, hc] using hf

theorem held_setErr (h : Held G dev₀ w x) : Held G dev₀ (w.setErr e) x :=
  held_of_eq h (by simp) (by simp) (by simp)

/-- The old data and the old parity have been read. -/
theorem held_rpqDone (hfits : w.off + w.size ≤ G.stripeDataSz) (hset : Settled G dev₀ w.stripe x)
    (hcoh : x.coh w.stripe = w.coherent) (hc : w.coherent = true) (hidle : ∀ r, w.Idle r)
    (hclean : (w.query .rpq).Clean)
    (hdata : ∀ p < w.size, (w.query .rqd).buf p = x.disk.dev (G.loc w.stripe (w.off + p)))
    (hq : (w.query .rpq).Follows (G.parityLoc w.stripe) G.stripSz (fun _ => True) x.disk.dev) :
    Held G dev₀ (rpqDone G E w x).1 (rpqDone G E w x).2 := by
  unfold rpqDone
  dsimp only
  rw [if_pos (hq.code.mpr hclean.2)]
  refine held_stripeCoherentParityWrite ⟨hfits, ⟨hidle _, hidle _⟩, hset, fun ht j hj => ?_⟩ hc
    (hcoh.trans hc)
  have hz := G.stripSz_pos
  have hzero := xorZero_iff.mp (hset.xor ht (hcoh.trans hc)) j hj
  have hold := Query.agrees_of_ended hq hclean (hidle _) hj trivial
  rw [parityTo_eq hz hj, hold, hzero, share_overlay hfits, share_mod]
  congr 1
  refine share_congr fun i hi => ?_
  rw [xorTo, if_pos ⟨Nat.zero_le i, by omega⟩, hdata i hi, Byte.xor_eq_add, add_comm]
  rfl

/-- The parity is being read, or has been. -/
theorem held_rpq {s : SubWrite × Inner} (hfits : s.1.off + s.1.size ≤ G.stripeDataSz)
    (hset : Settled G dev₀ s.1.stripe s.2) (hcoh : s.2.coh s.1.stripe = s.1.coherent)
    (hc : s.1.coherent = true) (hidle : ∀ r, r ≠ .rpq → s.1.Idle r)
    (hclean : (s.1.query .rpq).Clean) (hread : (s.1.query .rpq).write = false)
    (hdata : ∀ p < s.1.size,
      (s.1.query .rqd).buf p = s.2.disk.dev (G.loc s.1.stripe (s.1.off + p)))
    (hq : (s.1.query .rpq).Follows (G.parityLoc s.1.stripe) G.stripSz (fun _ => True)
      s.2.disk.dev) :
    Held G dev₀ (whenIdle .rpq (rpqDone G E) s).1 (whenIdle .rpq (rpqDone G E) s).2 := by
  unfold whenIdle
  split
  · rename_i hi
    refine held_rpqDone hfits hset hcoh hc (fun r => ?_) hclean hdata hq
    by_cases hr : r = .rpq
    · exact hr ▸ hi
    · exact hidle r hr
  · exact .parity hfits hset hcoh hc ‹_› hidle hclean hread hdata hq

/-- A read of a sub-write where no read fails. -/
theorem submitRead_follows (hE : ∀ i, (E.beh false i).Succeeds) {buf : Nat → Byte} {ss : List Sub}
    {loc : Nat → Addr} {size : Nat} (hs : ∀ s ∈ ss, s.Fits loc size)
    (hinj : Set.InjOn loc (Set.Iio size)) (hcov : ∀ p < size, ∃ s ∈ ss, s.Covers p) :
    ((submitRead E r buf ss w x).2.1.query r).Clean ∧
      ((submitRead E r buf ss w x).2.1.query r).write = false ∧
      ((submitRead E r buf ss w x).2.1.query r).Follows loc size (fun _ => True)
        (submitRead E r buf ss w x).2.2.disk.dev := by
  obtain ⟨-, hclean⟩ := @Query.clean_submitAll E (Query.read buf) ss x.disk hE ⟨rfl, rfl⟩
  have hf := @Query.follows_submitAll E _ _ x.disk _ _ _ (fun _ => True)
    (Query.follows_read buf) hs hinj fun _ p hp _ => .inr (hcov p hp)
  simp only [submitRead, SubWrite.query_set_self, Query.write_submitAll]
  exact ⟨hclean, rfl, hf⟩

theorem dev_submitRead {buf : Nat → Byte} {ss : List Sub} :
    (submitRead E r buf ss w x).2.2.disk.dev = x.disk.dev := Query.dev_submitAll_of_read rfl

theorem settled_submitRead {buf : Nat → Byte} {ss : List Sub} (h : Settled G dev₀ k x) :
    Settled G dev₀ k (submitRead E r buf ss w x).2.2 :=
  settled_congr (x := x) (fun a _ => congrFun dev_submitRead a) rfl rfl h

/-- The data to read has been read. Reads are assumed to succeed from here on. -/
theorem held_rqdDone (hE : ∀ i, (E.beh false i).Succeeds)
    (hfits : w.off + w.size ≤ G.stripeDataSz) (hset : Settled G dev₀ w.stripe x)
    (hcoh : x.coh w.stripe = w.coherent) (hidle : ∀ r, w.Idle r) (hclean : (w.query .rqd).Clean)
    (hq : (w.query .rqd).Follows
      (fun p => G.loc w.stripe ((if w.coherent then w.off else 0) + p))
      (if w.coherent then w.size else G.stripeDataSz) (fun _ => True) x.disk.dev) :
    Held G dev₀ (rqdDone G E w x).1 (rqdDone G E w x).2 := by
  have hz := G.stripSz_pos
  have hread : ∀ p < (if w.coherent then w.size else G.stripeDataSz), (w.query .rqd).buf p =
      x.disk.dev (G.loc w.stripe ((if w.coherent then w.off else 0) + p)) := fun p hp =>
    Query.agrees_of_ended hq hclean (hidle _) hp trivial
  unfold rqdDone
  dsimp only
  rw [if_pos (hq.code.mpr hclean.2)]
  cases hc : w.coherent with
  | true =>
    simp only [hc, if_true] at hread ⊢
    apply held_setErr
    obtain ⟨hclean', hread', hf⟩ := @submitRead_follows _ w x .rpq hE
      (fun j => E.junk w.id (G.stripeDataSz + j)) _ _ _
      (fun s hs => Geometry.parityRead_fits (G := G) (k := w.stripe) le_rfl hs) (parityLoc_injOn _)
      fun p hp => Geometry.parityRead_cover le_rfl hp
    refine held_rpq hfits (settled_submitRead hset) (hcoh.trans rfl) hc
      (fun r hr => (SubWrite.idle_set_of_ne hr).mpr (hidle r)) hclean' hread' (fun p hp => ?_) hf
    rw [dev_submitRead]
    simpa [submitRead] using hread p hp
  | false =>
    simp only [hc, Bool.false_eq_true, if_false, Nat.zero_add] at hread ⊢
    apply held_setErr
    refine held_stripeIncoherentParityWrite ⟨hfits, ⟨hidle _, hidle _⟩, hset, fun _ j hj => ?_⟩ hc
    rw [parityRenew_eq hz hj]
    refine share_congr fun i hi => ?_
    unfold overlay
    split
    · rfl
    · exact hread i hi

theorem held_rqd (hE : ∀ i, (E.beh false i).Succeeds) {s : SubWrite × Inner}
    (hfits : s.1.off + s.1.size ≤ G.stripeDataSz) (hset : Settled G dev₀ s.1.stripe s.2)
    (hcoh : s.2.coh s.1.stripe = s.1.coherent) (hidle : ∀ r, r ≠ .rqd → s.1.Idle r)
    (hclean : (s.1.query .rqd).Clean) (hread : (s.1.query .rqd).write = false)
    (hq : (s.1.query .rqd).Follows
      (fun p => G.loc s.1.stripe ((if s.1.coherent then s.1.off else 0) + p))
      (if s.1.coherent then s.1.size else G.stripeDataSz) (fun _ => True) s.2.disk.dev) :
    Held G dev₀ (whenIdle .rqd (rqdDone G E) s).1 (whenIdle .rqd (rqdDone G E) s).2 := by
  unfold whenIdle
  split
  · rename_i hi
    refine held_rqdDone hE hfits hset hcoh (fun r => ?_) hclean hq
    by_cases hr : r = .rqd
    · exact hr ▸ hi
    · exact hidle r hr
  · exact .data hfits hset hcoh ‹_› hidle hclean hread hq

theorem dataRead_follows {off size : Nat} (ho : off < G.stripeDataSz)
    (h : off + size ≤ G.stripeDataSz) : ∀ s ∈ G.dataRead k off size,
      s.Fits (fun p => G.loc k (off + p)) size := by
  intro s hs p hp
  obtain ⟨hlt, haddr⟩ := Geometry.dataRead_fits ho hs p hp
  refine ⟨hlt, haddr.trans ?_⟩
  dsimp only
  rw [Nat.add_assoc, Geometry.flatLoc_eq (by omega)]

/-- A sub-write as it is made. -/
structure Fresh (G : Geometry) (w : SubWrite) : Prop where
  pos : 0 < w.size
  fits : w.off + w.size ≤ G.stripeDataSz
  idle : ∀ r, w.Idle r

theorem held_stripePartWrite (hE : ∀ i, (E.beh false i).Succeeds) (hw : Fresh G w)
    (hset : Settled G dev₀ w.stripe x) (hcoh : x.coh w.stripe = w.coherent) :
    Held G dev₀ (stripePartWrite G E w x).2.1 (stripePartWrite G E w x).2.2 := by
  obtain ⟨hpos, hfits, hidle⟩ := hw
  have ho : (if w.coherent then w.off else 0) < G.stripeDataSz := by
    have := G.stripeDataSz_pos
    split <;> omega
  have hsum : (if w.coherent then w.off else 0) +
      (if w.coherent then w.size else G.stripeDataSz) ≤ G.stripeDataSz := by
    split <;> omega
  obtain ⟨hclean, hread, hf⟩ := @submitRead_follows _ w x .rqd hE
    (fun p => E.junk w.id ((if w.coherent then w.off else 0) + p)) _ _ _
    (dataRead_follows (k := w.stripe) ho hsum) (loc_injOn _ (by omega) _)
    fun p hp => Geometry.dataRead_cover ho hp
  exact held_rqd hE hfits (settled_submitRead hset) hcoh
    (fun r hr => (SubWrite.idle_set_of_ne hr).mpr (hidle r)) hclean hread hf

theorem held_stripeDataWrite (hw : Fresh G w) (hset : Settled G dev₀ w.stripe x)
    (hcoh : x.coh w.stripe = w.coherent) (hfull : ¬ w.size < G.stripeDataSz) :
    Held G dev₀ (stripeDataWrite G E w x).2.1 (stripeDataWrite G E w x).2.2 := by
  obtain ⟨hpos, hfits, hidle⟩ := hw
  have hready : Ready G dev₀ (parityRenew w.src G.stripeDataSz G.stripSz) w x := by
    refine ⟨hfits, ⟨hidle _, hidle _⟩, hset, fun _ j hj => ?_⟩
    rw [parityRenew_eq G.stripSz_pos hj]
    refine share_congr fun i hi => ?_
    rw [overlay, if_pos (by omega), show w.off = 0 by omega]
    rfl
  unfold stripeDataWrite stripeWrite
  split
  · rename_i hc
    exact held_stripeCoherentParityWrite hready hc (hcoh.trans hc)
  · rename_i hc
    exact held_stripeIncoherentParityWrite hready (by simpa using hc)

theorem held_process (hE : ∀ i, (E.beh false i).Succeeds) (hw : Fresh G w)
    (hset : Settled G dev₀ w.stripe x) :
    Held G dev₀ (process G E w x).2.1 (process G E w x).2.2 := by
  have hw' : Fresh G { w with coherent := x.coh w.stripe } := ⟨hw.pos, hw.fits, hw.idle⟩
  suffices h : ∀ s : Int × SubWrite × Inner, Held G dev₀ s.2.1 s.2.2 →
      Held G dev₀ { s.2.1 with res := s.1 } s.2.2 by
    refine h _ ?_
    split
    · exact held_stripePartWrite hE hw' hset rfl
    · exact held_stripeDataWrite hw' hset rfl ‹_›
  exact fun s hs => held_of_eq hs rfl rfl rfl

/-- A query that writes: the flag follows it to its end. -/
theorem held_strip (hr : r.Strip) {s : SubWrite × Inner} (hw : Writes G dev₀ old s.1 s.2)
    (hf : s.1.coherent = true → (s.2.coh s.1.stripe = true ↔
      ∀ r', r'.Strip → r' ≠ r → s.1.Idle r' → (s.1.query r').bad = false)) :
    Held G dev₀ (whenIdle r (writeDone G r) s).1 (whenIdle r (writeDone G r) s).2 := by
  by_cases hc : s.1.coherent = true
  · obtain ⟨hq, hd, -⟩ := query_whenIdle (G := G) (r := r) (s := s)
    have hs : Stays G s.1 s.2 (whenIdle r (writeDone G r) s) :=
      stays_whenIdle stays_refl fun _ => stays_writeDone
    refine .write old (writes_stays hw hs hq hd) fun _ => ?_
    rw [stripe_of_request hs.request, coh_whenIdle hc (code_of_writes hw hr), hf hc]
    simp only [SubWrite.Idle, hq]
    constructor
    · rintro ⟨hother, hself⟩ r' hr' hi
      by_cases he : r' = r
      · exact he ▸ hself (he ▸ hi)
      · exact hother r' hr' he hi
    · exact fun h => ⟨fun r' hr' _ => h r' hr', h r hr⟩
  · unfold whenIdle writeDone
    rw [if_neg hc]
    split
    · split
      · split
        · exact held_guard hw ‹_›
        · exact held_guard hw ‹_›
      · rename_i hi
        exact .write old hw fun hor => absurd (hor.resolve_left hc) hi
    · rename_i hi
      refine .write old hw fun hor => absurd (hor.resolve_left hc) fun hb => hi ?_
      obtain rfl | rfl := hr
      · exact hb.1
      · exact hb.2

theorem writes_set_of_strip (h : Writes G dev₀ old w x) (hr : r.Strip) (hwrite : q.write = true)
    (hbuf : q.buf = (w.query r).buf) (hrej : q.rej = (w.query r).rej)
    (hdev : ∀ i < G.stripeDataSz, ¬ (w.off ≤ i ∧ i < w.off + w.size) →
      dev' (G.loc w.stripe i) = x.disk.dev (G.loc w.stripe i))
    (hd : ((w.set r q).query .wqd).Follows (fun p => G.loc w.stripe (w.off + p)) w.size
      (fun _ => True) dev')
    (hp : ((w.set r q).query .wqp).Follows (G.parityLoc w.stripe) G.stripSz
      (fun _ => (w.query .wqd).rej = 0) dev') :
    Writes G dev₀ old (w.set r q) { x with disk := { x.disk with dev := dev' } } := by
  have hrejd : ((w.set r q).query .wqd).rej = (w.query .wqd).rej := by
    by_cases hd : .wqd = r
    · subst hd; simpa using hrej
    · rw [SubWrite.query_set_of_ne hd]
  have hkeep : ∀ r', ((w.set r q).query r').buf = (w.query r').buf ∧
      (r'.Strip → ((w.set r q).query r').write = true) := fun r' => by
    by_cases he : r' = r
    · subst he; simp [hbuf, hwrite]
    · rw [SubWrite.query_set_of_ne he]
      refine ⟨rfl, ?_⟩
      rintro (rfl | rfl)
      · exact h.data.1
      · exact h.parity.1
  have hidle : ∀ r', ¬ r'.Strip → w.Idle r' → (w.set r q).Idle r' := fun r' hn hi =>
    (SubWrite.idle_set_of_ne (by rintro rfl; exact hn hr)).mpr hi
  refine ⟨h.fits, ⟨hidle _ (by simp [Role.Strip]) h.idle.1, hidle _ (by simp [Role.Strip]) h.idle.2⟩,
    h.base, fun i hi hn => (hdev i hi hn).trans (h.outside i hi hn),
    ⟨(hkeep _).2 (.inl rfl), (hkeep _).1.trans h.data.2⟩,
    ⟨(hkeep _).2 (.inr rfl), fun ht j hj => ?_⟩, hd, ?_⟩
  · rw [(hkeep .wqp).1]; exact h.parity.2 ht j hj
  · rw [hrejd]; exact hp

theorem clean_of_settle {q' : Query} {n : Nat} (h : q.settle n 0 = some q') (hc : q.Clean) :
    q'.Clean := by
  obtain ⟨-, -, hrej, -, hbad⟩ := Query.settle_keeps h
  exact ⟨hrej.trans hc.1, hbad.mpr ⟨rfl, hc.2⟩⟩

theorem held_settle (hE : ∀ i, (E.beh false i).Succeeds) (h : Held G dev₀ w x) {n : Nat}
    (he : ¬ r.Strip → e = 0) (hs : (w.query r).settle n e = some q) :
    Held G dev₀ (whenIdle r (queryDone G E r) (w.set r q, x)).1
      (whenIdle r (queryDone G E r) (w.set r q, x)).2 := by
  have hbusy := idle_of_settle hs
  obtain ⟨-, hwrite, hrej, hbuf, hbad⟩ := Query.settle_keeps hs
  cases h with
  | data hfits hset hcoh _ hidle hclean hread hq =>
    obtain rfl : r = .rqd := by_contra fun hr => hbusy (hidle r hr)
    obtain rfl := he (by simp [Role.Strip])
    refine held_rqd hE hfits hset hcoh (fun r hr => (SubWrite.idle_set_of_ne hr).mpr (hidle r hr))
      ?_ ?_ ?_
    all_goals rw [SubWrite.query_set_self]
    · exact clean_of_settle hs hclean
    · exact hwrite.trans hread
    · exact Query.follows_settle hq hs
  | parity hfits hset hcoh hc _ hidle hclean hread hdata hq =>
    obtain rfl : r = .rpq := by_contra fun hr => hbusy (hidle r hr)
    obtain rfl := he (by simp [Role.Strip])
    refine held_rpq hfits hset hcoh hc
      (fun r hr => (SubWrite.idle_set_of_ne hr).mpr (hidle r hr)) ?_ ?_ ?_ ?_
    · rw [SubWrite.query_set_self]; exact clean_of_settle hs hclean
    · rw [SubWrite.query_set_self]; exact hwrite.trans hread
    · rw [SubWrite.query_set_of_ne (by simp)]; exact hdata
    · rw [SubWrite.query_set_self]; exact Query.follows_settle hq hs
  | write old hw hf =>
    have hr : r.Strip := by
      cases r with
      | rqd => exact absurd hw.idle.1 hbusy
      | rpq => exact absurd hw.idle.2 hbusy
      | wqd => exact .inl rfl
      | wqp => exact .inr rfl
    have hq : queryDone G E r = writeDone G r := by obtain rfl | rfl := hr <;> rfl
    have hwr : (w.query r).write = true := by
      obtain rfl | rfl := hr
      · exact hw.data.1
      · exact hw.parity.1
    rw [hq]
    refine held_strip hr
      (@writes_set_of_strip _ _ x.disk.dev _ _ _ _ _ hw hr (hwrite.trans hwr) hbuf hrej
      (fun _ _ _ => rfl) ?_ ?_) fun hc => ?_
    · by_cases hd : .wqd = r
      · subst hd; rw [SubWrite.query_set_self]; exact Query.follows_settle hw.wqd hs
      · rw [SubWrite.query_set_of_ne hd]; exact hw.wqd
    · by_cases hd : .wqp = r
      · subst hd; rw [SubWrite.query_set_self]; exact Query.follows_settle hw.wqp hs
      · rw [SubWrite.query_set_of_ne hd]; exact hw.wqp
    · refine (hf (.inl hc)).trans ?_
      constructor
      · intro h r' hr' hne hi
        rw [SubWrite.query_set_of_ne hne]
        exact h r' hr' ((SubWrite.idle_set_of_ne hne).mp hi)
      · intro h r' hr' hi
        have hne : r' ≠ r := by rintro rfl; exact hbusy hi
        have := h r' hr' hne ((SubWrite.idle_set_of_ne hne).mpr hi)
        rwa [SubWrite.query_set_of_ne hne] at this

/-- Each of a sub-write's queries keeps to the addresses of its stripe. -/
theorem effect_in_stripe (h : Held G dev₀ w x) {n : Nat} {hit : Nat → Bool}
    (hs : (w.query r).effect n hit x.disk.dev = some (q, dev')) {a : Addr}
    (ha : a.2 / G.stripSz ≠ w.stripe) : dev' a = x.disk.dev a := by
  have hbusy := idle_of_effect hs
  cases h with
  | data hfits hset hcoh _ hidle hclean hread hq =>
    obtain rfl : r = .rqd := by_contra fun hr => hbusy (hidle r hr)
    rw [Query.dev_effect_of_read hread hs]
  | parity hfits hset hcoh hc _ hidle hclean hread hdata hq =>
    obtain rfl : r = .rpq := by_contra fun hr => hbusy (hidle r hr)
    rw [Query.dev_effect_of_read hread hs]
  | write old hw hf =>
    cases r with
    | rqd => exact absurd hw.idle.1 hbusy
    | rpq => exact absurd hw.idle.2 hbusy
    | wqd => exact Query.effect_elsewhere hw.wqd hs fun p _ => elsewhere_loc ha _
    | wqp => exact Query.effect_elsewhere hw.wqp hs fun p hp => elsewhere_parityLoc ha hp

theorem held_effect (h : Held G dev₀ w x) {n : Nat} {hit : Nat → Bool}
    (hs : (w.query r).effect n hit x.disk.dev = some (q, dev')) :
    Held G dev₀ (w.set r q) { x with disk := { x.disk with dev := dev' } } := by
  have hbusy := idle_of_effect hs
  obtain ⟨hwrite, hrej, herr, hbad, -, hbuf⟩ := Query.effect_keeps hs
  have hidle : ∀ {r'}, (w.set r q).Idle r' ↔ w.Idle r' := idle_effect hs
  cases h with
  | data hfits hset hcoh hb hi hclean hread hq =>
    obtain rfl : r = .rqd := by_contra fun hr => hbusy (hi r hr)
    obtain rfl := Query.dev_effect_of_read hread hs
    refine .data hfits hset hcoh (fun h => hb (hidle.mp h)) (fun r hr => hidle.mpr (hi r hr))
      ?_ ?_ ?_
    all_goals rw [SubWrite.query_set_self]
    · exact ⟨hrej.trans hclean.1, hbad.trans hclean.2⟩
    · exact hwrite.trans hread
    · exact Query.follows_effect hq (loc_injOn _ (by omega) _) hs
  | parity hfits hset hcoh hc hb hi hclean hread hdata hq =>
    obtain rfl : r = .rpq := by_contra fun hr => hbusy (hi r hr)
    obtain rfl := Query.dev_effect_of_read hread hs
    refine .parity hfits hset hcoh hc (fun h => hb (hidle.mp h))
      (fun r hr => hidle.mpr (hi r hr)) ?_ ?_ ?_ ?_
    · rw [SubWrite.query_set_self]; exact ⟨hrej.trans hclean.1, hbad.trans hclean.2⟩
    · rw [SubWrite.query_set_self]; exact hwrite.trans hread
    · rw [SubWrite.query_set_of_ne (by simp)]; exact hdata
    · rw [SubWrite.query_set_self]; exact Query.follows_effect hq (parityLoc_injOn _) hs
  | write old hw hf =>
    have hflag : ∀ r', ((w.set r q).query r').bad = (w.query r').bad := fun r' => by
      by_cases hr : r' = r
      · subst hr; rw [SubWrite.query_set_self]; exact hbad
      · rw [SubWrite.query_set_of_ne hr]
    refine .write old ?_ fun hor => ?_
    · cases r with
      | rqd => exact absurd hw.idle.1 hbusy
      | rpq => exact absurd hw.idle.2 hbusy
      | wqd =>
        refine writes_set_of_strip hw (.inl rfl) (hwrite.trans hw.data.1) (hbuf hw.data.1) hrej
          (fun i _ hn => ?_) ?_ ?_
        · exact Query.effect_elsewhere hw.wqd hs fun p _ he =>
            hn (by have := Geometry.loc_injective he; omega)
        · rw [SubWrite.query_set_self]
          exact Query.follows_effect hw.wqd (loc_injOn _ (by omega) _) hs
        · rw [SubWrite.query_set_of_ne (by simp)]
          exact Query.follows_elsewhere hw.wqp fun j _ =>
            Query.effect_elsewhere hw.wqd hs fun p _ => loc_ne_parityLoc _ j
      | wqp =>
        refine writes_set_of_strip hw (.inr rfl) (hwrite.trans hw.parity.1) (hbuf hw.parity.1) hrej
          (fun i _ _ => ?_) ?_ ?_
        · exact Query.effect_elsewhere hw.wqp hs fun p _ => (loc_ne_parityLoc i p).symm
        · rw [SubWrite.query_set_of_ne (by simp)]
          exact Query.follows_elsewhere hw.wqd fun p _ =>
            Query.effect_elsewhere hw.wqp hs fun j _ => (loc_ne_parityLoc _ j).symm
        · rw [SubWrite.query_set_self]
          exact Query.follows_effect hw.wqp (parityLoc_injOn _) hs
    · rw [SubWrite.coherent_set, hidle, hidle] at hor
      simp only [hidle, hflag]
      exact hf hor

end Ublk.Raidsp
