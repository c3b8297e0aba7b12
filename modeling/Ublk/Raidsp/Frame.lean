import Ublk.Raidsp.Acceptor

/-! What the acceptor's functions leave alone: other stripes, and what a sub-write asks for. -/
namespace Ublk.Raidsp

open Shared Serial

variable {G : Geometry} {E : Env} {w w' w'' : SubWrite} {x x' x'' : Inner} {r : Role} {q : Query}
  {e : Int} {k : Nat} {parity : Nat → Byte} {d : Disk} {a : Addr}

/-- The queries that write. -/
def Role.Strip (r : Role) : Prop := r = .wqd ∨ r = .wqp

namespace SubWrite

/-- What a sub-write asks for, and whether it waited. -/
def request (w : SubWrite) : Nat × Slice × Bool := (w.id, w.toSlice, w.waited)

@[simp] theorem request_set : (w.set r q).request = w.request := rfl

@[simp] theorem request_setErr : (w.setErr e).request = w.request := by
  unfold setErr; split <;> rfl

end SubWrite

/-- Outside stripe `k` the devices and the flags did not change. -/
structure Elsewhere (G : Geometry) (k : Nat) (x x' : Inner) : Prop where
  coh : ∀ k' ≠ k, x'.coh k' = x.coh k'
  dev : ∀ a : Addr, a.2 / G.stripSz ≠ k → x'.disk.dev a = x.disk.dev a

theorem elsewhere_refl : Elsewhere G k x x := ⟨fun _ _ => rfl, fun _ _ => rfl⟩

theorem elsewhere_trans (h : Elsewhere G k x x') (h' : Elsewhere G k x' x'') :
    Elsewhere G k x x'' :=
  ⟨fun k' hk => (h'.coh k' hk).trans (h.coh k' hk), fun a ha => (h'.dev a ha).trans (h.dev a ha)⟩

theorem elsewhere_disk {d : Disk} (hd : ∀ a : Addr, a.2 / G.stripSz ≠ k → d.dev a = x.disk.dev a) :
    Elsewhere G k x { x with disk := d } := ⟨fun _ _ => rfl, hd⟩

theorem elsewhere_setCoh {b : Bool} : Elsewhere G k x (x.setCoh k b) :=
  ⟨fun _ hk => by simp [Inner.setCoh, hk], fun _ _ => rfl⟩

/-- A function on a sub-write and the state keeps to the sub-write's stripe. -/
structure Stays (G : Geometry) (w : SubWrite) (x : Inner) (s : SubWrite × Inner) : Prop where
  request : s.1.request = w.request
  rest : s.2 = { x with disk := s.2.disk, coh := s.2.coh }
  elsewhere : w.off + w.size ≤ G.stripeDataSz → Elsewhere G w.stripe x s.2

theorem stays_refl : Stays G w x (w, x) := ⟨rfl, rfl, fun _ => elsewhere_refl⟩

theorem id_of_request (h : w'.request = w.request) : w'.id = w.id := congrArg Prod.fst h

theorem slice_of_request (h : w'.request = w.request) : w'.toSlice = w.toSlice :=
  congrArg (fun p => p.2.1) h

theorem waited_of_request (h : w'.request = w.request) : w'.waited = w.waited :=
  congrArg (fun p => p.2.2) h

theorem stripe_of_request (h : w'.request = w.request) : w'.stripe = w.stripe :=
  congrArg Slice.stripe (slice_of_request h)

theorem end_of_request (h : w'.request = w.request) : w'.off + w'.size = w.off + w.size := by
  rw [slice_of_request h]

theorem stays_trans (h : Stays G w x (w', x')) {s : SubWrite × Inner} (h' : Stays G w' x' s) :
    Stays G w x s := by
  refine ⟨h'.request.trans h.request, ?_, fun hw => elsewhere_trans (h.elsewhere hw) ?_⟩
  · have hx : x' = { x with disk := x'.disk, coh := x'.coh } := h.rest
    rw [h'.rest, hx]
  · have he := h'.elsewhere ((end_of_request h.request).trans_le hw)
    rwa [stripe_of_request h.request] at he

theorem stays_setErr {s : SubWrite × Inner} (h : Stays G w x s) :
    Stays G w x (s.1.setErr e, s.2) := ⟨by simpa using h.request, h.rest, h.elsewhere⟩

namespace Acceptor

theorem elsewhere_loc (ha : a.2 / G.stripSz ≠ k) (i : Nat) : G.loc k i ≠ a := by
  rintro rfl
  exact ha Geometry.row_loc

theorem elsewhere_parityLoc (ha : a.2 / G.stripSz ≠ k) {j : Nat} (hj : j < G.stripSz) :
    G.parityLoc k j ≠ a := by
  rintro rfl
  exact ha (Geometry.row_parityLoc hj)

theorem stays_whenIdle {s : SubWrite × Inner} {f : SubWrite → Inner → SubWrite × Inner}
    (h : Stays G w x s) (hf : s.1.Idle r → Stays G s.1 s.2 (f s.1 s.2)) :
    Stays G w x (whenIdle r f s) := by
  unfold whenIdle
  split
  · exact stays_trans h (hf ‹_›)
  · exact h

theorem stays_submitRead {buf : Nat → Byte} {ss : List Sub} :
    Stays G w x (submitRead E r buf ss w x).2 := by
  refine ⟨rfl, rfl, fun _ => elsewhere_disk fun a _ => ?_⟩
  rw [Query.dev_submitAll_of_read rfl]

theorem stays_backendWrite :
    Stays G w x (backendWrite G E w parity x).2 := by
  refine ⟨rfl, rfl, fun hw => elsewhere_disk fun a ha => ?_⟩
  have hdata : ((Query.writing w.src).submitAll E (G.dataWrite w.stripe w.off w.size)
      x.disk).2.2.dev a = x.disk.dev a :=
    Query.submitAll_elsewhere (fun s hs => Geometry.dataWrite_fits hw hs)
      fun p _ => elsewhere_loc ha _
  split
  · rw [Query.submitAll_elsewhere (fun s hs => Geometry.parityWrite_fits hs)
      fun p hp => elsewhere_parityLoc ha hp, hdata]
  · exact hdata

theorem stays_guard {r r' : Role} : Stays G w x (combinedCompleterGuard r r' w x) :=
  ⟨by simp [combinedCompleterGuard], rfl, fun _ => elsewhere_setCoh⟩

theorem stays_writeDone : Stays G w x (writeDone G r w x) := by
  unfold writeDone
  split
  · split
    · exact stays_refl
    · exact ⟨by simp, rfl, fun _ => elsewhere_setCoh⟩
  · split
    · split
      · exact stays_guard
      · exact stays_guard
    · exact stays_refl

/-- The guard goes at once if both strips have completed, whichever of them hands on first. -/
theorem stripeIncoherentParityWrite_eq (G : Geometry) (E : Env) (w : SubWrite)
    (parity : Nat → Byte) (x : Inner) : ∃ r r' : Role, r.Strip ∧ r'.Strip ∧ r ≠ r' ∧
      stripeIncoherentParityWrite G E w parity x = ((backendWrite G E w parity x).1,
        if (backendWrite G E w parity x).2.1.Idle .wqd ∧ (backendWrite G E w parity x).2.1.Idle .wqp
        then combinedCompleterGuard r r' (backendWrite G E w parity x).2.1
          (backendWrite G E w parity x).2.2
        else (backendWrite G E w parity x).2) := by
  unfold stripeIncoherentParityWrite
  dsimp only
  by_cases hw : w.size < G.stripeDataSz
  · exact ⟨.wqp, .wqd, .inr rfl, .inl rfl, by simp, by rw [if_pos hw]⟩
  · exact ⟨.wqd, .wqp, .inl rfl, .inr rfl, by simp, by rw [if_neg hw]⟩

theorem stays_stripeIncoherentParityWrite :
    Stays G w x (stripeIncoherentParityWrite G E w parity x).2 := by
  obtain ⟨r, r', -, -, -, he⟩ := stripeIncoherentParityWrite_eq G E w parity x
  rw [he]
  dsimp only
  split
  · exact stays_trans stays_backendWrite stays_guard
  · exact stays_backendWrite

theorem stays_stripeCoherentParityWrite :
    Stays G w x (stripeCoherentParityWrite G E w parity x).2 :=
  stays_whenIdle (stays_whenIdle stays_backendWrite fun _ => stays_writeDone)
    fun _ => stays_writeDone

theorem query_writeDone : (writeDone G r w x).1.query = w.query ∧
    (writeDone G r w x).2.disk = x.disk ∧ (writeDone G r w x).1.coherent = w.coherent := by
  unfold writeDone combinedCompleterGuard
  split
  · split <;> simp [Inner.setCoh]
  · split
    · split <;> simp [Inner.setCoh]
    · simp

theorem query_whenIdle {s : SubWrite × Inner} :
    (whenIdle r (writeDone G r) s).1.query = s.1.query ∧
      (whenIdle r (writeDone G r) s).2.disk = s.2.disk ∧
      (whenIdle r (writeDone G r) s).1.coherent = s.1.coherent := by
  unfold whenIdle
  split
  · exact query_writeDone
  · exact ⟨rfl, rfl, rfl⟩

theorem stays_rpqDone : Stays G w x (rpqDone G E w x) := by
  unfold rpqDone
  dsimp only
  split
  · exact stays_stripeCoherentParityWrite
  · exact stays_setErr stays_refl

theorem stays_rqdDone : Stays G w x (rqdDone G E w x) := by
  unfold rqdDone
  dsimp only
  split
  · split
    · exact stays_setErr (stays_whenIdle stays_submitRead fun _ => stays_rpqDone)
    · exact stays_setErr stays_stripeIncoherentParityWrite
  · exact stays_setErr stays_refl

theorem stays_stripePartWrite : Stays G w x (stripePartWrite G E w x).2 :=
  stays_whenIdle stays_submitRead fun _ => stays_rqdDone

theorem stays_process : Stays G w x (process G E w x).2 := by
  suffices h : ∀ s : Int × SubWrite × Inner, Stays G { w with coherent := x.coh w.stripe } x s.2 →
      Stays G w x ({ s.2.1 with res := s.1 }, s.2.2) by
    refine h _ ?_
    split
    · exact stays_stripePartWrite
    · unfold stripeDataWrite stripeWrite
      split
      · exact stays_stripeCoherentParityWrite
      · exact stays_stripeIncoherentParityWrite
  exact fun s hs => ⟨hs.request, hs.rest, hs.elsewhere⟩

theorem stays_queryDone : Stays G w x (queryDone G E r w x) := by
  cases r with
  | rqd => exact stays_rqdDone
  | rpq => exact stays_rpqDone
  | wqd => exact stays_writeDone
  | wqp => exact stays_writeDone

theorem idle_of_settle {q' : Query} {n : Nat} (h : (w.query r).settle n e = some q') :
    ¬ w.Idle r := (Query.settle_keeps h).1

theorem idle_of_effect {q' : Query} {n : Nat} {hit : Nat → Bool}
    (h : (w.query r).effect n hit dev = some (q', dev')) : ¬ w.Idle r := by
  obtain ⟨op, hop, -⟩ := Query.effect_eq h
  intro hi
  rw [hi] at hop
  cases hop

theorem idle_effect {q' : Query} {n : Nat} {hit : Nat → Bool} {r' : Role}
    (h : (w.query r).effect n hit dev = some (q', dev')) :
    (w.set r q').Idle r' ↔ w.Idle r' := by
  by_cases hr : r' = r
  · subst hr
    rw [SubWrite.idle_set_self]
    exact (Query.effect_keeps h).2.2.2.2.1
  · exact SubWrite.idle_set_of_ne hr

section Res

/-! What `process` returned is kept to the end. -/

theorem res_whenIdle {s : SubWrite × Inner} {f : SubWrite → Inner → SubWrite × Inner}
    (hf : ∀ w x, (f w x).1.res = w.res) : (whenIdle r f s).1.res = s.1.res := by
  unfold whenIdle
  split
  · exact hf _ _
  · rfl

theorem res_guard {r r' : Role} : (combinedCompleterGuard r r' w x).1.res = w.res := by
  simp [combinedCompleterGuard]

theorem res_writeDone : (writeDone G r w x).1.res = w.res := by
  unfold writeDone
  split
  · split <;> simp
  · split
    · split <;> exact res_guard
    · rfl

theorem res_stripeCoherentParityWrite :
    (stripeCoherentParityWrite G E w parity x).2.1.res = w.res := by
  unfold stripeCoherentParityWrite
  exact (res_whenIdle fun _ _ => res_writeDone).trans (res_whenIdle fun _ _ => res_writeDone)

theorem res_stripeIncoherentParityWrite :
    (stripeIncoherentParityWrite G E w parity x).2.1.res = w.res := by
  obtain ⟨r, r', -, -, -, he⟩ := stripeIncoherentParityWrite_eq G E w parity x
  rw [he]
  dsimp only
  split
  · exact res_guard
  · rfl

theorem res_rpqDone : (rpqDone G E w x).1.res = w.res := by
  unfold rpqDone
  dsimp only
  split
  · exact res_stripeCoherentParityWrite
  · simp

theorem res_rqdDone : (rqdDone G E w x).1.res = w.res := by
  unfold rqdDone
  dsimp only
  split
  · split
    · rw [SubWrite.res_setErr]
      exact res_whenIdle fun _ _ => res_rpqDone
    · rw [SubWrite.res_setErr]
      exact res_stripeIncoherentParityWrite
  · simp

theorem res_queryDone : (queryDone G E r w x).1.res = w.res := by
  cases r with
  | rqd => exact res_rqdDone
  | rpq => exact res_rpqDone
  | wqd => exact res_writeDone
  | wqp => exact res_writeDone

theorem res_react {act : Act} (h : react G E act w x = some (w', x')) : w'.res = w.res := by
  cases act with
  | effect r k hit =>
    obtain ⟨q, -, hq⟩ := Option.map_eq_some_iff.mp h
    cases hq
    rfl
  | settle r k e =>
    obtain ⟨q, -, hq⟩ := Option.map_eq_some_iff.mp h
    have hres : (whenIdle r (queryDone G E r) (w.set r q, x)).1.res = w.res :=
      res_whenIdle fun _ _ => res_queryDone
    rwa [hq] at hres

end Res

/-- A step of a sub-write. Bytes that take effect stay in the stripe if their subquery fits. -/
theorem react_keeps {act : Act} (h : react G E act w x = some (w', x')) :
    w'.request = w.request ∧ x' = { x with disk := x'.disk, coh := x'.coh } := by
  cases act with
  | effect r k hit =>
    obtain ⟨q, -, hq⟩ := Option.map_eq_some_iff.mp h
    cases hq
    exact ⟨rfl, rfl⟩
  | settle r k e =>
    obtain ⟨q, -, hq⟩ := Option.map_eq_some_iff.mp h
    have hs : Stays G w x (whenIdle r (queryDone G E r) (w.set r q, x)) :=
      stays_whenIdle ⟨rfl, rfl, fun _ => elsewhere_refl⟩ fun _ => stays_queryDone
    rw [hq] at hs
    exact ⟨hs.request, hs.rest⟩

end Acceptor

open Acceptor

theorem mem_split {r : WriteReq} {c : Nat} (h : w ∈ (split G r c x).1) :
    ∃ p ∈ Blocks.cut G.stripeDataSz r.off r.size, w.toSlice = r.slice c p ∧
      (∀ r, w.query r = Query.read fun _ => 0) ∧ w.err = 0 ∧ w.res = 0 ∧ w.waited = false := by
  obtain ⟨i, hi, rfl⟩ := List.mem_mapIdx.mp h
  exact ⟨_, List.getElem_mem hi, rfl, fun _ => rfl, rfl, rfl, rfl⟩

theorem acceptor_keyed : (acceptor G E).Keyed where
  start w x := stripe_of_request stays_process.request
  react _ _ _ _ _ h := stripe_of_request (react_keeps h).1
  park _ := rfl
  split r c x w hw := by
    obtain ⟨p, hp, hslice, -⟩ := mem_split hw
    obtain ⟨he, hlen, -, hpos⟩ := Blocks.mem_cut G.stripeDataSz_pos hp
    change w.stripe < divRoundUp (r.off + r.size) G.stripeDataSz
    rw [hslice, show (r.slice c p).stripe = p.id from rfl, divRoundUp,
      Nat.lt_iff_add_one_le, Nat.le_div_iff_mul_le G.stripeDataSz_pos, Nat.add_mul]
    omega

/-- Client reads leave the devices, the flags and the sub-writes alone. -/
theorem beside_keeps {b : Beside} {t t' : Requests} (h : beside G E b x t = some (x', t')) :
    x' = { x with disk := x'.disk, reads := x'.reads, served := x'.served } ∧
      x'.disk.dev = x.disk.dev := by
  cases b with
  | read off size hpos =>
    simp only [beside, Option.some.injEq, Prod.mk.injEq] at h
    obtain ⟨rfl, -⟩ := h
    have hd := @Query.dev_submitAll_of_read E (Query.read (E.junk t.count))
      (G.dataRead (off / G.stripeDataSz) (off % G.stripeDataSz) size) x.disk rfl
    split <;> exact ⟨rfl, hd⟩
  | effect i n hit =>
    obtain ⟨rd, -, h⟩ := Option.bind_eq_some_iff.mp h
    obtain ⟨q, -, h⟩ := Option.map_eq_some_iff.mp h
    cases h
    exact ⟨rfl, rfl⟩
  | settle i n e =>
    obtain ⟨rd, -, h⟩ := Option.bind_eq_some_iff.mp h
    obtain ⟨q, -, h⟩ := Option.map_eq_some_iff.mp h
    split at h <;> · cases h; exact ⟨rfl, rfl⟩

/-- The client reads in flight for request `c`. -/
def readsOf (c : Nat) (x : Inner) : Nat := x.reads.countP fun rd => c == rd.cid

end Ublk.Raidsp
