import Ublk.Raidsp.Coherency
import Ublk.Raidsp.Forget
import Ublk.Raidsp.Report

/-!
The two ways of a write where nothing fails. Whether the parity is renewed from what the write
changes or from the whole stripe, the strips end up with the same bytes.
-/
namespace Ublk.Raidsp

open Shared Serial Acceptor

variable {G : Geometry} {E : Env} {dev₀ : Addr → Byte} {w w' : SubWrite} {x x' : Inner}
  {r r' : Role} {q : Query} {parity buf : Nat → Byte} {ss : List Sub} {act : Act}
  {s t : SubWrite × Inner}

/-- A step of a sub-write that works by itself. -/
def advance (G : Geometry) (E : Env) (s : SubWrite × Inner) (act : Act) :
    Option (SubWrite × Inner) := react G E act s.1 s.2

/-- What `process` starts leads to `s` and nothing fails. -/
def Leads (G : Geometry) (E : Env) (w : SubWrite) (x : Inner) (s : SubWrite × Inner) : Prop :=
  Lts.Run (advance G E) (fun _ act => act.Settles (· = 0)) (process G E w x).2 s

theorem forget_leads (h : Leads G E w x s) : Leads G E w x.forget (s.1, s.2.forget) := by
  unfold Leads at *
  rw [forget_process]
  induction h with
  | refl => exact .refl
  | tail _ ho hs ih => exact .tail ih ho (forget_react hs)

/-- What the write leaves of its stripe when it ends: the new data over the old, and its parity. -/
structure Left (G : Geometry) (w : SubWrite) (old : Nat → Byte) (dev : Addr → Byte) : Prop where
  data : ∀ i < G.stripeDataSz, dev (G.loc w.stripe i) = overlay old w.off w.size w.src i
  parity : ∀ j < G.stripSz, dev (G.parityLoc w.stripe j) =
    share G.stripSz 0 (overlay old w.off w.size w.src) G.stripeDataSz j

theorem left_of_writes {old : Nat → Byte} (hlog : x.log w.stripe = []) (h : Writes G dev₀ old w x)
    (hb : w.busy = false) (hc : w.Have Query.Clean) : Left G w (dataOf G dev₀ w.stripe) x.disk.dev := by
  have hold : ∀ i < G.stripeDataSz, old i = dataOf G dev₀ w.stripe i := by
    intro i hi
    have := h.base (by simp [hlog]) i hi
    rwa [hlog] at this
  have hover : ∀ i < G.stripeDataSz, overlay old w.off w.size w.src i =
      overlay (dataOf G dev₀ w.stripe) w.off w.size w.src i := by
    intro i hi
    unfold overlay
    split
    · rfl
    · exact hold i hi
  constructor
  · intro i hi
    rw [dataOf_of_written h hb ⟨hc .wqd, hc .wqp⟩ hi, hover i hi]
  · intro j hj
    rw [← Query.agrees_of_ended h.wqp (hc .wqp) (SubWrite.not_busy.mp hb .wqp) hj (hc .wqd).1,
      h.parity.2 (by simp [hlog]) j hj]
    exact share_congr hover

/-- Where an unflagged stripe leads, or a flagged one that cancels out. -/
theorem left_of_leads (hE : ∀ b i, (E.beh b i).Succeeds) (hw : New w) (hpos : 0 < w.size)
    (hfits : w.off + w.size ≤ G.stripeDataSz)
    (hxor : x.coh w.stripe = true → XorZero G x.disk.dev w.stripe)
    (h : Leads G E w x s) (hb : s.1.busy = false) :
    Left G w (dataOf G x.disk.dev w.stripe) s.2.disk.dev := by
  have hfresh : Fresh G w := ⟨hpos, hfits, fun r => idle_of_untouched (hw.untouched r)⟩
  have hset : Settled G x.disk.dev w.stripe x.forget :=
    ⟨fun _ hc => hxor hc, fun _ => ⟨fun _ _ => rfl, fun hn => absurd rfl hn⟩⟩
  have hstays : Stays G w x.forget (process G E w x.forget).2 := stays_process
  have hinv : Held G x.disk.dev s.1 s.2.forget ∧ s.1.Have Query.Clean ∧
      s.1.toSlice = w.toSlice ∧ s.2.forget.done = [] := by
    refine Lts.run_invariant (I := fun s => Held G x.disk.dev s.1 s.2 ∧ s.1.Have Query.Clean ∧
      s.1.toSlice = w.toSlice ∧ s.2.done = []) (forget_leads h) ⟨?_, ?_, ?_, ?_⟩ ?_
    · exact held_process (fun i => hE _ i) hfresh hset
    · exact have_process (Query.clean_rule hE) fun r => by rw [hw.untouched r]; exact ⟨rfl, rfl⟩
    · exact slice_of_request hstays.request
    · rw [hstays.rest]
      rfl
    · rintro ⟨w₁, x₁⟩ act ⟨w₂, x₂⟩ ⟨hheld, hclean, hslice, hdone⟩ hok hs
      have hs : react G E act w₁ x₁ = some (w₂, x₂) := hs
      have hreads : ReadSucceeds act := by
        cases act with
        | effect => trivial
        | settle r k e => exact fun _ => hok
      obtain ⟨hreq, hrest⟩ := react_keeps hs
      refine ⟨held_react (fun i => hE _ i) hreads hheld hs,
        have_react (Query.clean_rule hE) hok hclean hs, (slice_of_request hreq).trans hslice, ?_⟩
      rw [hrest]
      exact hdone
  obtain ⟨hheld, hclean, hslice, hdone⟩ := hinv
  have hidle := SubWrite.not_busy.mp hb
  have hstripe : s.1.stripe = w.stripe := congrArg Slice.stripe hslice
  cases hheld with
  | data _ _ _ hbusy => exact absurd (hidle _) hbusy
  | parity _ _ _ _ hbusy => exact absurd (hidle _) hbusy
  | write old hwr hf =>
    obtain ⟨hdata, hparity⟩ := left_of_writes (by rw [Inner.log, hdone]; rfl) hwr hb hclean
    rw [hslice] at hdata hparity
    exact ⟨hdata, hparity⟩

section Drain

/-- The order in which the queries of a sub-write are submitted. -/
def Role.rank : Role → Nat
  | .rqd => 0
  | .rpq => 1
  | .wqd => 2
  | .wqp => 3

theorem query_coherent (hr : ¬ r.Strip) :
    (stripeCoherentParityWrite G E w parity x).2.1.query r = w.query r := by
  unfold stripeCoherentParityWrite
  rw [query_whenIdle.1, query_whenIdle.1, reads_backendWrite hr]

theorem query_incoherent (hr : ¬ r.Strip) :
    (stripeIncoherentParityWrite G E w parity x).2.1.query r = w.query r := by
  obtain ⟨r₁, r₂, -, -, -, he⟩ := stripeIncoherentParityWrite_eq G E w parity x
  rw [he]
  dsimp only
  split
  · simp only [combinedCompleterGuard, SubWrite.query_setErr]
    exact reads_backendWrite hr
  · exact reads_backendWrite hr

theorem query_rpqDone (hr : ¬ r.Strip) : (rpqDone G E w x).1.query r = w.query r := by
  unfold rpqDone
  dsimp only
  split
  · exact query_coherent hr
  · rw [SubWrite.query_setErr]

theorem query_rqdDone : (rqdDone G E w x).1.query .rqd = w.query .rqd := by
  have hr : ¬ Role.rqd.Strip := Role.not_strip.mpr (.inl rfl)
  unfold rqdDone
  dsimp only
  split
  · split
    · rw [SubWrite.query_setErr]
      unfold whenIdle
      split
      · rw [query_rpqDone hr]
        exact SubWrite.query_set_of_ne (by decide)
      · exact SubWrite.query_set_of_ne (by decide)
    · rw [SubWrite.query_setErr, query_incoherent hr]
  · rw [SubWrite.query_setErr]

/-- What runs at the end of a query submits only later ones. -/
theorem query_queryDone (h : r'.rank ≤ r.rank) :
    (queryDone G E r w x).1.query r' = w.query r' := by
  cases r with
  | rqd =>
    obtain rfl : r' = .rqd := by cases r' <;> simp_all [Role.rank]
    exact query_rqdDone
  | rpq =>
    refine query_rpqDone (Role.not_strip.mpr ?_)
    cases r' <;> simp_all [Role.rank]
  | wqd => exact congrFun query_writeDone.1 _
  | wqp => exact congrFun query_writeDone.1 _

theorem set_set {q' : Query} : (w.set r q).set r q' = w.set r q' := by
  simp [SubWrite.set]

/-- All subqueries of a query take effect and complete. -/
theorem drain (hb : ¬ w.Idle r) : ∃ q d, q.ops = [] ∧
    Lts.Run (advance G E) (fun _ act => act.Settles (· = 0)) (w, x)
      (queryDone G E r (w.set r q) { x with disk := d }) := by
  induction hops : (w.query r).ops generalizing w x with
  | nil => exact absurd hops hb
  | cons op ops ih =>
    let c := (w.query r).carry op.sub (fun i => true && !op.took i) x.disk.dev
    let q₁ : Query := { c.1 with ops := ⟨op.sub, fun i => op.took i || true⟩ :: ops }
    let q₂ : Query := { q₁ with ops := ops }
    let x₁ : Inner := { x with disk := { x.disk with dev := c.2 } }
    have hmove : (w.query r).effect 0 (fun _ => true) x.disk.dev = some (q₁, c.2) := by
      simp [Query.effect, hops, q₁, c]
    have hend : q₁.settle 0 0 = some q₂ := by
      simp [Query.settle, q₁, q₂, Query.setErr]
    have hfirst : advance G E (w, x) (.effect r 0 fun _ => true) = some (w.set r q₁, x₁) := by
      rw [advance, react, hmove]
      rfl
    have hsecond : advance G E (w.set r q₁, x₁) (.settle r 0 0) =
        some (whenIdle r (queryDone G E r) (w.set r q₂, x₁)) := by
      rw [advance, react, SubWrite.query_set_self, hend, Option.map_some, set_set]
    have hrun : Lts.Run (advance G E) (fun _ act => act.Settles (· = 0)) (w, x)
        (whenIdle r (queryDone G E r) (w.set r q₂, x₁)) :=
      .tail (l := .settle r 0 0) (.tail (l := .effect r 0 _) .refl trivial hfirst) rfl hsecond
    by_cases hnil : ops = []
    · refine ⟨q₂, x₁.disk, hnil, ?_⟩
      rwa [whenIdle, if_pos (SubWrite.idle_set_self.mpr hnil)] at hrun
    · have hbusy : ¬ (w.set r q₂).Idle r := fun h => hnil (SubWrite.idle_set_self.mp h)
      rw [whenIdle, if_neg hbusy] at hrun
      obtain ⟨q, d, hq, hrest⟩ := @ih (w.set r q₂) x₁ hbusy (by simp [q₂])
      rw [set_set] at hrest
      exact ⟨q, d, hq, Lts.run_trans hrun hrest⟩

/-- A query is brought to its end while those before it stay idle. -/
theorem run_idle (r : Role) (s : SubWrite × Inner)
    (hs : ∀ r', r'.rank < r.rank → s.1.Idle r') :
    ∃ t, Lts.Run (advance G E) (fun _ act => act.Settles (· = 0)) s t ∧
      ∀ r', r'.rank ≤ r.rank → t.1.Idle r' := by
  have hrank : ∀ r', r'.rank ≤ r.rank → r' = r ∨ r'.rank < r.rank := by
    intro r' h
    cases r <;> cases r' <;> simp_all [Role.rank]
  by_cases hb : s.1.Idle r
  · refine ⟨s, .refl, fun r' h => ?_⟩
    rcases hrank r' h with rfl | hlt
    · exact hb
    · exact hs r' hlt
  · obtain ⟨q, d, hq, hrun⟩ := @drain G E s.1 s.2 r hb
    refine ⟨_, hrun, fun r' h => ?_⟩
    rw [SubWrite.Idle, query_queryDone h]
    rcases hrank r' h with rfl | hlt
    · rwa [SubWrite.query_set_self]
    · rw [SubWrite.query_set_of_ne (by rintro rfl; omega)]
      exact hs r' hlt

/-- Whatever is in flight, the sub-write can end without an error. -/
theorem leads_ended (h : Leads G E w x s) : ∃ t, Leads G E w x t ∧ t.1.busy = false := by
  obtain ⟨s₁, h₁, hi₁⟩ := @run_idle G E .rqd s fun r' hr => by cases hr
  obtain ⟨s₂, h₂, hi₂⟩ := @run_idle G E .rpq s₁ fun r' hr => hi₁ r' (Nat.le_of_lt_succ hr)
  obtain ⟨s₃, h₃, hi₃⟩ := @run_idle G E .wqd s₂ fun r' hr => hi₂ r' (Nat.le_of_lt_succ hr)
  obtain ⟨s₄, h₄, hi₄⟩ := @run_idle G E .wqp s₃ fun r' hr => hi₃ r' (Nat.le_of_lt_succ hr)
  refine ⟨s₄, Lts.run_trans h (Lts.run_trans h₁ (Lts.run_trans h₂ (Lts.run_trans h₃ h₄))), ?_⟩
  refine SubWrite.not_busy.mpr fun r => hi₄ r ?_
  cases r <;> decide

end Drain

/-- A strip of a stripe has data or the parity. -/
theorem strip_cases {k h : Nat} (hh : h < G.n) :
    h = G.parityId k ∨ ∃ t < G.n - 1, h = G.dataDev k t := by
  rcases Nat.lt_trichotomy h (G.parityId k) with hlt | heq | hgt
  · have := G.parity_lt k
    exact .inr ⟨h, by omega, by rw [Geometry.dataDev, if_pos hlt]⟩
  · exact .inl heq
  · exact .inr ⟨h - 1, by omega, by rw [Geometry.dataDev, if_neg (by omega)]; omega⟩

/-- What the write leaves fixes every byte of every strip. -/
theorem left_unique {old : Nat → Byte} {dev dev' : Addr → Byte} (h : Left G w old dev)
    (h' : Left G w old dev') {i j : Nat} (hi : i < G.n) (hj : j < G.stripSz) :
    dev (i, w.stripe * G.stripSz + j) = dev' (i, w.stripe * G.stripSz + j) := by
  rcases strip_cases (k := w.stripe) hi with rfl | ⟨t, ht, rfl⟩
  · exact (h.parity j hj).trans (h'.parity j hj).symm
  · rw [← loc_of_lt hj]
    have hlt : t * G.stripSz + j < G.stripeDataSz := by
      have hmul : (t + 1) * G.stripSz ≤ (G.n - 1) * G.stripSz := Nat.mul_le_mul_right _ ht
      rw [Geometry.stripeDataSz, Nat.mul_comm G.stripSz]
      rw [Nat.add_mul] at hmul
      omega
    exact (h.data _ hlt).trans (h'.data _ hlt).symm

/-- A write of a part of a stripe that cancels out can end from wherever it is, and ends with the
same bytes in all strips whether the stripe is flagged (`x`) and the parity is renewed by what the
write changes, or not (`x'`) and it is renewed from the whole stripe. -/
theorem delta_eq_renew (G : Geometry) (E E' : Env) (hE : ∀ b i, (E.beh b i).Succeeds)
    (hE' : ∀ b i, (E'.beh b i).Succeeds) (w w' : SubWrite) (hw : New w) (hw' : New w')
    (hslice : w'.toSlice = w.toSlice) (hpos : 0 < w.size)
    (hfits : w.off + w.size ≤ G.stripeDataSz) (x x' : Inner) (hdev : x'.disk.dev = x.disk.dev)
    (hxor : XorZero G x.disk.dev w.stripe) :
    (∀ s, Leads G E w x s → ∃ t, Leads G E w x t ∧ t.1.busy = false) ∧
      (∀ s, Leads G E' w' x' s → ∃ t, Leads G E' w' x' t ∧ t.1.busy = false) ∧
      ∀ s s', Leads G E w x s → s.1.busy = false → Leads G E' w' x' s' → s'.1.busy = false →
        ∀ i < G.n, ∀ j < G.stripSz, s.2.disk.dev (i, w.stripe * G.stripSz + j) =
          s'.2.disk.dev (i, w.stripe * G.stripSz + j) := by
  refine ⟨fun s => leads_ended, fun s => leads_ended, fun s s' h hb h' hb' i hi j hj => ?_⟩
  have hleft := left_of_leads hE hw hpos hfits (fun _ => hxor) h hb
  have hleft' := left_of_leads hE' hw' (hslice ▸ hpos) (by rwa [hslice])
    (fun _ => by rwa [hdev, hslice]) h' hb'
  rw [hdev] at hleft'
  obtain ⟨hdata, hparity⟩ := hleft'
  rw [hslice] at hdata hparity
  exact left_unique hleft ⟨hdata, hparity⟩ hi hj

/-- 16 bytes across the border of the two data strips of the first stripe. -/
def acrossStrips : SubWrite :=
  { cid := 0, stripe := 0, off := 504, size := 16, addr := 0, src := fun i => ⟨BitVec.ofNat 8 i⟩
    id := 0, err := 0, coherent := false, query := fun _ => .read fun _ => 0
    waited := false, res := 0 }

theorem delta_eq_renew_acrossStrips : ∃ s s', Leads smallRaid allDone acrossStrips
      ((Inner.initial fun _ => 0).setCoh 0 true) s ∧
    Leads smallRaid allDone acrossStrips (Inner.initial fun _ => 0) s' ∧
    ∀ i < 3, ∀ j < 512, s.2.disk.dev (i, j) = s'.2.disk.dev (i, j) := by
  have hnew : New acrossStrips := ⟨fun _ => rfl, rfl, rfl⟩
  have h := delta_eq_renew smallRaid allDone allDone (fun _ _ => rfl) (fun _ _ => rfl) acrossStrips
    acrossStrips hnew hnew rfl (by decide) (by decide)
    ((Inner.initial fun _ => 0).setCoh 0 true) (Inner.initial fun _ => 0) rfl
    (fun _ _ => Finset.sum_const_zero)
  obtain ⟨s, hs, hb⟩ := h.1 _ .refl
  obtain ⟨s', hs', hb'⟩ := h.2.1 _ .refl
  refine ⟨s, s', hs, hs', fun i hi j hj => ?_⟩
  have := h.2.2 s s' hs hb hs' hb' i hi j hj
  simpa [acrossStrips] using this

end Ublk.Raidsp
