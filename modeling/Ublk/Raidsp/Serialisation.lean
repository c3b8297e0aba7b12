import Ublk.Raidsp.Coherency
import Ublk.Raidsp.Report

/-!
Runs in which nothing fails. Sub-writes are serialised by stripe, an unlocked stripe has the data
of all its sub-writes and a parity to match, and each request ends once and without an error.
-/
namespace Ublk.Raidsp

open Shared Serial Acceptor

variable {G : Geometry} {E : Env} {dev₀ : Addr → Byte} {w w' : SubWrite} {x x' : Inner} {r : Role}
  {q : Query} {e : Int} {k c : Nat} {parity : Nat → Byte} {act : Act} {s : State SubWrite Inner}
  {l : Label WriteReq Act Beside}

/-- What was submitted completes without an error. -/
def Succeeding : State SubWrite Inner → Label WriteReq Act Beside → Prop :=
  Guarded (fun act _ => act.Settles (· = 0)) fun b _ => b.Settles (· = 0)

section Succeeding

variable (hE : ∀ b i, (E.beh b i).Succeeds)

include hE

/-- No submit is rejected. -/
theorem process_accepted : (process G E w x).1 = 0 := by
  refine process_eq_zero.mpr fun i _ => ?_
  have := hE (decide (¬ w.size < G.stripeDataSz)) (x.disk.next + i)
  revert this
  cases E.beh _ _ <;> simp [Outcome.Succeeds, Outcome.Accepts]

theorem faults_of_succeeding (h : Succeeding s l) : WriteFaults G E s l := by
  refine ⟨restarts_iff.mp ?_, ?_⟩
  · cases l with
    | tick => exact fun _ _ _ _ _ _ _ => process_accepted hE
    | _ => trivial
  · cases l with
    | act i act =>
      intro w hw
      have := h w hw
      cases act with
      | effect => trivial
      | settle => exact fun _ => this
    | _ => trivial

end Succeeding

/-- A part of the write `r` that request `c` made lies in stripe `k`. -/
def Touches (G : Geometry) (x : Inner) (c k : Nat) : Prop :=
  ∃ r, (c, r) ∈ x.writes ∧ ∃ p ∈ Blocks.cut G.stripeDataSz r.off r.size, p.id = k

/-- Parity and data of the stripes, the sub-writes at work, and what requests come to. -/
structure Serialised (G : Geometry) (E : Env) (dev₀ : Addr → Byte) (s : State SubWrite Inner) :
    Prop where
  alive : s.dead = false
  one : ((acceptor G E).owners s).Nodup
  locked : ∀ k, s.locks.Locked k ↔ k ∈ (acceptor G E).owners s
  waiting : ∀ w ∈ s.pending, s.locks.Locked w.stripe
  parity : ∀ k, ¬ s.locks.Locked k → s.inner.coh k = true → XorZero G s.inner.disk.dev k ∧
    ∀ i < G.n, ∀ j < G.stripSz, s.inner.disk.dev (i, k * G.stripSz + j) =
      ∑ h ∈ (Finset.range G.n).erase i, s.inner.disk.dev (h, k * G.stripSz + j)
  flagged : ∀ k, ¬ s.locks.Locked k → ∀ c < s.reqs.count, (s.reqs.req c).runs ≠ 0 →
    Touches G s.inner c k → s.inner.coh k = true
  data : ∀ k, ¬ s.locks.Locked k → ∀ i < G.stripeDataSz,
    s.inner.disk.dev (G.loc k i) = applyAll (dataOf G dev₀ k) (s.inner.log k) i
  parts : (s.inner.made G : Multiset Slice) =
    tags SubWrite.toSlice (fun x => x.done) s
  ran : ∀ c < s.reqs.count, (s.reqs.req c).runs =
    if shares (acceptor G E) readsOf s c = 0 then 1 else 0
  told : ∀ c < s.reqs.count, (s.reqs.req c).runs ≠ 0 →
    (s.reqs.req c).err = 0 ∧ (s.reqs.req c).ret = some 0
  rest : s.Quiet → s.active = [] → s.inner.reads = [] →
    s.pending = [] ∧ ∀ c < s.reqs.count, (s.reqs.req c).runs = 1

/-- Any strip of a stripe that cancels out is the sum of the others. -/
theorem strip_of_xorZero {dev : Addr → Byte} (h : XorZero G dev k) {i j : Nat} (hi : i < G.n)
    (hj : j < G.stripSz) : dev (i, k * G.stripSz + j) =
      ∑ h ∈ (Finset.range G.n).erase i, dev (h, k * G.stripSz + j) := by
  have := h j hj
  rw [← Finset.add_sum_erase _ _ (Finset.mem_range.mpr hi)] at this
  exact Byte.add_eq_zero.mp this

section Over

variable (hc : Counted (acceptor G E) readsOf s)

include hc

/-- A request whose completer has run has no part left, and its call has returned. -/
theorem parts_of_over (hlt : c < s.reqs.count) (hr : (s.reqs.req c).runs ≠ 0) :
    (∀ w ∈ s.pending, w.cid ≠ c) ∧ (∀ w ∈ s.active, w.cid ≠ c) ∧
      (∀ w ∈ making s.issue, w.cid ≠ c) ∧ (s.reqs.req c).ret ≠ none := by
  have hz : shares (acceptor G E) readsOf s c = 0 := by
    by_contra hn
    rw [runs_of_counted hc hlt, if_neg hn] at hr
    exact hr rfl
  simp only [shares, Nat.add_eq_zero_iff, List.countP_eq_zero, beq_iff_eq] at hz
  obtain ⟨⟨⟨⟨hp, ha⟩, -⟩, hcall⟩, -⟩ := hz
  refine ⟨fun w hw he => hp w hw he.symm, fun w hw he => ha w hw he.symm, fun w hw he => ?_,
    fun hn => ?_⟩
  · cases hi : s.issue with
    | none => simp [hi, making] at hw
    | some q =>
      have := hc.making q hi w (by simpa [hi, making] using hw)
      have hcid : w.cid = q.client := this
      simp [hi, ← hcid, he] at hcall
  · obtain ⟨q, hq, rfl⟩ := Option.map_eq_some_iff.mp ((hc.balanced.ret c hlt).mp hn)
    simp [hq] at hcall

/-- All parts of a write that is over have ended. -/
theorem log_of_over (ht : (s.inner.made G : Multiset Slice) =
      tags SubWrite.toSlice (fun x => x.done) s) (hlt : c < s.reqs.count)
    (hr : (s.reqs.req c).runs ≠ 0) (hk : Touches G s.inner c k) : s.inner.log k ≠ [] := by
  obtain ⟨r, hcr, p, hp, rfl⟩ := hk
  obtain ⟨hpend, hact, hmake, -⟩ := parts_of_over hc hlt hr
  have hmem : r.slice c p ∈ tags SubWrite.toSlice (fun x => x.done) s := by
    rw [← ht]
    exact Multiset.mem_coe.mpr (List.mem_flatMap.mpr ⟨(c, r), hcr, List.mem_map.mpr ⟨p, hp, rfl⟩⟩)
  simp only [tags, Multiset.mem_add, Multiset.mem_coe, List.mem_map] at hmem
  obtain ((⟨w, hw, he⟩ | ⟨w, hw, he⟩) | ⟨w, hw, he⟩) | ⟨w, hw, he⟩ := hmem
  · exact absurd (congrArg Slice.cid he) (hmake w hw)
  · exact absurd (congrArg Slice.cid he) (hpend w hw)
  · exact absurd (congrArg Slice.cid he) (hact w hw)
  · refine List.ne_nil_of_mem (a := w) (List.mem_filter.mpr ⟨hw, ?_⟩)
    exact decide_eq_true (congrArg Slice.stripe he)

end Over

/-- What a request is told if none of its parts has failed. -/
theorem told_of_clean (hc : Counted (acceptor G E) readsOf s)
    (hr : Reported (acceptor G E) (fun x => x.done) SubWrite.err SubWrite.Refused readFailed
      readRefused s)
    (hstart : ∀ w, w ∈ s.active ∨ w ∈ s.inner.done → Started G w ∧ w.Have Query.Clean)
    (hbusy : ∀ w ∈ s.inner.done, w.busy = false) (hreads : ReadsHave Query.Clean s.inner)
    (hhon : ReadsHave Query.Honest s.inner) (hlt : c < s.reqs.count)
    (hruns : (s.reqs.req c).runs ≠ 0) :
    (s.reqs.req c).err = 0 ∧ (s.reqs.req c).ret = some 0 := by
  have hnot : ∀ w, w ∈ s.active ∨ w ∈ s.inner.done → ¬ w.StripRejected := fun w hw hrej => by
    obtain hrej | hrej := hrej
    · exact hrej ((hstart w hw).2 _).1
    · exact hrej ((hstart w hw).2 _).1
  have hfail : ¬ Failing (acceptor G E) (fun x => x.done) SubWrite.err readFailed s c := by
    rintro (⟨w, hw, -, herr⟩ | ⟨rd, hrd, -, herr⟩)
    · obtain ⟨hst, hcl⟩ := hstart w (.inr hw)
      obtain ⟨r, hb⟩ | hrej | ⟨-, -, hrej⟩ := (err_of_ended hst (hbusy w hw)).mp herr
      · exact absurd (hcl r).2 (by simp [hb])
      · exact hrej (hcl _).1
      · exact hnot w (.inr hw) hrej
    · exact herr ((hhon rd (.inr hrd)).mpr (hreads rd (.inr hrd)).2)
  have hrefuse : ¬ Refusing (acceptor G E) (fun x => x.done) SubWrite.Refused readRefused s c := by
    rintro (⟨w, hw, -, -, hres⟩ | ⟨rd, hrd, -, hrej⟩)
    · obtain ⟨hst, hcl⟩ := hstart w hw
      rw [hst.res] at hres
      split at hres
      · exact hres (hcl _).1
      · exact hnot w hw hres
    · exact hrej (hreads rd hrd).1
  obtain ⟨-, -, -, hret⟩ := parts_of_over hc hlt hruns
  obtain ⟨v, hv⟩ := Option.ne_none_iff_exists'.mp hret
  have herr := (hr.tells.err c).not.mpr hfail
  have hzero := (hr.tells.ret c v hv).not.mpr hrefuse
  simp only [ne_eq, not_not] at herr hzero
  exact ⟨herr, hzero ▸ hv⟩

theorem log_subset (h : w ∈ s.inner.log k) : w ∈ s.inner.done := List.mem_of_mem_filter h

/-- Sub-writes of one stripe do not interfere, in any order of steps. -/
theorem serialised_run (hE : ∀ b i, (E.beh b i).Succeeds)
    (h : Lts.Run (acceptor G E).step Succeeding (.initial (Inner.initial dev₀)) s) :
    Serialised G E dev₀ s := by
  have hfaults : Lts.Run (acceptor G E).step (WriteFaults G E) (.initial (Inner.initial dev₀)) s :=
    Lts.run_mono (fun _ _ => faults_of_succeeding hE) h
  have hany : Lts.Run (acceptor G E).step (Guarded (fun _ _ => True)
      fun b _ => b.Settles fun _ => True) (.initial (Inner.initial dev₀)) s := by
    refine Lts.run_mono (fun s l _ => ?_) h
    cases l with
    | act i a => exact fun _ _ => trivial
    | aside b => exact beside_settles_any
    | _ => trivial
  have hd := disciplined_run acceptor_keyed
    (Lts.run_mono (fun _ _ h => restarts_iff.mpr h.1) hfaults)
  have hlive := hd.alive
  have hcount := counted_run acceptor_sharing (fun _ => rfl) h hlive
  have htrace := traced_run acceptor_tracing (fun _ _ => process_accepted hE) rfl rfl h hlive
  have hclean := jobs_run acceptor_tracing (have_rule (Query.clean_rule hE)) rfl h
  have hjobs := jobs_run acceptor_tracing acceptor_rule rfl hany
  have hreport := reported_run acceptor_reporting acceptor_tracing acceptor_sharing acceptor_rule
    rfl (fun _ => rfl) (fun c => by simp [readFailed, readRefused, Inner.initial]) hany
  have hreads := kept_run (reads_kept (Query.clean_rule hE)) reads_initial h
  have hhon := kept_run (reads_kept Query.honest_rule) reads_initial hany
  have hwritten : ∀ k, ∀ w ∈ s.inner.log k, w.Written := fun k w hw =>
    ⟨(hclean.book w (log_subset hw)).1 _, (hclean.book w (log_subset hw)).1 _⟩
  have hset : ∀ k, ¬ s.locks.Locked k → Settled G dev₀ k s.inner := fun k hk =>
    settled_run (fun i => hE _ i) hfaults (ordered_unlocked hd.ordered hk).1
  refine ⟨hlive, hd.nodup, hd.locked, hd.pending, fun k hk hc => ?_, fun k hk c hlt hr ht => ?_,
    fun k hk => ((hset k hk).data (hwritten k)).1, htrace, fun c hlt => runs_of_counted hcount hlt,
    fun c hlt hr => ?_, fun hq ha hrd => ?_⟩
  · have hz := (hset k hk).xor (fun w hw => SubWrite.told_of_written (hwritten k w hw)) hc
    exact ⟨hz, fun i hi j hj => strip_of_xorZero hz hi hj⟩
  · exact ((hset k hk).data (hwritten k)).2 (log_of_over hcount htrace hlt hr ht)
  · refine told_of_clean hcount hreport (fun w hw => ?_) (fun w hw => (hjobs.book w hw).2) hreads
      hhon hlt hr
    obtain hw | hw := hw
    · exact ⟨hjobs.active w hw, hclean.active w hw⟩
    · exact ⟨(hjobs.book w hw).1, (hclean.book w hw).1⟩
  · have hpend : s.pending = [] := by
      refine List.eq_nil_iff_forall_not_mem.mpr fun w hw => ?_
      have := (hd.locked _).mp (hd.pending w hw)
      simp [Machine.owners, ha, hq.1] at this
    refine ⟨hpend, fun c hlt => ?_⟩
    rw [runs_of_counted hcount hlt, if_pos]
    simp [shares, hpend, ha, hq.1, hq.2.1, readsOf, hrd]

/-- Every subquery is kept. -/
def allHeld : Env where
  beh _ _ := .held
  junk _ _ := 0

/-- A write of the first stripe, another one that has to wait for it, and the end of the first
subquery of the first one. -/
def contendedRun : List (Label WriteReq Act Beside) :=
  [.arrive (stripeReq fun i => ⟨BitVec.ofNat 8 i⟩), .tick, .tick,
    .arrive (stripReq 512 fun _ => ⟨1#8⟩), .tick, .tick,
    .act 0 (.effect .wqd 0 fun _ => true), .act 0 (.settle .wqd 0 0)]

theorem serialised_run_contended : ∃ s, afterRun allHeld contendedRun = some s ∧
    s.active.length = 1 ∧ s.pending.length = 1 ∧
    Serialised smallRaid allHeld (fun _ => 0) s := by
  obtain ⟨s, hs⟩ : ∃ s, afterRun allHeld contendedRun = some s :=
    Option.isSome_iff_exists.mp (by decide +kernel)
  have hend : (afterRun allHeld contendedRun).map (fun s => (s.active.length, s.pending.length)) =
      some (1, 1) := by decide +kernel
  simp only [hs, Option.map_some, Option.some.injEq, Prod.mk.injEq] at hend
  refine ⟨s, hs, hend.1, hend.2, serialised_run (fun _ _ => trivial)
    (Lts.run_of_exec (fun l hl s => ?_) hs)⟩
  simp only [contendedRun, List.mem_cons, List.not_mem_nil, or_false] at hl
  obtain rfl | rfl | rfl | rfl | rfl | rfl | rfl | rfl := hl
  all_goals first | exact True.intro | exact fun _ _ => rfl | exact fun _ _ => True.intro

end Ublk.Raidsp
