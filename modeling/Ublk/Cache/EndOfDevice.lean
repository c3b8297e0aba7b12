import Ublk.Cache.Inside
import Ublk.Cache.Sizing

/-!
The end of a handler of `C` bytes, seen through the cache. Requests that end with the last whole
chunk, and writes handed straight on, are dealt with as by the handler itself.
-/
namespace Ublk.Cache

open Shared Requests Serial Words

variable {C sz i : Nat} {E : Env} {x : Front} {rg : Range} {buf src : Nat → Byte}
  {dev dev₀ : Addr → Byte}

namespace Rwi

variable {s t : Rwi} {l : Label} {w : Forward}

/-- Read 0 is under way, inside, and no write. -/
structure Lone (C sz : Nat) (dev : Addr → Byte) (rg : Range) (s : Rwi) : Prop where
  none : s.forwards = []
  alone : Alone sz dev rg s.front s.reqs
  within : Within C sz s.front

theorem cov_nil (h : s.forwards = []) : s.cov = fun _ => false := by
  funext a
  rw [cov, h]
  rfl

theorem lone_step (h : Lone C sz dev rg s) (hl : Serving C sz E s l) :
    ¬ s.Stops sz E l ∧ ∀ t, s.step sz E l = some t → Lone C sz dev rg t := by
  obtain ⟨hkind, hheeds⟩ := hl
  cases l with
  | read r buf => exact hkind.elim
  | write r src => exact hkind.elim
  | apply i hit => simp [Stops, step, h.none]
  | complete i e => simp [Stops, step, h.none]
  | sample i hit =>
    refine ⟨fun hs => hs, fun t hs => ?_⟩
    obtain ⟨y, hy, rfl⟩ := Option.map_eq_some_iff.mp hs
    exact ⟨h.none, alone_sample h.alone hy, within_sample h.within hy⟩
  | settle i e =>
    refine ⟨fun hs => hs, fun t hs => ?_⟩
    obtain ⟨z, hz, rfl⟩ := Option.map_eq_some_iff.mp hs
    obtain rfl : e = 0 := settle_zero h.alone.tracked h.within hheeds hz
    rw [cov_nil h.none] at hz
    exact ⟨h.none, alone_settle h.alone hz, within_settle h.within hz⟩

theorem write_mend (h : (E.beh true s.front.disk.next).mend = E.beh true s.front.disk.next) :
    s.write sz E.mend rg src = s.write sz E rg src := by
  have hq : (Query.writing src).submit E.mend ⟨0, rg.off, 0, rg.len⟩ s.front.disk =
      (Query.writing src).submit E ⟨0, rg.off, 0, rg.len⟩ s.front.disk := submit_mend h
  have hb : E.mend.beh true s.front.disk.next = E.beh true s.front.disk.next := h
  unfold Rwi.write
  simp only [hq, hb]
  rfl

/-- A write inside is under way or over. -/
def Written (sz : Nat) (dev₀ : Addr → Byte) (rg : Range) (src : Nat → Byte) (s : Rwi) : Prop :=
  (∃ w, Forwarding sz dev₀ rg src w s) ∨ Over sz dev₀ rg src s

theorem written_step (hsz : 0 < sz) (hr : rg.off + rg.len + sz ≤ 2 ^ 64)
    (hin : rg.off + rg.len ≤ C) (h : Written sz dev₀ rg src s) (hl : Serving C sz E s l) :
    ¬ s.Stops sz E l ∧ ∀ t, s.step sz E l = some t → Written sz dev₀ rg src t := by
  obtain ⟨hkind, hheeds⟩ := hl
  have hn : ∀ q, Rwi.ask q ≠ l := by
    rintro (⟨r, buf⟩ | ⟨r, src⟩) rfl <;> exact hkind
  rcases h with ⟨w, hw⟩ | hover
  · by_cases hnone : ∃ i e, l = .complete i e ∧ s.forwards[i]? = none
    · obtain ⟨i, e, rfl, hi⟩ := hnone
      simp [Stops, step, hi]
    · refine forwarding_step hsz hr hw (fun i e he => ?_) hn
      subst he
      obtain ⟨v, hv⟩ : ∃ v, s.forwards[i]? = some v :=
        Option.ne_none_iff_exists'.mp fun hi => hnone ⟨i, e, rfl, hi⟩
      have hheeds : s.forwards[i]?.all (fun f => f.query.heeds C e) = true := hheeds
      rw [hv] at hheeds
      obtain rfl : v = w := by
        have hmem := List.mem_of_getElem? hv
        rw [hw.one] at hmem
        exact List.mem_singleton.mp hmem
      obtain ⟨took, hops⟩ := hw.shape
      exact zero_of_heeds hheeds hops hin
  · obtain ⟨hstops, hnone⟩ := over_step (E := E) hover hn
    exact ⟨hstops, fun t ht => absurd (hnone.symm.trans ht) (by simp)⟩

end Rwi

namespace Rwt

variable {s t : State} {l : Label} {locks : LockTable}

/-- Read 0 is under way, inside, and no write. -/
structure Lone (C sz : Nat) (dev : Addr → Byte) (rg : Range) (locks : LockTable) (s : State) :
    Prop where
  quiet : s.Quiet
  none : s.active = [] ∧ s.pending = []
  locks : s.locks = locks
  owed : s.inner.owed = fun _ => false
  alone : Alone sz dev rg s.inner.front s.reqs
  within : Within C sz s.inner.front

theorem lone_step (h : Lone C sz dev rg locks s) (hl : Serving C sz E s l)
    (hs : (machine sz E).step s l = some t) : Lone C sz dev rg locks t := by
  obtain ⟨hkind, hheeds⟩ := hl
  obtain ⟨⟨hframes, hissue, hdead⟩, ⟨hactive, hpending⟩, hlocks, howed, halone, hwithin⟩ := h
  cases l with
  | arrive r => exact hkind.elim
  | tick => simp [Machine.step, Machine.tick, hframes, hissue] at hs
  | act i a => simp [Machine.step, hactive] at hs
  | aside f =>
    cases Machine.step_sound hs with
    | aside hq hr =>
      cases f with
      | read r buf => exact hkind.elim
      | sample i hit =>
        obtain ⟨y, hy, he⟩ := Option.map_eq_some_iff.mp hr
        cases he
        exact ⟨⟨hframes, hissue, hdead⟩, ⟨hactive, hpending⟩, hlocks, howed, alone_sample halone hy,
          within_sample hwithin hy⟩
      | settle i e =>
        obtain ⟨z, hz, he⟩ := Option.map_eq_some_iff.mp hr
        cases he
        obtain rfl : e = 0 := settle_zero halone.tracked hwithin hheeds hz
        rw [howed] at hz
        exact ⟨⟨hframes, hissue, hdead⟩, ⟨hactive, hpending⟩, hlocks, howed, alone_settle halone hz,
          within_settle hwithin hz⟩

/-- The parts of a write that are to come or under way lie inside. -/
theorem inside_of_course (hsz : 0 < sz) (hr : rg.off + rg.len ≤ C / sz * sz)
    (h : Course sz E.mend dev₀ rg src s) {w : ChunkWrite}
    (hw : w ∈ s.active ∨ w ∈ s.pending ∨ ∃ q, s.issue = some q ∧ w ∈ q.rest) :
    w.chunkId * sz + w.chunkOffset + w.size ≤ C ∧ w.chunkId * sz + sz ≤ C := by
  have hmem : w.toSlice ∈ slices sz 0 rg src := by
    have htags := h.traced
    rw [h.made] at htags
    rw [← Multiset.mem_coe, htags]
    simp only [tags, Multiset.mem_add, Multiset.mem_coe, List.mem_map]
    rcases hw with hw | hw | ⟨q, hq, hw⟩
    · exact .inl (.inr ⟨w, hw, rfl⟩)
    · exact .inl (.inl (.inr ⟨w, hw, rfl⟩))
    · refine .inl (.inl (.inl ⟨w, ?_, rfl⟩))
      rw [hq]
      exact hw
  obtain ⟨hend, -⟩ := mem_slices_id hsz hmem
  have hle := Nat.div_mul_le_self C sz
  exact ⟨by omega, inside_of_slice hsz hr hmem⟩

/-- A step of a write inside is one over a handler that fails nothing. -/
theorem course_mend (hsz : 0 < sz) (hr : rg.off + rg.len ≤ C / sz * sz)
    (h : Course sz E.mend dev₀ rg src s) (hl : Serving C sz E s l)
    (hs : (machine sz E).step s l = some t) : Course sz E.mend dev₀ rg src t := by
  obtain ⟨hkind, hheeds⟩ := hl
  have hinside : ∀ w, w ∈ s.active ∨ w ∈ s.pending ∨ (∃ q, s.issue = some q ∧ w ∈ q.rest) →
      w.chunkId * sz + w.chunkOffset + w.size ≤ C ∧ w.chunkId * sz + sz ≤ C :=
    fun w => inside_of_course hsz hr h
  have hE : ∀ c i, (E.mend.beh c i).Succeeds := fun c i => mend_succeeds
  have hstart : ∀ w, l = .tick → (machine sz E).starting s = some w →
      process sz E.mend w s.inner = (machine sz E).start w s.inner := by
    rintro w rfl hw
    have hh : ((machine sz E).starting s).all (fun w => processHeeds C sz E w s.inner) = true := hheeds
    rw [hw] at hh
    obtain ⟨hin, hc⟩ := hinside w (.inr (mem_of_starting hw))
    exact process_mend hin hc hh
  have hreact : ∀ i a j, l = .act i a → s.active[i]? = some j →
      react sz E.mend a j s.inner = (machine sz E).react a j s.inner ∧
        (∀ r, react sz E a j s.inner = some r → a.Succeeds) := by
    rintro i a j rfl hj
    have hh : s.active[i]?.all (fun w => actHeeds C sz E a w s.inner) = true := hheeds
    rw [hj] at hh
    have hmem := List.mem_of_getElem? hj
    obtain ⟨hin, hc⟩ := hinside j (.inl hmem)
    exact ⟨react_mend hin hh, fun r hr => act_succeeds (h.owned.held j hmem) hin hc hh hr⟩
  have hsame : OfParts l → (machine sz E.mend).step s l = (machine sz E).step s l := by
    intro hp
    refine @step_congr _ _ _ _ _ (machine sz E) s l (process sz E.mend) (react sz E.mend)
      (aside sz E.mend) hstart (fun i a j he hj => (hreact i a j he hj).1) ?_
    rintro f rfl
    exact hp.elim
  cases l with
  | arrive r => exact hkind.elim
  | aside f =>
    cases Machine.step_sound hs with
    | aside hq hra =>
      cases f with
      | read r buf => exact hkind.elim
      | sample i hit => simp [machine, aside, Rwi.sample_none h.alone] at hra
      | settle i e => simp [machine, aside, Rwi.settle_none h.alone] at hra
  | tick =>
    have hp : OfParts .tick := trivial
    exact course_step hsz hE hp trivial h ((hsame hp).trans hs)
  | act i a =>
    have hp : OfParts (.act i a) := trivial
    have hok : Smooth s (.act i a) := by
      intro j hj
      cases Machine.step_sound hs with
      | act hq hj' hra =>
        obtain rfl := Option.some.inj (hj.symm.trans hj')
        exact (hreact i a _ rfl hj').2 _ hra
    exact course_step hsz hE hp hok h ((hsame hp).trans hs)

end Rwt

/-- A request that ends with the last whole chunk of `C` bytes, or a write inside that is handed
straight on, which is read before it moves; a write also ends an item below 2^64. -/
def Ask.Safe (C sz : Nat) (E : Env) (writeThrough : Bool) : Ask → Prop
  | .read r _ => r.off + r.len ≤ C / sz * sz
  | .write r _ => r.off + r.len + sz ≤ 2 ^ 64 ∧
      if writeThrough then r.off + r.len ≤ C / sz * sz
      else E.movesFirst = false ∧ r.off + r.len ≤ C

/-- What the handler below, with the bytes `bare`, makes of a request inside. -/
def Answer.Right (bare : Nat → Byte) (q : Ask) (a : Answer) : Prop :=
  a.ret = some 0 ∧ a.err = 0 ∧ a.runs = 1 ∧
    match q with
    | .read r _ => ∀ i < r.len, a.buf i = bare (r.off + i)
    | .write _ _ => True

namespace RWHandler

variable {h h' h₀ : RWHandler} {q : Ask} {o : Option (Answer × RWHandler)}

/-- The bytes of the handler below. -/
def bytes (h : RWHandler) : Nat → Byte := fun a => h.disk.dev (0, a)

/-- Between requests no chunk is locked, and what is cached is what the handler below has. -/
structure Sound (sz : Nat) (h : RWHandler) : Prop where
  mirrors : Mirrors sz h.disk.dev h.cache
  free : ∀ k, ¬ h.chunkWLocker.Locked k

section Served

variable (hsz : 0 < sz) (hh : h.Sound sz)

include hsz hh

theorem alone_ask {cov : Nat → Bool} (hcov : cov = fun _ => false)
    (hr : rg.off + rg.len ≤ C / sz * sz)
    (ha : h.front.readHeeds C sz E cov rg buf .empty = true) :
    Alone sz h.disk.dev rg (h.front.read sz E cov rg buf .empty).1
        (h.front.read sz E cov rg buf .empty).2 ∧
      Within C sz (h.front.read sz E cov rg buf .empty).1 := by
  subst hcov
  have hin : ∀ p ∈ readPieces sz rg.off rg.len rg.len (rg.off / sz) 0, p.id * sz + sz ≤ C :=
    fun p => inside_of_piece hsz hr
  have hhits : Hits sz (fun _ => false) h.front := hits_iff_mirrors.mpr hh.mirrors
  have halone := @alone_read sz E.mend h.front buf rg hsz (fun i => mend_succeeds) rfl rfl hhits
  rw [read_mend hin ha] at halone
  exact ⟨halone, within_read hin rfl⟩

/-- What becomes of a read inside. -/
theorem served_read (hr : rg.off + rg.len ≤ C / sz * sz)
    (hs : h.Served C sz E (.read rg buf) o) : ∃ a x, o = some (a, h.after x h.chunkWLocker) ∧
      a.Right h.bytes (.read rg buf) ∧ x.disk.dev = h.disk.dev ∧ Mirrors sz x.disk.dev x.cache := by
  have hrwi : ∀ {s t : Rwi}, h.rwi.heeds C sz E (.read rg buf) = true →
      h.rwi.step sz E (.read rg buf) = some s →
      Lts.Run (Rwi.step sz E) (Rwi.Serving C sz E) s t → Rwi.Lone C sz h.disk.dev rg t := by
    intro s t ha hstep hrun
    obtain rfl := Option.some.inj hstep
    obtain ⟨halone, hwithin⟩ := alone_ask hsz hh rfl hr ha
    exact Lts.run_invariant hrun ⟨rfl, halone, hwithin⟩
      fun s l t hi hl hst => (Rwi.lone_step hi hl).2 t hst
  have hrwt : ∀ {s t : Rwt.State}, Rwt.heeds C sz E h.rwt (.aside (.read rg buf)) = true →
      (Rwt.machine sz E).step h.rwt (.aside (.read rg buf)) = some s →
      Lts.Run (Rwt.machine sz E).step (Rwt.Serving C sz E) s t →
      Rwt.Lone C sz h.disk.dev rg h.chunkWLocker t := by
    intro s t ha hstep hrun
    refine Lts.run_invariant hrun ?_ fun s l t hi hl hst => Rwt.lone_step hi hl hst
    cases Machine.step_sound hstep with
    | aside hq hra =>
      cases hra
      obtain ⟨halone, hwithin⟩ := alone_ask hsz hh rfl hr ha
      exact ⟨hq, ⟨rfl, rfl⟩, rfl, rfl, halone, hwithin⟩
  cases hs with
  | rwi hm ha hstep hrun hi =>
    have hlone := hrwi ha hstep hrun
    obtain ⟨hret, herr, hruns, hbuf⟩ := answer_of_alone hlone.alone hi.1
    exact ⟨_, _, rfl, ⟨hret, herr, hruns, hbuf⟩, hlone.alone.dev,
      hits_iff_mirrors.mp hlone.alone.hits⟩
  | turned hm ha hstep => exact hstep.elim
  | stopped hm ha hstep hrun hl hd =>
    exact absurd hd (Rwi.lone_step (hrwi ha hstep hrun) hl).1
  | rwt hm ha hstep hrun hi =>
    have hlone := hrwt ha hstep hrun
    obtain ⟨hret, herr, hruns, hbuf⟩ := answer_of_alone hlone.alone hi.2.2.2
    refine ⟨_, _, by rw [hlone.locks], ⟨hret, herr, hruns, hbuf⟩, hlone.alone.dev,
      hits_iff_mirrors.mp hlone.alone.hits⟩
  | dead hm ha hstep hrun hd =>
    have hlone := hrwt ha hstep hrun
    exact absurd (hlone.quiet.2.2.symm.trans hd) (by simp)

/-- What becomes of a write inside that is handed straight on. -/
theorem served_forward (hm : h.writeThrough = false) (horder : E.movesFirst = false)
    (hr : rg.off + rg.len + sz ≤ 2 ^ 64) (hin : rg.off + rg.len ≤ C)
    (hs : h.Served C sz E (.write rg src) o) :
    ∃ a x, o = some (a, h.after x h.chunkWLocker) ∧ a.Right h.bytes (.write rg src) ∧
      (∀ i, x.disk.dev (0, i) = overlay h.bytes rg.off rg.len src i) ∧
      Mirrors sz x.disk.dev x.cache := by
  have hask : h.rwi.heeds C sz E (.write rg src) = true → ∃ s,
      h.rwi.step sz E (.write rg src) = some s ∧ Rwi.Written sz h.disk.dev rg src s := by
    intro ha
    obtain ⟨s, hstep, hw⟩ := @Rwi.forwarding_write sz E.mend h.front src rg hsz horder
      (fun i => mend_succeeds) hr rfl hh.mirrors
    have hmend : Rwi.write sz E.mend rg src h.rwi = Rwi.write sz E rg src h.rwi :=
      Rwi.write_mend (mend_of_heeds ha hin)
    exact ⟨s, hmend.symm.trans hstep, hw⟩
  have hrun : ∀ {s t : Rwi}, h.rwi.heeds C sz E (.write rg src) = true →
      h.rwi.step sz E (.write rg src) = some s →
      Lts.Run (Rwi.step sz E) (Rwi.Serving C sz E) s t → Rwi.Written sz h.disk.dev rg src t := by
    intro s t ha hstep hrun
    obtain ⟨s', hstep', hw⟩ := hask ha
    obtain rfl := Option.some.inj (hstep.symm.trans hstep')
    exact Lts.run_invariant hrun hw
      fun s l t hi hl hst => (Rwi.written_step hsz hr hin hi hl).2 t hst
  cases hs with
  | @rwi s t hm' ha hstep hr' hi =>
    rcases hrun ha hstep hr' with ⟨w, hw⟩ | hover
    · have hone := hw.one
      rw [hi.2] at hone
      cases hone
    · have hruns := hover.told.balanced.runs 0 hover.told.there
      refine ⟨_, _, rfl, ⟨hover.told.ret, hover.told.unfailing 0, ?_, trivial⟩, hover.dev,
        hover.mirrors⟩
      simpa [Front.answer, Rwi.only] using hruns
  | turned hm' ha hstep =>
    obtain ⟨s, hstep', -⟩ := hask ha
    exact absurd (Eq.trans (Eq.symm hstep) hstep') (by simp)
  | stopped hm' ha hstep hr' hl hd =>
    exact absurd hd (Rwi.written_step hsz hr hin (hrun ha hstep hr') hl).1
  | rwt hm' => exact absurd (hm.symm.trans hm') (by simp)
  | dead hm' => exact absurd (hm.symm.trans hm') (by simp)

/-- What becomes of a write inside that goes through the cache. -/
theorem served_through (hm : h.writeThrough = true) (hr : rg.off + rg.len + sz ≤ 2 ^ 64)
    (hin : rg.off + rg.len ≤ C / sz * sz) (hs : h.Served C sz E (.write rg src) o) :
    ∃ a x locks, o = some (a, h.after x locks) ∧ a.Right h.bytes (.write rg src) ∧
      (∀ i, x.disk.dev (0, i) = overlay h.bytes rg.off rg.len src i) ∧
      Mirrors sz x.disk.dev x.cache ∧ ∀ k, ¬ locks.Locked k := by
  have hrun : ∀ {s t : Rwt.State}, (Rwt.machine sz E).step h.rwt (.arrive (rg, src)) = some s →
      Lts.Run (Rwt.machine sz E).step (Rwt.Serving C sz E) s t →
      Rwt.Course sz E.mend h.disk.dev rg src t := by
    intro s t hstep hrun
    have hmend : (Rwt.machine sz E.mend).step (Rwt.atRest h.front h.chunkWLocker)
        (.arrive (rg, src)) = some s := hstep
    refine Lts.run_invariant hrun ?_ fun s l t hi hl hst => Rwt.course_mend hsz hin hi hl hst
    exact Rwt.course_arrive hsz (fun _ _ => mend_succeeds) hr hh.free rfl hh.mirrors hmend
  cases hs with
  | rwi hm' => exact absurd (hm.symm.trans hm') (by simp)
  | turned hm' => exact absurd (hm.symm.trans hm') (by simp)
  | stopped hm' => exact absurd (hm.symm.trans hm') (by simp)
  | rwt hm' ha hstep hr' hi =>
    obtain ⟨hret, herr, hruns, hfree, hdev, hmirrors⟩ :=
      Rwt.answer_of_course hsz (hrun hstep hr') hi
    exact ⟨_, _, _, rfl, ⟨hret, herr, hruns, trivial⟩, hdev, hmirrors, hfree⟩
  | dead hm' ha hstep hr' hd =>
    exact absurd ((hrun hstep hr').disciplined.alive.symm.trans hd) (by simp)

end Served

theorem sound_after {x : Front} {locks : LockTable} (hm : Mirrors sz x.disk.dev x.cache)
    (hl : ∀ k, ¬ locks.Locked k) : (h.after x locks).Sound sz := ⟨hm, hl⟩

/-- A safe request has one kind of outcome: the right answer, and the bytes it is to leave. -/
theorem served_of_safe (hsz : 0 < sz) (hh : h.Sound sz) (hq : q.Safe C sz E h.writeThrough)
    (hs : h.Served C sz E q o) : ∃ a h', o = some (a, h') ∧ a.Right h.bytes q ∧
      h'.bytes = q.leaves h.bytes ∧ h'.Sound sz := by
  cases q with
  | read rg buf =>
    obtain ⟨a, x, rfl, hright, hdev, hm⟩ := served_read hsz hh hq hs
    exact ⟨_, _, rfl, hright, funext fun i => congrFun hdev _, sound_after hm hh.free⟩
  | write rg src =>
    obtain ⟨htop, hin⟩ := hq
    cases hmode : h.writeThrough with
    | false =>
      obtain ⟨horder, hin⟩ : E.movesFirst = false ∧ rg.off + rg.len ≤ C := by simpa [hmode] using hin
      obtain ⟨a, x, rfl, hright, hdev, hm⟩ := served_forward hsz hh hmode horder htop hin hs
      exact ⟨_, _, rfl, hright, funext hdev, sound_after hm hh.free⟩
    | true =>
      have hin : rg.off + rg.len ≤ C / sz * sz := by simpa [hmode] using hin
      obtain ⟨a, x, locks, rfl, hright, hdev, hm, hl⟩ := served_through hsz hh hmode htop hin hs
      exact ⟨_, _, rfl, hright, funext hdev, sound_after hm hl⟩

/-- Safe requests one after the other, with the mode switched at will, and the bytes that the
handler below would have of them without the cache. -/
inductive Session (C sz : Nat) (E : Env) (h₀ : RWHandler) : (Nat → Byte) → RWHandler → Prop
  | start : Session C sz E h₀ h₀.bytes h₀
  | mode {bare : Nat → Byte} {h : RWHandler} (value : Bool) (hs : Session C sz E h₀ bare h) :
      Session C sz E h₀ bare (h.setWriteThrough value)
  | ask {bare : Nat → Byte} {h h' : RWHandler} {q : Ask} {a : Answer}
      (hs : Session C sz E h₀ bare h) (hq : q.Safe C sz E h.writeThrough)
      (ho : h.Served C sz E q (some (a, h'))) : Session C sz E h₀ (q.leaves bare) h'

variable {bare : Nat → Byte} {n : Nat} {disk : Disk} {wt : Bool}

/-- Nothing cached, nothing locked. -/
theorem sound_of_empty (hc : h.cache.cache = []) (hl : h.chunkWLocker = .empty) : h.Sound sz := by
  refine ⟨fun k d hk => ?_, fun k => hl ▸ LockTable.not_locked_empty⟩
  have hnone : h.cache.get k = none := by rw [FlatLru.get, hc]; rfl
  exact absurd (hnone.symm.trans hk) (by simp)

theorem sound_create (hc : create n disk wt = some h₀) : h₀.Sound h₀.cache.itemSz := by
  obtain ⟨c, hmake, rfl⟩ := Option.map_eq_some_iff.mp hc
  rw [makeCache] at hmake
  split at hmake
  · obtain ⟨i, hi⟩ := chosen_of_loop hmake
    exact sound_of_empty hi.empty rfl
  · cases hmake

theorem sound_of_session (hsz : 0 < sz) (h0 : h₀.Sound sz) (hs : Session C sz E h₀ bare h) :
    h.Sound sz ∧ h.bytes = bare := by
  induction hs with
  | start => exact ⟨h0, rfl⟩
  | mode value hs ih => exact ⟨⟨ih.1.mirrors, ih.1.free⟩, ih.2⟩
  | ask hs hq ho ih =>
    obtain ⟨a, h', he, -, hbytes, hsound⟩ := served_of_safe hsz ih.1 hq ho
    cases he
    exact ⟨hsound, hbytes.trans (ih.2 ▸ rfl)⟩

/-- After any safe requests to a new handler, a safe request succeeds with the result it has without
the cache, whatever the order in which the handler below gets to its work. -/
theorem answered_as_bare (hc : create n disk wt = some h₀)
    (hs : Session C h₀.cache.itemSz E h₀ bare h) (hq : q.Safe C h₀.cache.itemSz E h.writeThrough)
    (ho : h.Served C h₀.cache.itemSz E q o) :
    ∃ a h', o = some (a, h') ∧ a.Right bare q ∧ h'.bytes = q.leaves bare := by
  obtain ⟨hsound, hbytes⟩ := sound_of_session h₀.cache.itemPos (sound_create hc) hs
  obtain ⟨a, h', he, hright, hleaves, -⟩ := served_of_safe h₀.cache.itemPos hsound hq ho
  exact ⟨a, h', he, hbytes ▸ hright, hbytes ▸ hleaves⟩

/-- Where the size of an item divides that of the handler, all requests inside are safe. -/
theorem safe_of_dvd (hd : sz ∣ C) (hin : q.range.off + q.range.len ≤ C) (htop : C + sz ≤ 2 ^ 64)
    (horder : wt = false → E.movesFirst = false) : q.Safe C sz E wt := by
  have hwhole : C / sz * sz = C := Nat.div_mul_cancel hd
  cases q with
  | read r buf => exact (show r.off + r.len ≤ C from hin).trans hwhole.ge
  | write r src =>
    have hin : r.off + r.len ≤ C := hin
    refine ⟨by omega, ?_⟩
    split
    · rwa [hwhole]
    · exact ⟨horder (Bool.eq_false_iff.mpr ‹_›), hin⟩

theorem item_pos : 0 < 1024 := by decide

/-- A handler for 3 sectors: two items of 1024 bytes. -/
def fresh : RWHandler :=
  ⟨false, ⟨fun _ => 0, 0⟩, .empty 2 1024 Nat.two_pos item_pos, fun _ => 0, .empty⟩

theorem third_pos : 0 < 512 := by decide

theorem third_top : 1024 + 512 ≤ 2 ^ 64 := by decide

/-- The third sector, of which the chunk goes beyond 1536 bytes. -/
def third : Range := ⟨1024, 512, third_pos, third_top⟩

/-- Each submit is carried out at once. -/
def atOnce : Env where
  beh _ _ := .done 0 fun _ => true
  junk _ _ := 0

theorem answered_as_bare_third : ∃ o, fresh.Served 1536 1024 atOnce (.write third fun _ => ⟨1⟩) o ∧
    ∃ a h', o = some (a, h') ∧ a.Right fresh.bytes (.write third fun _ => ⟨1⟩) ∧
      h'.bytes = (Ask.write third fun _ => ⟨1⟩).leaves fresh.bytes := by
  have ho : fresh.Served 1536 1024 atOnce (.write third fun _ => ⟨1⟩) (some _) :=
    .rwi rfl rfl rfl .refl ⟨rfl, rfl⟩
  have hc : create 3 ⟨fun _ => 0, 0⟩ false = some fresh := rfl
  exact ⟨_, ho, answered_as_bare hc .start ⟨by decide, by decide⟩ ho⟩

/-- Each submit is turned down. -/
def refusing : Env where
  beh _ _ := .reject 22 (by decide)
  junk _ _ := 0

/-- To read the third sector the handler below is asked for a chunk of 1024 bytes there, which it
turns down. -/
theorem not_answered_as_bare : ¬ ∀ (C n : Nat) (disk : Disk) (wt : Bool) (E : Env)
    (h₀ : RWHandler) (q : Ask) (o : Option (Answer × RWHandler)), 512 ∣ C →
      create n disk wt = some h₀ → q.range.off + q.range.len ≤ C →
        h₀.Served C h₀.cache.itemSz E q o → ∃ a h', o = some (a, h') ∧ a.Right h₀.bytes q := by
  intro hall
  have ho : fresh.Served 1536 1024 refusing (.read third fun _ => 0) (some _) :=
    .rwi rfl rfl rfl .refl ⟨rfl, rfl⟩
  have hc : create 3 ⟨fun _ => 0, 0⟩ false = some fresh := rfl
  obtain ⟨a, h', he, hret, -⟩ := hall 1536 3 _ false _ fresh _ _ (by decide) hc (by decide) ho
  cases he
  exact absurd hret (by decide)

end RWHandler

end Ublk.Cache
