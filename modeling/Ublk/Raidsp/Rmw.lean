import Ublk.Raidsp.Coherency
import Ublk.Raidsp.Course

/-!
Partial writes whose reads fail. A read that completes with an error stops the sub-write; a read
that is only rejected does not, since its query carries no error.
-/
namespace Ublk.Raidsp

open Shared Serial Acceptor

variable {G : Geometry} {E : Env} {dev₀ : Addr → Byte} {w w' : SubWrite} {x x' : Inner} {r : Role}
  {q : Query} {e : Int} {parity : Nat → Byte} {act : Act} {s t : State SubWrite Inner}
  {l : Label WriteReq Act Beside}

/-- The devices and the flags. -/
def Inner.surface (x : Inner) : (Addr → Byte) × (Nat → Bool) := (x.disk.dev, x.coh)

/-- Devices and flags are as before unless the sub-write has written. -/
def Spares (x : Inner) (s : SubWrite × Inner) : Prop := ¬ s.1.Wrote → s.2.surface = x.surface

theorem spares_refl : Spares x (w, x) := fun _ => rfl

theorem spares_setErr {s : SubWrite × Inner} (h : Spares x s) : Spares x (s.1.setErr e, s.2) :=
  fun hn => h (by simpa [SubWrite.Wrote] using hn)

theorem spares_whenIdle {s : SubWrite × Inner} {f : SubWrite → Inner → SubWrite × Inner}
    (hs : s.2.surface = x.surface) (hf : s.1.Idle r → Spares s.2 (f s.1 s.2)) :
    Spares x (whenIdle r f s) := by
  unfold whenIdle
  split
  · exact fun hn => (hf ‹_› hn).trans hs
  · exact fun _ => hs

theorem surface_submitRead {buf : Nat → Byte} {ss : List Sub} :
    (submitRead E r buf ss w x).2.2.surface = x.surface := by
  simp [submitRead, Inner.surface, Query.dev_submitAll_of_read, Query.read]

@[simp] theorem wrote_setErr : (w.setErr e).Wrote ↔ w.Wrote := by simp [SubWrite.Wrote]

theorem wrote_stripeCoherentParityWrite : (stripeCoherentParityWrite G E w parity x).2.1.Wrote := by
  unfold stripeCoherentParityWrite SubWrite.Wrote
  dsimp only
  rw [(query_whenIdle (G := G)).1, (query_whenIdle (G := G)).1]
  exact (strip_backendWrite (.inl rfl)).1

theorem wrote_stripeIncoherentParityWrite :
    (stripeIncoherentParityWrite G E w parity x).2.1.Wrote := by
  have h := (@strip_backendWrite G E w x .wqd parity (.inl rfl)).1
  obtain ⟨r, r', -, -, -, he⟩ := stripeIncoherentParityWrite_eq G E w parity x
  rw [he]
  dsimp only
  split
  · simpa [combinedCompleterGuard, SubWrite.Wrote] using h
  · exact h

theorem spares_rpqDone : Spares x (rpqDone G E w x) := by
  unfold rpqDone
  dsimp only
  split
  · exact fun hn => absurd wrote_stripeCoherentParityWrite hn
  · exact spares_setErr spares_refl

theorem spares_rqdDone : Spares x (rqdDone G E w x) := by
  unfold rqdDone
  dsimp only
  split
  · split
    · exact spares_setErr (spares_whenIdle surface_submitRead fun _ => spares_rpqDone)
    · exact spares_setErr fun hn => absurd wrote_stripeIncoherentParityWrite hn
  · exact spares_setErr spares_refl

theorem spares_process : Spares x (process G E w x).2 := by
  unfold process
  dsimp only
  split
  · exact fun hn => spares_whenIdle (x := x) surface_submitRead (fun _ => spares_rqdDone) hn
  · unfold stripeDataWrite stripeWrite
    split
    · exact fun hn => absurd wrote_stripeCoherentParityWrite hn
    · exact fun hn => absurd wrote_stripeIncoherentParityWrite hn

theorem untouched_of_unwritten (h : Started G w) (hn : ¬ w.Wrote) (hr : r.Strip) :
    (w.query r).Untouched := by
  cases h.course with
  | data _ _ _ hrest => exact hrest r (by rintro rfl; simp [Role.Strip] at hr)
  | parity _ _ _ _ _ _ _ hrest => exact hrest r hr
  | failed _ _ _ hrest => exact hrest r hr
  | write _ _ hw => exact absurd (hw _ (.inl rfl)) hn

/-- A sub-write that has not written is reading. -/
theorem read_of_unwritten (h : Started G w) (hn : ¬ w.Wrote) (hb : ¬ w.Idle r) :
    ¬ r.Strip ∧ (w.query r).write = false := by
  have hs : ¬ r.Strip := fun hs => hb (idle_of_untouched (untouched_of_unwritten h hn hs))
  refine ⟨hs, ?_⟩
  cases h.course with
  | data _ _ hread hrest =>
    obtain rfl : r = .rqd := by_contra fun hr => hb (idle_of_untouched (hrest r hr))
    exact hread
  | parity _ _ hdata _ _ _ hread _ =>
    obtain rfl | rfl := Role.not_strip.mp hs
    · exact absurd hdata hb
    · exact hread
  | failed _ hidle _ _ =>
    obtain rfl | rfl := Role.not_strip.mp hs
    · exact absurd hidle.1 hb
    · exact absurd hidle.2 hb
  | write _ _ hw => exact absurd (hw _ (.inl rfl)) hn

theorem wrote_whenIdle {s : SubWrite × Inner} {f : SubWrite → Inner → SubWrite × Inner}
    (hs : s.1.Wrote) (hf : (f s.1 s.2).1.Wrote) : (whenIdle r f s).1.Wrote := by
  unfold whenIdle
  split
  · exact hf
  · exact hs

theorem wrote_rpqDone (h : w.Wrote) : (rpqDone G E w x).1.Wrote := by
  unfold rpqDone
  dsimp only
  split
  · exact wrote_stripeCoherentParityWrite
  · exact wrote_setErr.mpr h

theorem wrote_queryDone (h : w.Wrote) : (queryDone G E r w x).1.Wrote := by
  have hdone : ∀ r, (writeDone G r w x).1.Wrote := fun r => by
    rwa [SubWrite.Wrote, query_writeDone.1]
  cases r with
  | rqd =>
    change (rqdDone G E w x).1.Wrote
    unfold rqdDone
    dsimp only
    split
    · split
      · have hw : (submitRead E .rpq (fun j => E.junk w.id (G.stripeDataSz + j))
            (G.parityRead w.stripe G.stripSz) w x).2.1.Wrote := h
        exact wrote_setErr.mpr (wrote_whenIdle hw (wrote_rpqDone hw))
      · exact wrote_setErr.mpr wrote_stripeIncoherentParityWrite
    · exact wrote_setErr.mpr h
  | rpq => exact wrote_rpqDone h
  | wqd => exact hdone _
  | wqp => exact hdone _

theorem wrote_set (h : w.Wrote) (hq : q.write = (w.query r).write) : (w.set r q).Wrote := by
  by_cases hr : .wqd = r
  · subst hr
    rwa [SubWrite.Wrote, SubWrite.query_set_self, hq]
  · rwa [SubWrite.Wrote, SubWrite.query_set_of_ne hr]

/-- A write stays written. -/
theorem wrote_react (h : w.Wrote) (hr : react G E act w x = some (w', x')) : w'.Wrote := by
  cases act with
  | effect r n hit =>
    obtain ⟨q, hq, he⟩ := Option.map_eq_some_iff.mp hr
    cases he
    exact wrote_set h (Query.effect_keeps hq).1
  | settle r n e =>
    obtain ⟨q, hq, he⟩ := Option.map_eq_some_iff.mp hr
    have hw := wrote_set h (Query.settle_keeps hq).2.1
    have := wrote_whenIdle (r := r) (f := queryDone G E r) (s := (w.set r q, x)) hw
      (wrote_queryDone hw)
    rwa [he] at this

theorem spares_react (h : Started G w) (hr : react G E act w x = some (w', x')) :
    Spares x (w', x') := by
  intro hn
  have hnw : ¬ w.Wrote := fun hw => hn (wrote_react hw hr)
  cases act with
  | effect r n hit =>
    obtain ⟨q, hq, he⟩ := Option.map_eq_some_iff.mp hr
    cases he
    have hread := (read_of_unwritten h hnw (idle_of_effect hq)).2
    simp [Inner.surface, Query.dev_effect_of_read hread hq]
  | settle r n e =>
    obtain ⟨q, hq, he⟩ := Option.map_eq_some_iff.mp hr
    have hs := (read_of_unwritten h hnw (idle_of_settle hq)).1
    have hsp : Spares x (whenIdle r (queryDone G E r) (w.set r q, x)) := by
      refine spares_whenIdle rfl fun _ => ?_
      obtain rfl | rfl := Role.not_strip.mp hs
      · exact spares_rqdDone
      · exact spares_rpqDone
    rw [he] at hsp
    exact hsp hn

/-- Sub-writes are numbered as they are made. -/
theorem acceptor_numbering :
    Tracing (acceptor G E) SubWrite.id (fun x => List.range x.nextId) fun x => x.done where
  start w x := by
    have h : ((acceptor G E).start w x).2.2 = _ := (stays_process (G := G) (E := E)).rest
    exact ⟨id_of_request stays_process.request, by rw [h], by rw [h]⟩
  react _ _ _ _ _ h := by
    obtain ⟨hr, hx⟩ := react_keeps h
    exact ⟨id_of_request hr, by rw [hx], by rw [hx]⟩
  park _ := rfl
  split r c x := by
    refine ⟨?_, rfl⟩
    change List.range (split G r c x).2.nextId = List.range x.nextId ++ (split G r c x).1.map _
    simp only [split, List.range_add]
    congr 1
    refine List.ext_getElem (by simp) fun i h₁ h₂ => ?_
    simp
  enter _ _ := ⟨rfl, rfl⟩
  leave _ _ := ⟨rfl, rfl⟩
  aside _ _ _ _ _ h := by
    obtain ⟨hx, -⟩ := beside_keeps h
    exact ⟨by rw [hx], by rw [hx]⟩

/-- A restart that was rejected. -/
def restartRejected (w : SubWrite) : Bool := w.waited && decide (w.res ≠ 0)

theorem acceptor_again : Again (acceptor G E) (fun w => New w ∧ w.waited = false)
    (fun w => New w ∧ w.waited = true) restartRejected where
  start w x := id_of_request (stays_process (G := G) (E := E)).request
  react _ w _ w' _ h := by
    obtain ⟨hr, -⟩ := react_keeps h
    have hw : w'.waited = w.waited := waited_of_request hr
    exact ⟨id_of_request hr, by rw [restartRejected, hw, res_react h, restartRejected]⟩
  launch w x h := by
    have hw : (process G E w x).2.1.waited = w.waited :=
      waited_of_request stays_process.request
    rw [restartRejected, show ((acceptor G E).start w x).2.1.waited = _ from hw, h.2]
    rfl
  restart w x h := by
    have hw : (process G E w x).2.1.waited = w.waited :=
      waited_of_request stays_process.request
    rw [restartRejected, show ((acceptor G E).start w x).2.1.waited = _ from hw, h.2]
    rfl

/-- The step starts sub-write `n`, has it wait, or is one of its own. -/
def WorksFor (n : Nat) (s : State SubWrite Inner) : Label WriteReq Act Beside → Prop
  | .tick => (∃ f fs w ws, s.frames = f :: fs ∧ f.finish = false ∧
      popFirst (fun w => w.stripe == f.job.stripe) s.pending = some (w, ws) ∧ w.id = n) ∨
      ∃ c w rest ret, s.issue = some ⟨c, w :: rest, ret⟩ ∧ s.frames = [] ∧ w.id = n
  | .act i _ => ∃ w, s.active[i]? = some w ∧ w.id = n
  | _ => False

/-- No backend write was issued for `w`, none of its steps on the way to `s` changed a device or
a flag, and one completer let its stripe go or handed it on. -/
def Spared (G : Geometry) (E : Env) (dev₀ : Addr → Byte) (s : State SubWrite Inner)
    (w : SubWrite) : Prop :=
  ¬ w.Wrote ∧ (∀ a l b, Lts.Run (acceptor G E).step (fun _ _ => True)
      (.initial (Inner.initial dev₀)) a → WorksFor w.id a l → (acceptor G E).step a l = some b →
      Lts.Run (acceptor G E).step (fun _ _ => True) b s → b.inner.surface = a.inner.surface) ∧
    s.rounds.count w.id = 1

theorem surface_place : ((acceptor G E).place w s).inner.surface = s.inner.surface := by
  unfold Machine.place
  split <;> rfl

/-- A step of a sub-write that has not written afterwards. -/
theorem surface_step {n : Nat} (hj : Jobs (acceptor G E) (fun x => x.done)
      (fun w => New w ∧ w.waited = false) (fun w => New w ∧ w.waited = true) (Started G) s)
    (hw : WorksFor n s l) (hs : (acceptor G E).step s l = some t)
    (hn : ¬ Begun (fun x => x.done) (fun w => w.id = n ∧ w.Wrote) t) :
    t.inner.surface = s.inner.surface := by
  cases Machine.step_sound hs with
  | arrive hq => cases hw
  | unlock hd hf hl hp hu => rfl
  | crash hd hf hl hp hu => rfl
  | @restart f fs w ws hd hf hl hp =>
    have hid : w.id = n := by
      obtain ⟨f', fs', w', ws', hf', -, hp', hid⟩ | ⟨_, _, _, _, -, hnil, -⟩ := hw
      · obtain ⟨rfl, rfl⟩ := List.cons.inj (hf.symm.trans hf')
        obtain ⟨rfl, rfl⟩ := Prod.mk.inj (Option.some.inj (hp.symm.trans hp'))
        exact hid
      · simp [hnil] at hf
    rw [surface_place]
    refine spares_process (G := G) (E := E) fun hwr => hn ((begun_place acceptor_numbering).mpr
      (.inr ⟨?_, hwr⟩))
    exact (id_of_request (stays_process (G := G) (E := E)).request).trans hid
  | back hd hf hl => rfl
  | @launch c w rest ret locks hd hf hi ht =>
    have hid : w.id = n := by
      obtain ⟨_, _, _, _, hf', -⟩ | ⟨_, _, _, _, hi', -, hid⟩ := hw
      · simp [hf] at hf'
      · cases hi.symm.trans hi'
        exact hid
    rw [surface_place]
    refine spares_process (G := G) (E := E) fun hwr => hn ((begun_place acceptor_numbering).mpr
      (.inr ⟨?_, hwr⟩))
    exact (id_of_request (stays_process (G := G) (E := E)).request).trans hid
  | wait hd hf hi ht => rfl
  | overrun hd hf hi ht => rfl
  | conclude hd hf hi hr => rfl
  | @act i a w w' inner hq hi hr =>
    obtain ⟨w'', hi', hid⟩ := hw
    cases hi.symm.trans hi'
    rw [surface_place]
    refine spares_react (hj.active w (List.mem_of_getElem? hi)) hr fun hwr =>
      hn ((begun_place acceptor_numbering).mpr (.inr ⟨?_, hwr⟩))
    exact (id_of_request (react_keeps hr).1).trans hid
  | aside hq hr => cases hw

theorem wrote_run {n : Nat} (h : Lts.Run (acceptor G E).step (fun _ _ => True) s t)
    (hs : Begun (fun x => x.done) (fun w => w.id = n ∧ w.Wrote) s) :
    Begun (fun x => x.done) (fun w => w.id = n ∧ w.Wrote) t := by
  refine Lts.run_invariant h hs fun _ _ _ hb _ hstep => begun_step acceptor_numbering ?_ hb hstep
  exact fun a w x w' x' hr hw =>
    ⟨(id_of_request (react_keeps hr).1).trans hw.1, wrote_react hw.2 hr⟩

theorem guarded_true : Guarded (fun (_ : Act) (_ : SubWrite) => True)
    (fun (_ : Beside) (_ : Inner) => True) s l := by
  cases l with
  | act i a => exact fun _ _ => trivial
  | _ => trivial

/-- A partial write that has ended is spared exactly if one of its reads completed with an error,
and it was not restarted with its first read rejected. -/
theorem spared_iff (h : Lts.Run (acceptor G E).step (fun _ _ => True)
      (.initial (Inner.initial dev₀)) s) (hw : w ∈ s.inner.done)
    (hpart : w.size < G.stripeDataSz)
    (hset : ∀ f ∈ s.frames, f.finish = true ∨ f.acct ≠ w.id) :
    Spared G E dev₀ s w ↔ ((w.query .rqd).bad = true ∨ (w.query .rpq).bad = true) ∧
      ¬ (w.waited = true ∧ (w.query .rqd).rej ≠ 0) := by
  have hjobs := fun s (h : Lts.Run (acceptor G E).step (fun _ _ => True)
      (.initial (Inner.initial dev₀)) s) => jobs_run acceptor_tracing acceptor_rule rfl
    (Lts.run_mono (fun s l _ => guarded_true (s := s) (l := l)) h)
  obtain ⟨hstarted, hb⟩ := (hjobs s h).book w hw
  have hnd := nodup_of_tags (tags_le_run acceptor_numbering rfl h) List.nodup_range
  have hrounds := rounds_of_ended (M := acceptor G E) (searches_run acceptor_numbering
    acceptor_rule acceptor_again rfl (Lts.run_mono (fun _ _ _ => guarded_true) h) w.id) hnd hw hset
  have hwrote := wrote_of_ended hstarted hb
  have hres := hstarted.res
  rw [if_pos hpart] at hres
  have hagain : restartRejected w = true ↔ w.waited = true ∧ (w.query .rqd).rej ≠ 0 := by
    simp [restartRejected, hres]
  change s.rounds.count w.id = _ at hrounds
  constructor
  · rintro ⟨hn, -, hone⟩
    refine ⟨?_, fun hr => ?_⟩
    · rw [hwrote] at hn
      by_contra hbad
      simp_all
    · rw [hrounds, if_pos (hagain.mpr hr)] at hone
      omega
  · rintro ⟨hbad, hr⟩
    have hn : ¬ w.Wrote := by
      rw [hwrote]
      rintro ⟨h₁, h₂⟩
      simp_all
    refine ⟨hn, fun a l b ha hl hab hbs => ?_, ?_⟩
    · refine surface_step (hjobs a ha) hl hab fun hbegun => hn ?_
      obtain ⟨j, hj, hid, hjw⟩ := wrote_run hbs hbegun
      exact eq_of_tag hnd hj (.inr hw) hid ▸ hjw
    · rw [hrounds, if_neg (hagain.not.mpr hr)]

/-- A handler rejected one of the reads of `w`, or completed one with an error. -/
def ReadWrong (w : SubWrite) : Prop :=
  ∃ r : Role, ¬ r.Strip ∧ ((w.query r).rej ≠ 0 ∨ (w.query r).bad = true)

/-- A partial write one of whose reads goes wrong leaves the stripe as it was exactly if one of
them is accepted and fails, and no other completer restarted it in vain. -/
theorem spared_of_readWrong (h : Lts.Run (acceptor G E).step (fun _ _ => True)
      (.initial (Inner.initial dev₀)) s) (hw : w ∈ s.inner.done)
    (hpart : w.size < G.stripeDataSz)
    (hset : ∀ f ∈ s.frames, f.finish = true ∨ f.acct ≠ w.id) :
    (ReadWrong w → Spared G E dev₀ s w) ↔ (ReadWrong w →
      ((w.query .rqd).bad = true ∨ (w.query .rpq).bad = true) ∧
        ¬ (w.waited = true ∧ (w.query .rqd).rej ≠ 0)) :=
  imp_congr_right fun _ => spared_iff h hw hpart hset

/-- The first read completes with an error. -/
def firstReadFails : Env where
  beh write i := if !write ∧ i = 0 then .done 5 fun _ => false else .done 0 fun _ => true
  junk _ _ := 0

/-- One write of the first strip, and the steps the program makes by itself. -/
def stripWriteRun : List (Label WriteReq Act Beside) :=
  [.arrive (stripReq 0 fun _ => ⟨1#8⟩), .tick, .tick, .tick, .tick]

theorem spared_of_readWrong_stripWrite : ∃ s w, afterRun firstReadFails stripWriteRun = some s ∧
    w ∈ s.inner.done ∧ ReadWrong w ∧ Spared smallRaid firstReadFails (fun _ => 0) s w := by
  obtain ⟨s, hs⟩ : ∃ s, afterRun firstReadFails stripWriteRun = some s :=
    Option.isSome_iff_exists.mp (by decide +kernel)
  have hend : (afterRun firstReadFails stripWriteRun).map (fun s => (s.frames.length,
      s.inner.done.map fun w => (w.size, w.waited, (w.query .rqd).bad))) =
        some (0, [(512, false, true)]) := by decide +kernel
  simp only [hs, Option.map_some, Option.some.injEq, Prod.mk.injEq, List.length_eq_zero_iff,
    List.map_eq_singleton_iff] at hend
  obtain ⟨hframes, w, hdone, hsize, hwaited, hbad⟩ := hend
  have hw : w ∈ s.inner.done := by simp [hdone]
  have hwrong : ReadWrong w := ⟨.rqd, by simp [Role.Strip], .inr hbad⟩
  refine ⟨s, w, hs, hw, hwrong, (spared_of_readWrong
    (Lts.run_of_exec (fun _ _ _ => trivial) hs) hw ?_ ?_).mpr ?_ hwrong⟩
  · rw [hsize]
    decide
  · simp [hframes]
  · simp [hbad, hwaited]

/-- The first read is rejected. -/
def firstReadRejected : Env where
  beh write i := if !write ∧ i = 0 then .refused else .done 0 fun _ => true
  junk _ _ := 0

/-- A rejected read goes for a read that succeeded, and the strips are written. -/
theorem unspared : ¬ ∀ (G : Geometry) (E : Env) (dev₀ : Addr → Byte)
    (s : State SubWrite Inner) (w : SubWrite),
    Lts.Run (acceptor G E).step (fun _ _ => True) (.initial (Inner.initial dev₀)) s →
    w ∈ s.inner.done → w.size < G.stripeDataSz →
    (∀ f ∈ s.frames, f.finish = true ∨ f.acct ≠ w.id) → ReadWrong w → Spared G E dev₀ s w := by
  intro h
  obtain ⟨s, hs⟩ : ∃ s, afterRun firstReadRejected stripWriteRun = some s :=
    Option.isSome_iff_exists.mp (by decide +kernel)
  have hend : (afterRun firstReadRejected stripWriteRun).map (fun s => (s.frames.length,
      s.inner.done.map fun w => (w.size, (w.query .rqd).rej, (w.query .wqd).write))) =
        some (0, [(512, 5, true)]) := by decide +kernel
  simp only [hs, Option.map_some, Option.some.injEq, Prod.mk.injEq, List.length_eq_zero_iff,
    List.map_eq_singleton_iff] at hend
  obtain ⟨hframes, w, hdone, hsize, hrej, hwrite⟩ := hend
  obtain ⟨hn, -⟩ := h smallRaid firstReadRejected _ s w (Lts.run_of_exec (fun _ _ _ => trivial) hs)
    (by simp [hdone]) (by rw [hsize]; decide) (by simp [hframes])
    ⟨.rqd, by simp [Role.Strip], .inl (by simp [hrej])⟩
  exact hn hwrite

end Ublk.Raidsp
