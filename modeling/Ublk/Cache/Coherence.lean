import Ublk.Cache.WriteThrough

/-!
`RWTHandler` in runs in which no submit is turned down. A chunk is cached as the handler below has
it but for bytes that a part under way covers, as long as no read brings old bytes into the cache.
-/
namespace Ublk.Cache.Rwt

open Shared Requests Serial

variable {sz n : Nat} {E : Env} {dev₀ : Addr → Byte} {w w' : ChunkWrite} {x x' : Inner}
  {k i j c : Nat} {e : Int} {a : Act} {b : Beside} {s t : State} {l : Label} {q q' : Requests}
  {r : ChunkWrite × Inner} {y z : Front} {hn : 0 < n} {hsz : 0 < sz}

/-- The step brings no chunk into the cache with a byte that a write reached after the byte was
read, or that a write handed on is yet to reach. -/
def InTime (sz : Nat) (E : Env) (s : State) (l : Label) : Prop :=
  ∀ t, (machine sz E).step s l = some t → t.inner.front.outdated = false

/-- The chunks of failed parts whose completers are at work. -/
def failures (fs : List (Frame ChunkWrite)) : List Nat :=
  (fs.filter fun f => decide (f.job.err ≠ 0)).map fun f => f.job.chunkId

theorem failures_cons {f : Frame ChunkWrite} {fs : List (Frame ChunkWrite)} : failures (f :: fs) =
    if f.job.err = 0 then failures fs else f.job.chunkId :: failures fs := by
  by_cases he : f.job.err = 0
  · simp [failures, he]
  · simp [failures, he]

/-- What is known of reads. -/
structure Seen (sz : Nat) (x : Inner) (q : Requests) : Prop where
  tracked : Tracked sz x.front
  delivers : Delivers (fun _ _ => False) x.front q

structure Inv (sz : Nat) (E : Env) (dev₀ : Addr → Byte) (s : State) : Prop where
  ordered : Ordered (machine sz E) s
  owned : Owned (chunks sz dev₀) (machine sz E) s
  failing : s.inner.failing = failures s.frames
  seen : Seen sz s.inner s.reqs

theorem seen_congr (h : Seen sz x q) (hd : y.disk.dev = x.front.disk.dev)
    (hf : y.fills = x.front.fills) (hr : y.reads = x.front.reads) :
    Seen sz { x with front := y } q :=
  ⟨tracked_congr h.tracked (fun _ hm => hf ▸ hm) hr hd, delivers_congr h.delivers hf hr⟩

theorem seen_reach (h : Seen sz x q) {disk : Disk} {hit : Nat → Bool}
    (hd : x.front.Reaches hit disk.dev) : Seen sz (x.reach sz disk hit) q :=
  ⟨tracked_mark h.tracked hd, delivers_mark (delivers_congr h.delivers rfl rfl)⟩

theorem seen_submitWrite (h : Seen sz x q) : Seen sz (submitWrite sz E w x).2.2 q := by
  have hs := @seen_reach sz x q h ((Query.writing w.src).submit E (w.sub sz) x.front.disk).2.2
    ((E.beh true x.front.disk.next).lands (w.sub sz)) fun _ hl => Query.dev_of_not_lands hl
  exact ⟨hs.tracked, hs.delivers⟩

theorem seen_put {f : Nat → Byte} (h : Seen sz x q) : Seen sz (x.put k f) q :=
  seen_congr h rfl rfl rfl

theorem seen_rmwDone (h : Seen sz x q) : Seen sz (rmwDone sz E w x).2 q := by
  unfold rmwDone
  split
  · exact seen_submitWrite (seen_put h)
  · exact h

theorem seen_process (h : Seen sz x q) : Seen sz (process sz E w x).2.2 q := by
  unfold process
  split
  · exact seen_submitWrite (seen_put h)
  · dsimp only
    split
    · unfold readFirst
      dsimp only
      have hs := fun disk (hd : disk.dev = x.front.disk.dev) => @seen_congr sz x q
        { x.front with disk, cache := (x.front.cache.findMutable w.chunkId fun b =>
          overlay b w.chunkOffset w.size w.src).2 } h hd rfl rfl
      split
      · exact seen_rmwDone (hs _ (Query.dev_submit_of_read rfl))
      · exact hs _ (Query.dev_submit_of_read rfl)
    · exact seen_submitWrite (seen_congr h rfl rfl rfl)

theorem seen_react (hr : react sz E a w x = some r) (h : Seen sz x q) : Seen sz r.2 q := by
  cases a with
  | sample hit =>
    obtain ⟨v, -, rfl⟩ := Option.map_eq_some_iff.mp hr
    exact h
  | fill e =>
    obtain ⟨v, -, rfl⟩ := Option.map_eq_some_iff.mp hr
    exact seen_rmwDone h
  | apply hit =>
    obtain ⟨v, hv, rfl⟩ := Option.map_eq_some_iff.mp hr
    have hs := @seen_reach sz x q h { x.front.disk with dev := v.2 }
      (fun a => w.wq.ops.any (·.lands hit a)) fun _ hl => Query.dev_of_not_lands_effect hv hl
    exact ⟨hs.tracked, hs.delivers⟩
  | complete e =>
    obtain ⟨v, -, rfl⟩ := Option.map_eq_some_iff.mp hr
    exact ⟨h.tracked, h.delivers⟩

theorem seen_aside (hsz : 0 < sz) (hE : ∀ i, (E.beh false i).Accepts)
    (hh : Hits sz x.owed x.front) (ha : aside sz E b x q = some (x', q')) (h : Seen sz x q) :
    Seen sz x' q' := by
  cases b with
  | read rg buf =>
    cases ha
    exact ⟨(reading_read hsz hE h.tracked hh).tracked, delivers_read hsz hE h.delivers⟩
  | sample i hit =>
    obtain ⟨y, hy, he⟩ := Option.map_eq_some_iff.mp ha
    cases he
    exact ⟨tracked_sample h.tracked hy, delivers_sample h.delivers hy⟩
  | settle i e =>
    obtain ⟨y, hy, he⟩ := Option.map_eq_some_iff.mp ha
    cases he
    exact ⟨tracked_settle h.tracked hy, delivers_settle h.delivers hy⟩

theorem seen_rule (hsz : 0 < sz) (hE : ∀ i, (E.beh false i).Accepts) :
    KeptBoth (machine sz E) (fun _ x => Hits sz x.owed x.front) (Seen sz) where
  grows _ _ _ h hg := ⟨h.tracked, delivers_grows h.delivers hg⟩
  split _ _ _ _ h := ⟨h.tracked, h.delivers⟩
  start _ _ _ h := seen_process h
  react _ _ _ _ _ _ hr h := seen_react hr h
  enter _ _ _ h := ⟨h.tracked, h.delivers⟩
  leave w x q h := by
    dsimp only [machine]
    split
    · exact h
    · exact ⟨tracked_congr h.tracked (fun _ => id) rfl rfl, delivers_congr h.delivers rfl rfl⟩
  aside _ _ _ _ _ hh ha h := seen_aside hsz hE hh ha h

theorem failing_place (h : s.inner.failing = failures s.frames) :
    ((machine sz E).place w s).inner.failing = failures ((machine sz E).place w s).frames := by
  unfold Machine.place
  split
  · exact h
  · dsimp only [machine]
    rw [failures_cons, h]

theorem failing_step (h : s.inner.failing = failures s.frames)
    (hs : (machine sz E).step s l = some t) : t.inner.failing = failures t.frames := by
  have hhead : ∀ {f : Frame ChunkWrite} {fs : List (Frame ChunkWrite)} {m : Nat} {b : Bool},
      failures (⟨f.job, m, b⟩ :: fs) = failures (f :: fs) := by
    intro f fs m b
    rw [failures_cons, failures_cons]
  cases Machine.step_sound hs with
  | arrive hq => exact h
  | unlock hd hf hl hp hu => exact h.trans (hf ▸ hhead.symm)
  | crash hd hf hl hp hu => exact h.trans (hf ▸ hhead.symm)
  | restart hd hf hl hp =>
    refine failing_place ?_
    dsimp only
    rw [hf] at h
    split
    · exact rests_process.failing.trans (h.trans hhead.symm)
    · exact rests_process.failing.trans (h.trans hhead.symm)
  | @back f fs hd hf hl =>
    rw [hf, failures_cons] at h
    by_cases he : f.job.err = 0
    · simpa [Machine.back, machine, he] using h
    · simp [Machine.back, machine, he, dropChunk, h]
  | launch hd hf hi ht => exact failing_place (rests_process.failing.trans h)
  | wait hd hf hi ht => exact h
  | overrun hd hf hi ht => exact h
  | conclude hd hf hi hr => exact h
  | act hq hj hr => exact failing_place ((rests_react hr).failing.trans h)
  | aside hq hr =>
    rw [aside_rest hr]
    exact h

/-- Where nobody is at work a chunk is settled; elsewhere a part was handed on. -/
theorem chunk_cases (h : Inv sz E dev₀ s) (k : Nat) : Settled sz dev₀ k s.inner ∨
    ∃ w ∈ s.active, w.chunkId = k ∧ Writing sz dev₀ w s.inner ∧ w.wq.ops ≠ [] := by
  by_cases hl : s.locks.Locked k
  · obtain hm | hm := List.mem_append.mp ((h.ordered.locked k).mp hl)
    · obtain ⟨w, hw, rfl⟩ := List.mem_map.mp hm
      obtain hr | hr := h.owned.held w hw
      · exact .inl hr.settled
      · exact .inr ⟨w, hw, rfl, hr⟩
    · obtain ⟨f, hf, rfl⟩ := List.mem_map.mp hm
      obtain ⟨hf, hfin⟩ := List.mem_filter.mp hf
      exact .inl (h.owned.search f hf (by simpa using hfin))
  · exact .inl (h.owned.free k hl)

/-- A cached byte is the handler's below, or a part is yet to bring it there. -/
theorem shown_of_inv (h : Inv sz E dev₀ s) (hk : k ∉ s.inner.failing) {d : Option (Nat → Byte)}
    (hd : s.inner.front.cache.get k = some d) : ∃ b, d = some b ∧ ∀ j < sz,
      b j = chunkAt sz s.inner.front.disk.dev k j ∨ s.inner.owed (k * sz + j) = true ∧
        ∃ w ∈ s.active, w.wq.ops ≠ [] ∧ w.Covers sz (k * sz + j) := by
  obtain hs | ⟨w, hw, rfl, hs, ho⟩ := chunk_cases h k
  · obtain ⟨b, rfl, hb⟩ := hs.shows hk d hd
    exact ⟨b, rfl, fun j hj => .inl (hb j hj)⟩
  · obtain ⟨b, rfl, hb⟩ := hs.shows hk d hd
    have herr : w.wq.err = 0 := hs.follows.code.mpr (hs.shape.resolve_left ho).1
    refine ⟨b, rfl, fun j hj => ?_⟩
    cases howed : s.inner.owed (w.chunkId * sz + j) with
    | false => exact .inl ((hb j hj).trans (agrees_of_writing hs herr hj howed).symm)
    | true => exact .inr ⟨rfl, w, hw, ho, covers_iff.mpr ((hs.owed j hj).mp howed).1⟩

theorem hits_of_inv (h : Inv sz E dev₀ s) (hq : s.Quiet) : Hits sz s.inner.owed s.inner.front := by
  intro k d hd
  have hf : s.inner.failing = [] := by
    rw [h.failing, hq.1]
    rfl
  obtain ⟨b, rfl, hb⟩ := shown_of_inv h (by simp [hf]) hd
  exact ⟨b, rfl, fun j hj => (hb j hj).imp_right And.left⟩

/-- Whatever the requests are, the same chunks come into the cache. -/
theorem alike_aside {y y' : Inner} {u u' : Requests} (h : aside sz E b x q = some (y, q'))
    (h' : aside sz E b x u = some (y', u')) : y.front.outdated = y'.front.outdated := by
  cases b with
  | read rg buf =>
    cases h
    cases h'
    exact frontEq_read.outdated
  | sample i hit =>
    obtain ⟨v, hv, he⟩ := Option.map_eq_some_iff.mp h
    obtain ⟨v', hv', he'⟩ := Option.map_eq_some_iff.mp h'
    cases he
    cases he'
    cases hv.symm.trans hv'
    rfl
  | settle i e =>
    obtain ⟨v, hv, he⟩ := Option.map_eq_some_iff.mp h
    obtain ⟨v', hv', he'⟩ := Option.map_eq_some_iff.mp h'
    cases he
    cases he'
    obtain ⟨f, p, hf, hp, rfl⟩ := settle_cases hv
    obtain ⟨f', p', hf', hp', rfl⟩ := settle_cases hv'
    cases hf.symm.trans hf'
    cases hp.symm.trans hp'
    exact (frontEq_filled frontEq_refl rfl rfl rfl rfl).outdated

/-- What was handed on is accepted, so a part that is started again reports no failure. -/
theorem process_zero (hE : ∀ c i, (E.beh c i).Accepts) : (process sz E w x).1 = 0 := by
  unfold process
  split
  · exact (rej_of_accepts (q := Query.writing w.src) (hE _ _) rfl).1
  · dsimp only
    split
    · exact (rej_of_accepts (q := Query.read _) (hE _ _) rfl).1
    · exact (rej_of_accepts (q := Query.writing w.src) (hE _ _) rfl).1

theorem restarts_of_accepts (hE : ∀ c i, (E.beh c i).Accepts) : Restarts (machine sz E) s l := by
  cases l with
  | tick => exact fun _ _ _ _ _ _ _ => process_zero hE
  | _ => trivial

theorem inv_step (hsz : 0 < sz) (hE : ∀ c i, (E.beh c i).Accepts) (h : Inv sz E dev₀ s)
    (hok : InTime sz E s l) (hs : (machine sz E).step s l = some t) : Inv sz E dev₀ t := by
  have hr : Restarts (machine sz E) s l := restarts_of_accepts hE
  refine ⟨ordered_step machine_fixed h.ordered hr hs, ?_, failing_step h.failing hs, ?_⟩
  · refine owned_step machine_fixed (chunks_sound hsz hE) h.ordered h.owned hr ?_ hs
    cases l with
    | aside b =>
      refine ⟨h.seen.tracked, fun q r hr => ?_⟩
      cases Machine.step_sound hs with
      | aside hq ha =>
        rw [alike_aside hr ha]
        exact hok _ hs
    | act i a => exact fun _ _ => trivial
    | _ => trivial
  · have hok : Guarded (fun _ _ => True) (fun _ x => Hits sz x.owed x.front) s l := ?_
    · exact keptBoth_step (seen_rule hsz (hE false)) h.seen hok hs
    cases l with
    | aside b =>
      cases Machine.step_sound hs with
      | aside hq hr => exact hits_of_inv h hq
    | act i a => exact fun _ _ => trivial
    | _ => trivial

theorem inv_initial : Inv sz E dev₀ (.initial (.initial n sz hn hsz dev₀)) := by
  have hset : ∀ k, Settled sz dev₀ k (.initial n sz hn hsz dev₀) := by
    refine fun k => ⟨fun _ _ => rfl, fun _ d hd => ?_, fun _ _ _ => rfl⟩
    cases hd
  refine ⟨ordered_initial _, ?_, rfl, tracked_initial, ?_⟩
  · constructor <;> simp [Serial.State.initial, chunks, hset]
  · constructor <;> simp [Serial.State.initial, Inner.initial]

theorem inv_of_run {ok : State → Label → Prop} (hsz : 0 < sz) (hE : ∀ c i, (E.beh c i).Accepts)
    (hok : ∀ s l, ok s l → InTime sz E s l) (hi : Inv sz E dev₀ s)
    (h : Lts.Run (machine sz E).step ok s t) : Inv sz E dev₀ t :=
  Lts.run_invariant h hi fun _ _ _ hi ho hs => inv_step hsz hE hi (hok _ _ ho) hs

/-- The errors of a part's queries say whether they failed. -/
def ChunkWrite.Honest (w : ChunkWrite) : Prop := w.rmwq.Honest ∧ w.wq.Honest

theorem honest_submitWrite (h : w.rmwq.Honest) :
    ChunkWrite.Honest (submitWrite sz E w x).2.1 :=
  ⟨h, Query.honest_submit (Query.honest_writing _)⟩

theorem honest_rmwDone (h : ChunkWrite.Honest w) : ChunkWrite.Honest (rmwDone sz E w x).1 := by
  unfold rmwDone
  split
  · exact honest_submitWrite h.1
  · exact h

theorem honest_process (h : ChunkWrite.Honest w) : ChunkWrite.Honest (process sz E w x).2.1 := by
  unfold process
  split
  · exact honest_submitWrite h.1
  · dsimp only
    split
    · have hq := Query.honest_submit (E := E) (s := chunkSub sz w.chunkId) (d := x.front.disk)
        (Query.honest_read (E.junk x.front.disk.next))
      unfold readFirst
      dsimp only
      split
      · exact honest_rmwDone ⟨hq, h.2⟩
      · exact ⟨hq, h.2⟩
    · exact honest_submitWrite h.1

theorem honest_react (hr : react sz E a w x = some r) (h : ChunkWrite.Honest w) :
    ChunkWrite.Honest r.1 := by
  cases a with
  | sample hit =>
    obtain ⟨q, hq, rfl⟩ := Option.map_eq_some_iff.mp hr
    obtain ⟨-, -, herr, hbad, -⟩ := Query.effect_keeps hq
    exact ⟨Query.honest_of_eq herr hbad h.1, h.2⟩
  | fill e =>
    obtain ⟨q, hq, rfl⟩ := Option.map_eq_some_iff.mp hr
    exact honest_rmwDone ⟨Query.honest_settle h.1 hq, h.2⟩
  | apply hit =>
    obtain ⟨q, hq, rfl⟩ := Option.map_eq_some_iff.mp hr
    obtain ⟨-, -, herr, hbad, -⟩ := Query.effect_keeps hq
    exact ⟨h.1, Query.honest_of_eq herr hbad h.2⟩
  | complete e =>
    obtain ⟨q, hq, rfl⟩ := Option.map_eq_some_iff.mp hr
    exact ⟨h.1, Query.honest_settle h.2 hq⟩

theorem honest_rule : JobRule (machine sz E) ChunkWrite.Honest ChunkWrite.Honest ChunkWrite.Honest
    fun _ _ => True where
  launch _ _ h := honest_process h
  restart _ _ h := honest_process h
  react _ _ _ _ _ _ h hr := honest_react hr h
  park _ h := h
  split r c x w hw := by
    obtain ⟨v, -, rfl⟩ := List.mem_map.mp hw
    exact ⟨Query.honest_read _, Query.honest_writing _⟩

/-- A part whose read or write failed ends with an error. -/
theorem err_of_bad (h : ChunkWrite.Honest w) (hb : w.rmwq.bad = true ∨ w.wq.bad = true) :
    w.err ≠ 0 := by
  have hr : w.rmwq.err = 0 ↔ w.rmwq.bad = false := h.1
  have hw : w.wq.err = 0 ↔ w.wq.bad = false := h.2
  unfold ChunkWrite.err
  split
  · rename_i he
    rw [Ne, hw]
    rw [hr] at he
    simpa [he] using hb
  · assumption

theorem book_initial : (Inner.initial n sz hn hsz dev₀).done = [] := rfl

/-- Whatever is turned down or fails: if a part's read or write failed, the request has an error
when its completer runs. -/
theorem failure_told {ok : State → Label → Prop}
    (h : Lts.Run (machine sz E).step ok (.initial (.initial n sz hn hsz dev₀)) s)
    (hw : w ∈ s.inner.done) (hb : w.rmwq.bad = true ∨ w.wq.bad = true)
    (hr : (s.reqs.req w.cid).runs ≠ 0) : (s.reqs.req w.cid).err ≠ 0 := by
  have hguard : Lts.Run (machine sz E).step (Guarded (fun _ _ => True) fun _ _ => True)
      (.initial (.initial n sz hn hsz dev₀)) s :=
    Lts.run_mono (fun s l _ => by cases l <;> simp [Guarded]) h
  have hjobs := jobs_run machine_tracing honest_rule book_initial hguard
  exact told_run machine_tracing machine_sharing machine_late book_initial (fun _ => rfl) h hw
    (err_of_bad (hjobs.book w hw).1 hb) hr

end Ublk.Cache.Rwt
