import Ublk.Cache.FailedReads
import Ublk.Cache.Stale
import Ublk.Lib.SerialTogether

/-!
Chunks that cannot be read under `RWTHandler`, where the parts of writes read chunks too. Nothing of
a chunk that fails gets into the cache or to the handler below.
-/
namespace Ublk.Cache

open Shared Requests Serial

variable {sz n : Nat} {E : Env} {dev₀ : Addr → Byte} {K : Nat → Byte → Prop} {w w' : ChunkWrite}
  {x x' : Rwt.Inner} {a : Rwt.Act} {b : Rwt.Beside} {q q' : Requests} {r : ChunkWrite × Rwt.Inner}
  {v : Slice} {chunk : Nat → Byte} {s t u : Rwt.State} {k c : Nat} {hn : 0 < n} {hsz : 0 < sz}

namespace Rwt

/-- The bytes of a part are allowed at their places. -/
structure GenuineSlice (K : Nat → Byte → Prop) (sz : Nat) (v : Slice) : Prop where
  fits : Fits sz v
  bytes : ∀ p < v.size, K (v.chunkId * sz + v.chunkOffset + p) (v.src p)

structure GenuinePart (K : Nat → Byte → Prop) (sz : Nat) (w : ChunkWrite) : Prop where
  slice : GenuineSlice K sz w.toSlice
  reading : w.rmwq.ops = [] ∨ ChunkRead K sz w.chunkId w.rmwq ∧ w.wq.ops = []
  writing : Bearing K w.wq
  accepted : w.rmwq.rej = 0

/-- A part that was not started. -/
def Unstarted (K : Nat → Byte → Prop) (sz : Nat) (w : ChunkWrite) : Prop :=
  w = w.toSlice.fresh ∧ GenuineSlice K sz w.toSlice

structure Inner.Genuine (K : Nat → Byte → Prop) (sz : Nat) (x : Inner) : Prop where
  front : x.front.Genuine K sz
  accepted : ∀ w ∈ x.done, w.rmwq.rej = 0

theorem brings_sub (h : GenuineSlice K sz w.toSlice) :
    Brings K (w.sub sz) (Query.writing w.src) := fun _ i hi => by
  dsimp only [Slice.sub, Query.writing]
  rw [Nat.zero_add]
  exact h.bytes i hi

theorem allowed_whole (h : GenuineSlice K sz v) (hv : ¬ v.size < sz) :
    Allowed K sz v.chunkId v.src := by
  intro j hj
  have hin := h.fits.inside
  have hbyte := h.bytes j (by omega)
  rwa [show v.chunkId * sz + v.chunkOffset + j = v.chunkId * sz + j by omega] at hbyte

/-- A part laid over a chunk. -/
theorem allowed_overlay (h : GenuineSlice K sz v) (hc : Allowed K sz v.chunkId chunk) :
    Allowed K sz v.chunkId (overlay chunk v.chunkOffset v.size v.src) := by
  intro j hj
  rw [overlay]
  split
  · rename_i hin
    have hbyte := h.bytes (j - v.chunkOffset) (by omega)
    rwa [show v.chunkId * sz + v.chunkOffset + (j - v.chunkOffset) = v.chunkId * sz + j by omega]
      at hbyte
  · exact hc j hj

theorem genuine_submitWrite (hw : GenuineSlice K sz w.toSlice) (hops : w.rmwq.ops = [])
    (hrej : w.rmwq.rej = 0) (hx : x.front.Genuine K sz) :
    GenuinePart K sz (submitWrite sz E w x).2.1 ∧
      (submitWrite sz E w x).2.2.front.Genuine K sz := by
  have hbrings := brings_sub hw
  have hmark := @genuine_mark sz ((E.beh true x.front.disk.next).lands (w.sub sz)) x.front _ K hx
    (sourced_submit (E := E) hx.below hbrings)
  exact ⟨⟨hw, .inl hops, bearing_writing hbrings, hrej⟩, hmark⟩

theorem genuine_rmwDone (hw : GenuinePart K sz w) (hops : w.rmwq.ops = [])
    (hb : w.rmwq.err = 0 → Allowed K sz w.chunkId w.rmwq.buf) (hx : x.front.Genuine K sz) :
    GenuinePart K sz (rmwDone sz E w x).1 ∧ (rmwDone sz E w x).2.front.Genuine K sz := by
  unfold rmwDone
  split
  · rename_i he
    have hput : (x.put w.chunkId (overlay w.rmwq.buf w.chunkOffset w.size w.src)).front.Genuine
        K sz := genuine_update hx (allowed_overlay hw.slice (hb he))
    exact genuine_submitWrite hw.slice hops hw.accepted hput
  · exact ⟨hw, hx⟩

theorem genuine_readFirst (hE : ∀ i, (E.beh false i).Accepts) (hw : GenuinePart K sz w)
    (hops : w.wq.ops = []) (hx : x.front.Genuine K sz) : GenuinePart K sz (readFirst sz E w x).2.1 ∧
      (readFirst sz E w x).2.2.front.Genuine K sz := by
  have hdev := @Query.dev_submit_of_read E (Query.read (E.junk x.front.disk.next))
    (chunkSub sz w.chunkId) x.front.disk rfl
  obtain ⟨hheld, hdone⟩ := @chunkRead_submit sz E x.front.disk w.chunkId
    (E.junk x.front.disk.next) K hx.below (hE _)
  have hrej : ((Query.read (E.junk x.front.disk.next)).submit E (chunkSub sz w.chunkId)
      x.front.disk).2.1.rej = 0 := (rej_of_accepts (hE _) rfl).2
  have hx' : Front.Genuine K sz { x.front with
      disk := ((Query.read (E.junk x.front.disk.next)).submit E (chunkSub sz w.chunkId)
        x.front.disk).2.2 } := genuine_congr hx hdev (fun _ => .inr rfl) (fun _ => id) rfl
  unfold readFirst
  dsimp only
  split
  · rename_i ho
    exact genuine_rmwDone ⟨hw.slice, .inl ho, hw.writing, hrej⟩ ho (hdone ho) hx'
  · rename_i ho
    exact ⟨⟨hw.slice, .inr ⟨hheld ho, hops⟩, hw.writing, hrej⟩, hx'⟩

theorem genuine_of_unstarted (h : Unstarted K sz w) : GenuinePart K sz w ∧ w.rmwq.ops = [] ∧
    w.wq.ops = [] := by
  obtain ⟨hw, hs⟩ := h
  rw [hw]
  exact ⟨⟨hs, .inl rfl, bearing_nil rfl, rfl⟩, rfl, rfl⟩

theorem genuine_process (hE : ∀ i, (E.beh false i).Accepts) (hw : Unstarted K sz w)
    (hx : x.front.Genuine K sz) : GenuinePart K sz (process sz E w x).2.1 ∧
      (process sz E w x).2.2.front.Genuine K sz := by
  obtain ⟨hw, hread, hwrite⟩ := genuine_of_unstarted hw
  unfold process
  split
  · rename_i hs
    have hput : (x.put w.chunkId w.src).front.Genuine K sz :=
      genuine_update hx (allowed_whole hw.slice hs)
    exact genuine_submitWrite hw.slice hread hw.accepted hput
  · have hfind : Front.Genuine K sz { x.front with
        cache := (x.front.cache.findMutable w.chunkId fun b =>
          overlay b w.chunkOffset w.size w.src).2 } := by
      refine ⟨hx.below, fun k d hk => ?_, hx.fills, hx.reads⟩
      dsimp only at hk
      rw [FlatLru.get_findMutable] at hk
      split at hk
      · rename_i he
        subst he
        obtain ⟨d, hd, rfl⟩ := Option.map_eq_some_iff.mp hk
        obtain ⟨b, rfl, hb⟩ := hx.cached _ d hd
        exact ⟨_, rfl, allowed_overlay hw.slice hb⟩
      · exact hx.cached k d hk
    dsimp only
    split
    · exact genuine_readFirst hE hw hwrite hfind
    · exact genuine_submitWrite hw.slice hread hw.accepted hfind

theorem genuine_react (hw : GenuinePart K sz w) (hx : x.front.Genuine K sz)
    (hr : react sz E a w x = some r) : GenuinePart K sz r.1 ∧ r.2.front.Genuine K sz := by
  cases a with
  | sample hit =>
    obtain ⟨v, hv, rfl⟩ := Option.map_eq_some_iff.mp hr
    obtain ho | ⟨hread, hops⟩ := hw.reading
    · rw [effect_nil ho] at hv
      cases hv
    · have hrej := (Query.effect_keeps hv).2.1
      exact ⟨⟨hw.slice, .inr ⟨chunkRead_sample hx.below hread hv, hops⟩, hw.writing,
        hrej.trans hw.accepted⟩, hx⟩
  | fill e =>
    obtain ⟨v, hv, rfl⟩ := Option.map_eq_some_iff.mp hr
    obtain ho | ⟨hread, hops⟩ := hw.reading
    · exact absurd ho (Query.settle_keeps hv).1
    · obtain ⟨ho, he, hb⟩ := chunkRead_settle hread hv
      have hrej := (Query.settle_keeps hv).2.2.1
      exact genuine_rmwDone (w := { w with rmwq := v })
        ⟨hw.slice, .inl ho, hw.writing, hrej.trans hw.accepted⟩ ho
        (fun h₀ => hb (he.symm.trans h₀)) hx
  | apply hit =>
    obtain ⟨v, hv, rfl⟩ := Option.map_eq_some_iff.mp hr
    have hmark := @genuine_mark sz (fun a => w.wq.ops.any (·.lands hit a)) x.front
      { x.front.disk with dev := v.2 } K hx (sourced_effect hx.below hw.writing hv)
    refine ⟨⟨hw.slice, hw.reading.imp_right fun ⟨_, hops⟩ => ?_, bearing_effect hw.writing hv,
      hw.accepted⟩, hmark⟩
    rw [effect_nil hops] at hv
    cases hv
  | complete e =>
    obtain ⟨v, hv, rfl⟩ := Option.map_eq_some_iff.mp hr
    refine ⟨⟨hw.slice, hw.reading.imp_right fun ⟨_, hops⟩ => ?_, bearing_settle hw.writing hv,
      hw.accepted⟩, hx⟩
    exact absurd hops (Query.settle_keeps hv).1

theorem genuine_aside (hsz : 0 < sz) (hE : ∀ i, (E.beh false i).Accepts)
    (hx : x.front.Genuine K sz) (ha : aside sz E b x q = some (x', q')) :
    x'.front.Genuine K sz := by
  cases b with
  | read rg buf =>
    cases ha
    exact genuine_read hsz hE hx
  | sample i hit =>
    obtain ⟨y, hy, he⟩ := Option.map_eq_some_iff.mp ha
    cases he
    exact genuine_sample hx hy
  | settle i e =>
    obtain ⟨y, hy, he⟩ := Option.map_eq_some_iff.mp ha
    cases he
    exact genuine_settle hx hy

theorem genuine_leave (hx : x.front.Genuine K sz) :
    ((machine sz E).leave w x).2.front.Genuine K sz := by
  dsimp only [machine]
  split
  · exact hx
  · refine genuine_congr hx rfl (fun k => ?_) (fun _ => id) rfl
    dsimp only [dropChunk]
    rw [FlatLru.get_invalidate]
    split
    · exact .inl rfl
    · exact .inr rfl

theorem unstarted_slices (hsz : 0 < sz) {rg : Range} {src : Nat → Byte}
    (hb : ∀ i < rg.len, K (rg.off + i) (src i)) (hw : v ∈ slices sz c rg src) :
    Unstarted K sz v.fresh := by
  refine ⟨rfl, mem_slices hsz hw, ?_⟩
  obtain ⟨p, hp, rfl⟩ := List.mem_map.mp hw
  obtain ⟨hoff, hlen, -, -⟩ := Blocks.mem_cut hsz hp
  intro i hi
  have hbyte := hb (p.pos + i) (Nat.lt_of_lt_of_le (Nat.add_lt_add_left hi _) hlen)
  rwa [show rg.off + (p.pos + i) = p.id * sz + p.inner + i by omega] at hbyte

theorem genuine_rule (hsz : 0 < sz) (hE : ∀ i, (E.beh false i).Accepts)
    (rs : List (Range × (Nat → Byte))) :
    Together (machine sz E) (fun r => r ∈ rs) (Inner.Genuine (Known dev₀ rs) sz)
      (Unstarted (Known dev₀ rs) sz) (GenuinePart (Known dev₀ rs) sz) where
  split r c x hr hx := by
    refine ⟨⟨hx.front, hx.accepted⟩, fun w hw => ?_⟩
    obtain ⟨v, hv, rfl⟩ := List.mem_map.mp hw
    exact unstarted_slices hsz (fun i hi => known_of_mem hr hi) hv
  park _ hw := hw
  start w x hw hx := by
    obtain ⟨hw', hx'⟩ := genuine_process hE hw hx.front
    refine ⟨hw', hx', ?_⟩
    rw [show ((machine sz E).start w x).2.2.done = x.done from rests_process.done]
    exact hx.accepted
  react a w x w' x' hw hx hr := by
    obtain ⟨hw', hx'⟩ := genuine_react hw hx.front hr
    refine ⟨hw', hx', ?_⟩
    rw [show x'.done = x.done from (rests_react hr).done]
    exact hx.accepted
  enter w x hw hx := by
    refine ⟨hx.front, fun v hv => ?_⟩
    obtain hv | hv := List.mem_append.mp hv
    · exact hx.accepted v hv
    · exact List.mem_singleton.mp hv ▸ hw.accepted
  leave w x hw hx := by
    refine ⟨genuine_leave hx.front, ?_⟩
    rw [(machine_tracing.leave w x).2]
    exact hx.accepted
  aside b x q x' q' hx ha := by
    refine ⟨genuine_aside hsz hE hx.front ha, ?_⟩
    rw [aside_rest ha]
    exact hx.accepted

theorem machine_recording : Recording (machine sz E) fun x => x.writes.map Prod.snd where
  split r c x := by simp [machine]
  start w x := congrArg _ rests_process.writes
  react _ _ _ _ _ h := congrArg _ (rests_react h).writes
  enter _ _ := rfl
  leave w x := by
    dsimp only [machine]
    split
    · rfl
    · rfl
  aside _ _ _ _ _ h := by
    rw [aside_rest h]

theorem joined_of_run {ok : State → Label → Prop} (hE : ∀ i, (E.beh false i).Accepts)
    (h : Lts.Run (machine sz E).step ok (.initial (.initial n sz hn hsz dev₀)) s) :
    Joined (Inner.Genuine (Known dev₀ (s.inner.writes.map Prod.snd)) sz)
      (Unstarted (Known dev₀ (s.inner.writes.map Prod.snd)) sz)
      (GenuinePart (Known dev₀ (s.inner.writes.map Prod.snd)) sz) s := by
  refine joined_recorded machine_recording (genuine_rule hsz hE) (fun rs => ?_) h
  refine ⟨⟨fun a => .inl rfl, fun k d hk => ?_, ?_, ?_⟩, ?_⟩
  · cases hk
  · simp [Inner.initial]
  · simp [Inner.initial]
  · simp [Inner.initial]

theorem guarded_of_run {ok : State → Label → Prop} (h : Lts.Run (machine sz E).step ok s t) :
    Lts.Run (machine sz E).step (Guarded (fun _ _ => True) fun _ _ => True) s t :=
  Lts.run_mono (fun s l _ => by cases l <;> simp [Guarded]) h

theorem grows_rule : KeptBoth (machine sz E) (fun _ _ => True) fun _ u => q.Grows u where
  grows _ _ _ h hg := grows_trans h hg
  split _ _ _ _ h := h
  start _ _ _ h := h
  react _ _ _ _ _ _ _ h := h
  enter _ _ _ h := h
  leave _ _ _ h := h
  aside _ _ _ _ _ _ ha h := grows_trans h (grows_aside ha)

/-- A request that has an error keeps one. -/
theorem err_of_run {ok : State → Label → Prop} (h : Lts.Run (machine sz E).step ok t u)
    (hc : c < t.reqs.count) (he : (t.reqs.req c).err ≠ 0) : (u.reqs.req c).err ≠ 0 := by
  have hrun : t.reqs.Grows u.reqs :=
    Lts.run_invariant (I := fun u => t.reqs.Grows u.reqs) (guarded_of_run h) grows_refl
      fun _ _ _ hg hok hs => keptBoth_step grows_rule hg hok hs
  exact hrun.2 c hc he

theorem done_rule : Kept (machine sz E) (fun _ _ => True) fun x => w ∈ x.done where
  split r c x h := by
    rw [(machine_tracing.split r c x).2]
    exact h
  start v x h := by
    rw [(machine_tracing.start v x).2.2]
    exact h
  react a v x v' x' hr h := by
    rw [(machine_tracing.react a v x v' x' hr).2.2]
    exact h
  enter v x h := by
    rw [(machine_tracing.enter v x).2]
    exact List.mem_append_left _ h
  leave v x h := by
    rw [(machine_tracing.leave v x).2]
    exact h
  aside b x q x' q' _ ha h := by
    rw [(machine_tracing.aside b x q x' q' ha).2]
    exact h

/-- What becomes of chunks that cannot be read, wanted by reads or by parts of writes. What is
cached and what reads returned was below at the start or came from a client. A chunk that fails,
later or at once, leaves the cache and the handler below alone, and a part that wanted it ends. The
client, whose completer has not run before, is told. -/
structure KeptOut (sz : Nat) (E : Env) (dev₀ : Addr → Byte) (s : State) : Prop where
  shown : s.inner.front.Shown (Known dev₀ (s.inner.writes.map Prod.snd)) sz
  later : ∀ i e f t, e ≠ 0 → s.inner.front.fills[i]? = some f →
    (machine sz E).step s (.aside (.settle i e)) = some t →
      t.inner.front.cache = s.inner.front.cache ∧ t.inner.front.disk = s.inner.front.disk ∧
      (s.reqs.req f.cid).runs = 0 ∧
      ∀ u, Lts.Run (machine sz E).step (fun _ _ => True) t u → Informed u.reqs f.cid
  atOnce : ∀ r buf t, (machine sz E).step s (.aside (.read r buf)) = some t →
    Brought sz s.inner.front t.inner.front ∧ ∀ m, s.inner.front.disk.next ≤ m →
      m < t.inner.front.disk.next → ¬ (E.beh false m).Succeeds →
      ∀ u, Lts.Run (machine sz E).step (fun _ _ => True) t u → Informed u.reqs s.reqs.count
  part : ∀ i e w t, e ≠ 0 → s.active[i]? = some w →
    (machine sz E).step s (.act i (.fill e)) = some t →
      t.inner.front.cache = s.inner.front.cache ∧ t.inner.front.disk = s.inner.front.disk ∧
      ∃ w' ∈ t.inner.done, w'.toSlice = w.toSlice ∧ ¬ w'.rmwq.Clean
  partAtOnce : ∀ w ∈ s.pending ++ making s.issue, ¬ (process sz E w s.inner).2.1.rmwq.Clean →
    (∀ k, (process sz E w s.inner).2.2.front.cache.get k = s.inner.front.cache.get k) ∧
      (process sz E w s.inner).2.2.front.disk =
        ⟨s.inner.front.disk.dev, s.inner.front.disk.next + 1⟩ ∧
      (process sz E w s.inner).2.1.busy = false
  told : ∀ w ∈ s.inner.done, ¬ w.rmwq.Clean →
    ∀ u, Lts.Run (machine sz E).step (fun _ _ => True) s u →
      (u.reqs.req w.cid).runs ≠ 0 → Informed u.reqs w.cid

theorem failed_fill {e : Int} (hw : GenuinePart K sz w) (he : e ≠ 0)
    (hr : react sz E (.fill e) w x = some r) :
    r.2 = x ∧ r.1.toSlice = w.toSlice ∧ r.1.busy = false ∧ ¬ r.1.rmwq.Clean := by
  obtain ⟨v, hv, rfl⟩ := Option.map_eq_some_iff.mp hr
  obtain ⟨hheld, -, -, -, hbad⟩ := Query.settle_keeps hv
  obtain ⟨hread, hops⟩ := hw.reading.resolve_left hheld
  obtain ⟨ho, herr, -⟩ := chunkRead_settle hread hv
  unfold rmwDone
  rw [if_neg (by rw [herr]; exact he)]
  refine ⟨rfl, rfl, by simp [ChunkWrite.busy, ho, hops], fun hc => ?_⟩
  exact he (hbad.mp hc.2).1

theorem rmwq_rmwDone : (rmwDone sz E w x).1.rmwq = w.rmwq := by
  unfold rmwDone
  split
  · rfl
  · rfl

/-- The read of a chunk fails at once. -/
theorem failed_readFirst (hE : ∀ i, (E.beh false i).Accepts) (hw : w.wq.ops = [])
    (hbad : ¬ (readFirst sz E w x).2.1.rmwq.Clean) :
    (readFirst sz E w x).2.2.front.cache = x.front.cache ∧
      (readFirst sz E w x).2.2.front.disk = ⟨x.front.disk.dev, x.front.disk.next + 1⟩ ∧
      (readFirst sz E w x).2.1.busy = false := by
  by_cases hs : (E.beh false x.front.disk.next).Succeeds
  · refine absurd ?_ hbad
    have hclean := (Query.clean_submit (q := Query.read (E.junk x.front.disk.next))
      (s := chunkSub sz w.chunkId) hs ⟨rfl, rfl⟩).2
    unfold readFirst
    dsimp only
    split
    · rw [rmwq_rmwDone]
      exact hclean
    · exact hclean
  · obtain ⟨e, hit, hb, he⟩ := done_of_accepts (hE _) hs
    obtain ⟨ho, herr⟩ := @failed_submit E hit x.front.disk e (E.junk x.front.disk.next)
      (chunkSub sz w.chunkId) hb he
    have hdev := @Query.dev_submit_of_read E (Query.read (E.junk x.front.disk.next))
      (chunkSub sz w.chunkId) x.front.disk rfl
    unfold readFirst
    dsimp only
    rw [if_pos ho]
    unfold rmwDone
    rw [if_neg herr]
    refine ⟨rfl, ?_, by simp [ChunkWrite.busy, ho, hw]⟩
    rw [← hdev, ← Query.next_submit (E := E) (q := Query.read (E.junk x.front.disk.next))
      (s := chunkSub sz w.chunkId)]

theorem failed_process (hE : ∀ i, (E.beh false i).Accepts) (hw : Unstarted K sz w)
    (hbad : ¬ (process sz E w x).2.1.rmwq.Clean) :
    (∀ k, (process sz E w x).2.2.front.cache.get k = x.front.cache.get k) ∧
      (process sz E w x).2.2.front.disk = ⟨x.front.disk.dev, x.front.disk.next + 1⟩ ∧
      (process sz E w x).2.1.busy = false := by
  have hclean : w.rmwq.Clean := by
    rw [hw.1]
    exact ⟨rfl, rfl⟩
  have hops := (genuine_of_unstarted hw).2.2
  unfold process at hbad ⊢
  split at hbad
  · exact absurd hclean hbad
  · rename_i hs
    rw [if_neg hs]
    dsimp only at hbad ⊢
    split at hbad
    · rename_i hz
      rw [if_pos hz]
      obtain ⟨hcache, hdisk, hbusy⟩ := failed_readFirst hE hops hbad
      refine ⟨fun k => ?_, hdisk, hbusy⟩
      rw [hcache]
      dsimp only
      rw [FlatLru.get_findMutable]
      split
      · rename_i hk
        rw [hk, size_findMutable.mp hz]
        rfl
      · rfl
    · exact absurd hclean hbad

theorem told_of_run {ok : State → Label → Prop}
    (h : Lts.Run (machine sz E).step ok (.initial (.initial n sz hn hsz dev₀)) s)
    (hrej : ∀ w ∈ s.inner.done, w.rmwq.rej = 0) (hw : w ∈ s.inner.done) (hbad : ¬ w.rmwq.Clean)
    (hu : Lts.Run (machine sz E).step ok s u) (hr : (u.reqs.req w.cid).runs ≠ 0) :
    Informed u.reqs w.cid := by
  have hdone : w ∈ u.inner.done :=
    Lts.run_invariant (I := fun u => w ∈ u.inner.done) (guarded_of_run hu) hw
      fun _ _ _ hd hok hs => kept_step done_rule hd hok hs
  refine .inl (failure_told (Lts.run_trans h hu) hdone (.inl ?_) hr)
  by_contra hb
  exact hbad ⟨hrej w hw, by simpa using hb⟩

theorem keptOut_of_run (hE : ∀ i, (E.beh false i).Accepts)
    (h : Lts.Run (machine sz E).step (fun _ _ => True) (.initial (.initial n sz hn hsz dev₀)) s) :
    KeptOut sz E dev₀ s := by
  have hjoined := joined_of_run hE h
  refine ⟨shown_of_genuine hjoined.inner.front, fun i e f t he hf hs => ?_,
    fun r buf t hs => ?_, fun i e w t he hw hs => ?_, fun w hw hbad => ?_,
    fun w hw hbad u hu hr => told_of_run h hjoined.inner.accepted hw hbad hu hr⟩
  · have hlive := dead_of_step hs
    cases Machine.step_sound hs with
    | aside hq hr =>
      obtain ⟨z, hz, heq⟩ := Option.map_eq_some_iff.mp hr
      cases heq
      obtain ⟨hcache, hdisk, herr⟩ := failed_settle hf hz he
      have hpos : 0 < fillsOf f.cid s.inner.front :=
        List.count_pos_iff.mpr (List.mem_map_of_mem (List.mem_of_getElem? hf))
      obtain ⟨hlt, hruns⟩ := open_of_shares (counted_run machine_sharing (fun _ => rfl) h hlive)
        (c := f.cid) (Nat.lt_of_lt_of_le hpos (Nat.le_add_left _ _))
      refine ⟨hcache, hdisk, hruns, fun u hu => ?_⟩
      exact .inl (err_of_run hu (Nat.lt_of_lt_of_le hlt (grows_settle hz).1) herr)
  · cases Machine.step_sound hs with
    | aside hq hr =>
      cases hr
      refine ⟨brought_read hE, fun m hm hlt hbad u hu => ?_⟩
      obtain ⟨e, hit, hb, he⟩ := done_of_accepts (hE m) hbad
      exact .inl (err_of_run hu count_read (err_read hE hm hlt hb he))
  · cases Machine.step_sound hs with
    | @act _ _ j j' inner hq hj hr =>
      cases hw.symm.trans hj
      obtain ⟨rfl, hslice, hbusy, hbad⟩ :=
        failed_fill (hjoined.active _ (List.mem_of_getElem? hj)) he hr
      have hbusy : (machine sz E).busy j' = false := hbusy
      unfold Machine.place
      rw [hbusy]
      exact ⟨rfl, rfl, j', List.mem_append_right _ (.head _), hslice, hbad⟩
  · have hwait : Unstarted (Known dev₀ (s.inner.writes.map Prod.snd)) sz w := by
      obtain hw | hw := List.mem_append.mp hw
      · exact hjoined.pending w hw
      · exact hjoined.making w hw
    exact failed_process hE hwait hbad

end Rwt

/-- As long as no read of a chunk is turned down, under either handler: chunks that cannot be read
are kept out of the cache. They may fail with any error, and writes may be turned down. -/
theorem failed_reads_kept_out (hE : ∀ i, (E.beh false i).Accepts) :
    (∀ s, Rwi.Reached E n sz hn hsz dev₀ s → s.KeptOut sz E dev₀) ∧
    ∀ s, Lts.Run (Rwt.machine sz E).step (fun _ _ => True)
      (.initial (.initial n sz hn hsz dev₀)) s → Rwt.KeptOut sz E dev₀ s :=
  ⟨fun _ h => Rwi.keptOut_of_reached hE h, fun _ h => Rwt.keptOut_of_run hE h⟩

/-- The item is read, and its read fails. -/
theorem failed_reads_kept_out_item : ∃ s t : Rwi,
    Lts.exec (Rwi.step 1024 keeping) (.initial 1 1024 Nat.one_pos Rwt.item_pos fun _ => 0)
      [.read Rwt.item fun _ => 0] = some s ∧
    s.step 1024 keeping (.settle 0 5) = some t ∧ t.front.cache = s.front.cache ∧
    Informed t.reqs 0 := by
  obtain ⟨s, f, t, hs, hf, hc, ht⟩ : ∃ s f t, Lts.exec (Rwi.step 1024 keeping)
      (.initial 1 1024 Nat.one_pos Rwt.item_pos fun _ => 0) [.read Rwt.item fun _ => 0] = some s ∧
      s.front.fills[0]? = some f ∧ f.cid = 0 ∧ s.step 1024 keeping (.settle 0 5) = some t :=
    ⟨_, _, _, rfl, rfl, rfl, rfl⟩
  have hkept := (failed_reads_kept_out (E := keeping) (fun _ => trivial)).1 s
    (Lts.run_of_exec (fun _ _ _ => trivial) hs)
  obtain ⟨hcache, -, -, htold⟩ := hkept.later 0 5 f t (by decide) hf ht
  exact ⟨s, t, hs, ht, hcache, hc ▸ htold t .refl⟩

/-- Each read is turned down, each write is kept. Fresh buffers are full of nines. -/
def barring : Env where
  beh b _ := if b then .held else .refused
  junk _ _ := ⟨9⟩

theorem nine_unknown : ¬ Known (fun _ => 0) [] 0 ⟨9⟩ := by
  rintro (h | ⟨w, hw, -⟩)
  · exact absurd h (by decide)
  · cases hw

/-- The read of an item is turned down. The completer finds no error, and the item is cached as the
fresh buffer was. -/
theorem not_failed_reads_kept_out :
    (¬ ∀ (n sz : Nat) (hn : 0 < n) (hsz : 0 < sz) (E : Env) (dev₀ : Addr → Byte) (s : Rwi),
      Rwi.Reached E n sz hn hsz dev₀ s → s.KeptOut sz E dev₀) ∧
    ¬ ∀ (n sz : Nat) (hn : 0 < n) (hsz : 0 < sz) (E : Env) (dev₀ : Addr → Byte) (s : Rwt.State),
      Lts.Run (Rwt.machine sz E).step (fun _ _ => True) (.initial (.initial n sz hn hsz dev₀)) s →
        Rwt.KeptOut sz E dev₀ s := by
  constructor
  · intro hall
    obtain ⟨s, hs, hw, b, hb, hnine⟩ : ∃ s : Rwi, Lts.exec (Rwi.step 1024 barring)
        (.initial 1 1024 Nat.one_pos Rwt.item_pos fun _ => 0) [.read Rwt.item fun _ => 0] =
        some s ∧ s.written = [] ∧ ∃ b, s.front.cache.get 0 = some (some b) ∧ b 0 = ⟨9⟩ :=
      ⟨_, rfl, rfl, _, rfl, rfl⟩
    have hrun := Lts.run_of_exec (fun _ _ _ => trivial) hs
    obtain ⟨b', hb', hallowed⟩ := (hall _ _ _ _ _ _ s hrun).shown.cached 0 _ hb
    cases hb'
    have hknown := hallowed 0 Rwt.item_pos
    rw [hw, hnine] at hknown
    exact nine_unknown hknown
  · intro hall
    obtain ⟨s, hs, hw, b, hb, hnine⟩ : ∃ s, Rwt.afterSteps barring
        [.aside (.read Rwt.item fun _ => 0)] = some s ∧ s.inner.writes = [] ∧
        ∃ b, s.inner.front.cache.get 0 = some (some b) ∧ b 0 = ⟨9⟩ :=
      ⟨_, rfl, rfl, _, rfl, rfl⟩
    have hrun := Lts.run_of_exec (fun _ _ _ => trivial) hs
    obtain ⟨b', hb', hallowed⟩ := (hall _ _ _ _ _ _ s hrun).shown.cached 0 _ hb
    cases hb'
    have hknown := hallowed 0 Rwt.item_pos
    rw [hw, hnine] at hknown
    exact nine_unknown hknown

end Ublk.Cache
