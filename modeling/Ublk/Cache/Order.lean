import Ublk.Cache.Coherence
import Ublk.Lib.SerialOrder
import Ublk.Patch

/-!
The parts of writes by chunk when what is handed on for them does not fail. The handler below has an
unlocked chunk as the parts that ended left it, whatever reads bring into the cache.
-/
namespace Ublk.Cache.Rwt

open Shared Serial

variable {sz n : Nat} {E : Env} {dev₀ : Addr → Byte} {w w' : ChunkWrite} {x x' : Inner}
  {k i j : Nat} {e : Int} {a : Act} {s t : State} {l : Label} {r : ChunkWrite × Inner}
  {f : Nat → Byte}

/-- What completes for a part completes without an error. -/
def Act.Succeeds : Act → Prop
  | .fill e => e = 0
  | .complete e => e = 0
  | _ => True

/-- The handler below has chunk `k` as the parts that ended left it. -/
def Laid (sz : Nat) (dev₀ : Addr → Byte) (k : Nat) (x : Inner) : Prop :=
  ∀ j < sz, chunkAt sz x.front.disk.dev k j = laid sz dev₀ k x.done j

/-- A part is having its chunk read. -/
structure Fetching (sz : Nat) (dev₀ : Addr → Byte) (w : ChunkWrite) (x : Inner) : Prop where
  fits : Fits sz w.toSlice
  fresh : w.wq = .writing w.src
  shape : ∃ took, w.rmwq.ops = [⟨chunkSub sz w.chunkId, took⟩]
  read : w.rmwq.write = false ∧ w.rmwq.Clean ∧ w.rmwq.Honest
  laid : Laid sz dev₀ w.chunkId x

/-- A part was handed on. -/
structure Bringing (sz : Nat) (dev₀ : Addr → Byte) (w : ChunkWrite) (x : Inner) : Prop where
  fits : Fits sz w.toSlice
  read : w.rmwq.ops = []
  write : w.wq.write = true ∧ w.wq.buf = w.src ∧ w.wq.Clean
  follows : w.wq.Follows (writeLoc sz w.toSlice) w.size (fun _ => True) x.front.disk.dev
  laid : ∀ j < sz, ¬ InPart w.toSlice j →
    chunkAt sz x.front.disk.dev w.chunkId j = laid sz dev₀ w.chunkId x.done j

/-- Ownership of a chunk of the handler below. -/
def below (sz : Nat) (dev₀ : Addr → Byte) : Guard ChunkWrite Inner where
  free k x := Laid sz dev₀ k x
  held w x := Fetching sz dev₀ w x ∨ Bringing sz dev₀ w x
  fit w := w = w.toSlice.fresh ∧ Fits sz w.toSlice
  ended _ := True

theorem laid_of_bringing (h : Bringing sz dev₀ w x) (ho : w.wq.ops = []) :
    Laid sz dev₀ w.chunkId ((machine sz E).enter w x).2 := by
  intro j hj
  change chunkAt sz x.front.disk.dev _ _ = Rwt.laid sz dev₀ _ (x.done ++ [w]) _
  rw [laid_append]
  by_cases hin : InPart w.toSlice j
  · obtain ⟨m, rfl⟩ := Nat.le.dest hin.1
    have hm : m < w.size := by have := hin.2; omega
    rw [if_pos hin, Nat.add_sub_cancel_left, ← h.write.2.1,
      Query.agrees_of_ended h.follows h.write.2.2 ho hm trivial, chunkAt, writeLoc, Nat.add_assoc]
  · rw [if_neg hin]
    exact h.laid j hj hin

theorem placed_of_bringing (h : Bringing sz dev₀ w x) :
    (below sz dev₀).Placed (machine sz E) w x :=
  ⟨fun _ => .inr h, fun hb => ⟨trivial, laid_of_bringing h (not_busy.mp hb).2⟩⟩

theorem fetching_sample (h : Fetching sz dev₀ w x) {hit : Nat → Bool} {q : Query × (Addr → Byte)}
    (hq : w.rmwq.effect 0 hit x.front.disk.dev = some q) :
    Fetching sz dev₀ { w with rmwq := q.1 } x := by
  obtain ⟨q, d⟩ := q
  obtain ⟨took, hops⟩ := h.shape
  obtain ⟨hwrite, hrej, herr, hbad, -⟩ := Query.effect_keeps hq
  obtain ⟨op, hop, rfl, -⟩ := Query.effect_eq hq
  rw [hops] at hop
  cases hop
  refine ⟨h.fits, h.fresh, ⟨_, by simp only [hops]; rfl⟩, ?_, h.laid⟩
  exact ⟨hwrite.trans h.read.1, ⟨hrej.trans h.read.2.1.1, hbad.trans h.read.2.1.2⟩,
    Query.honest_of_eq herr hbad h.read.2.2⟩

theorem bringing_apply (h : Bringing sz dev₀ w x) {hit : Nat → Bool} {q : Query × (Addr → Byte)}
    (hq : w.wq.effect 0 hit x.front.disk.dev = some q) :
    Bringing sz dev₀ { w with wq := q.1 } ((x.reach sz { x.front.disk with dev := q.2 }
      fun a => w.wq.ops.any (·.lands hit a)).owe sz { w with wq := q.1 }) := by
  obtain ⟨q, d⟩ := q
  obtain ⟨hwrite, hrej, -, hbad, -, hbuf⟩ := Query.effect_keeps hq
  refine ⟨h.fits, h.read, ?_, Query.follows_effect h.follows injOn_writeLoc hq, fun j hj hn => ?_⟩
  · exact ⟨hwrite.trans h.write.1, (hbuf h.write.1).trans h.write.2.1,
      hrej.trans h.write.2.2.1, hbad.trans h.write.2.2.2⟩
  · have hdev := Query.effect_elsewhere h.follows hq
      fun p hp => writeLoc_ne (fun hc => hn (covers_iff.mp hc)) hp
    exact hdev.trans (h.laid j hj hn)

theorem bringing_complete (he : e = 0) (h : Bringing sz dev₀ w x) {q : Query}
    (hq : w.wq.settle 0 e = some q) :
    Bringing sz dev₀ { w with wq := q } (x.owe sz { w with wq := q }) := by
  obtain ⟨-, hwrite, hrej, hbuf, hbad⟩ := Query.settle_keeps hq
  refine ⟨h.fits, h.read, ?_, Query.follows_settle h.follows hq, h.laid⟩
  exact ⟨hwrite.trans h.write.1, hbuf.trans h.write.2.1, hrej.trans h.write.2.2.1,
    hbad.mpr ⟨he, h.write.2.2.2⟩⟩

section Started

variable (hE : ∀ c i, (E.beh c i).Succeeds)

include hE

theorem bringing_submit (hw : Fits sz w.toSlice) (ho : w.rmwq.ops = [])
    (h : Laid sz dev₀ w.chunkId x) :
    Bringing sz dev₀ (submitWrite sz E w x).2.1 (submitWrite sz E w x).2.2 := by
  have hclean : ((Query.writing w.src).submit E (w.sub sz) x.front.disk).2.1.Clean :=
    (Query.clean_submit (hE _ _) ⟨rfl, rfl⟩).2
  refine ⟨hw, ho, ⟨Query.write_submit, Query.buf_submit_of_write rfl, hclean⟩, ?_, ?_⟩
  · refine Query.follows_submit (Query.follows_writing w.src) fits_sub injOn_writeLoc ?_
    intro _ p hp _
    have hp : p < w.size := hp
    exact .inr ⟨Nat.zero_le p, by simpa [Slice.sub] using hp⟩
  · intro j hj hn
    exact (dev_submitWrite fun hc => hn (covers_iff.mp hc)).trans (h j hj)

theorem placed_handOn (hw : Fits sz w.toSlice) (ho : w.rmwq.ops = []) (he : w.rmwq.err = 0)
    (h : Laid sz dev₀ w.chunkId x) :
    (below sz dev₀).Placed (machine sz E) (rmwDone sz E w x).1 (rmwDone sz E w x).2 := by
  rw [rmwDone, if_pos he]
  exact placed_of_bringing (bringing_submit hE hw ho h)

theorem placed_fetch (hw : Fits sz w.toSlice) (hq : w.wq = .writing w.src)
    (h : Laid sz dev₀ w.chunkId x) :
    (below sz dev₀).Placed (machine sz E) (readFirst sz E w x).2.1 (readFirst sz E w x).2.2 := by
  have hdev := @Query.dev_submit_of_read E (Query.read (E.junk x.front.disk.next))
    (chunkSub sz w.chunkId) x.front.disk rfl
  have hclean := (Query.clean_submit (s := chunkSub sz w.chunkId) (d := x.front.disk)
    (q := Query.read (E.junk x.front.disk.next)) (hE _ _) ⟨rfl, rfl⟩).2
  have hhonest := Query.honest_submit (E := E) (s := chunkSub sz w.chunkId) (d := x.front.disk)
    (Query.honest_read (E.junk x.front.disk.next))
  have hlaid : ∀ y : Inner, y.front.disk.dev = x.front.disk.dev → y.done = x.done →
      Laid sz dev₀ w.chunkId y := by
    intro y hy hd j hj
    rw [hy, hd]
    exact h j hj
  unfold readFirst
  dsimp only
  split
  · rename_i ho
    exact placed_handOn hE hw ho (hhonest.mpr hclean.2) (hlaid _ hdev rfl)
  · rename_i ho
    refine ⟨fun _ => .inl ⟨hw, hq, ?_, ⟨Query.write_submit, hclean, hhonest⟩, hlaid _ hdev rfl⟩,
      fun hb => absurd (not_busy.mp hb).1 ho⟩
    rw [held_submit rfl ho]
    exact ⟨_, rfl⟩

/-- A part that is started brings its bytes to the handler below, if need be after a read. -/
theorem placed_start (hw : w = w.toSlice.fresh) (hfits : Fits sz w.toSlice)
    (h : Laid sz dev₀ w.chunkId x) :
    (below sz dev₀).Placed (machine sz E) (process sz E w x).2.1 (process sz E w x).2.2 := by
  have ho : w.rmwq.ops = [] := by
    rw [hw]
    rfl
  have hq : w.wq = .writing w.src := by
    rw [hw]
    rfl
  unfold process
  split
  · exact placed_of_bringing (bringing_submit hE hfits ho h)
  · dsimp only
    split
    · exact placed_fetch hE hfits hq h
    · exact placed_of_bringing (bringing_submit hE hfits ho h)

theorem placed_act (ha : a.Succeeds) (h : (below sz dev₀).held w x)
    (hr : react sz E a w x = some (w', x')) : (below sz dev₀).Placed (machine sz E) w' x' := by
  cases a with
  | sample hit =>
    obtain ⟨q, hq, he⟩ := Option.map_eq_some_iff.mp hr
    cases he
    rcases h with h | h
    · have hf := fetching_sample h hq
      refine ⟨fun _ => .inl hf, fun hb => ?_⟩
      obtain ⟨took, hops⟩ := hf.shape
      have := (not_busy.mp hb).1
      rw [hops] at this
      cases this
    · rw [effect_nil h.read] at hq
      cases hq
  | fill e =>
    obtain ⟨q, hq, he⟩ := Option.map_eq_some_iff.mp hr
    rcases h with h | h
    · obtain ⟨took, hops⟩ := h.shape
      have hbad := (Query.settle_keeps hq).2.2.2.2.mpr ⟨ha, h.read.2.1.2⟩
      have herr := (Query.honest_settle h.read.2.2 hq).mpr hbad
      have ho : q.ops = [] := by
        obtain ⟨op, -, -, rfl⟩ := Query.settle_eq hq
        simp [hops]
      have hp := placed_handOn hE (w := { w with rmwq := q }) h.fits ho herr h.laid
      rwa [he] at hp
    · rw [settle_nil h.read] at hq
      cases hq
  | apply hit =>
    obtain ⟨q, hq, he⟩ := Option.map_eq_some_iff.mp hr
    cases he
    rcases h with h | h
    · rw [h.fresh, effect_nil rfl] at hq
      cases hq
    · exact placed_of_bringing (bringing_apply h hq)
  | complete e =>
    obtain ⟨q, hq, he⟩ := Option.map_eq_some_iff.mp hr
    cases he
    rcases h with h | h
    · rw [h.fresh, settle_nil rfl] at hq
      cases hq
    · exact placed_of_bringing (bringing_complete ha h hq)

end Started

/-- Nothing reaches chunk `k` of the handler below. -/
structure Passed (sz : Nat) (dev₀ : Addr → Byte) (k : Nat) (x x' : Inner) : Prop where
  dev : ∀ j < sz, chunkAt sz x'.front.disk.dev k j = chunkAt sz x.front.disk.dev k j
  laid : ∀ j < sz, laid sz dev₀ k x'.done j = laid sz dev₀ k x.done j

theorem laid_of_passed (h : Passed sz dev₀ k x x') (hx : Laid sz dev₀ k x) : Laid sz dev₀ k x' :=
  fun j hj => (h.dev j hj).trans ((hx j hj).trans (h.laid j hj).symm)

theorem keeps_of_passed (h : Passed sz dev₀ k x x') :
    (below sz dev₀).Keeps (machine sz E) k x x' := by
  refine ⟨laid_of_passed h, fun w hw hx => ?_⟩
  have hw : w.chunkId = k := hw
  subst hw
  rcases hx with hx | hx
  · exact .inl ⟨hx.fits, hx.fresh, hx.shape, hx.read, laid_of_passed h hx.laid⟩
  · refine .inr ⟨hx.fits, hx.read, hx.write, Query.follows_elsewhere hx.follows fun p hp => ?_,
      fun j hj hn => (h.dev j hj).trans ((hx.laid j hj hn).trans (h.laid j hj).symm)⟩
    have hin := hx.fits.inside
    have hj := h.dev (w.chunkOffset + p) (by omega)
    rwa [chunkAt, chunkAt, ← Nat.add_assoc] at hj

/-- The bytes that a part reaches are its own. -/
theorem dev_react (h : (below sz dev₀).held w x) (hr : react sz E a w x = some r)
    (hi : ¬ w.Covers sz i) : r.2.front.disk.dev (0, i) = x.front.disk.dev (0, i) := by
  cases a with
  | sample hit =>
    obtain ⟨q, -, rfl⟩ := Option.map_eq_some_iff.mp hr
    rfl
  | fill e =>
    obtain ⟨q, -, rfl⟩ := Option.map_eq_some_iff.mp hr
    exact apart_rmwDone.dev i hi
  | apply hit =>
    obtain ⟨q, hq, rfl⟩ := Option.map_eq_some_iff.mp hr
    rcases h with h | h
    · rw [h.fresh, effect_nil rfl] at hq
      cases hq
    · exact Query.effect_elsewhere h.follows hq fun _ hp => writeLoc_ne hi hp
  | complete e =>
    obtain ⟨q, -, rfl⟩ := Option.map_eq_some_iff.mp hr
    rfl

theorem fits_of_below (h : (below sz dev₀).held w x) : Fits sz w.toSlice := by
  rcases h with h | h
  · exact h.fits
  · exact h.fits

theorem passed_of_rests (h : Rests w x r)
    (hd : ∀ j < sz, chunkAt sz r.2.front.disk.dev k j = chunkAt sz x.front.disk.dev k j) :
    Passed sz dev₀ k x r.2 :=
  ⟨hd, fun j _ => by rw [h.done]⟩

theorem dev_readLoop {cov : Nat → Bool} {rd cid : Nat} {ps : List Blocks.Piece} {y : Front}
    {q : Requests} : (y.readLoop sz E cov rd cid ps q).2.1.disk.dev = y.disk.dev := by
  induction ps generalizing y q with
  | nil => rfl
  | cons p ps ih =>
    unfold Front.readLoop
    dsimp only
    split
    · split
      · exact ih.trans dev_readChunk
      · exact dev_readChunk
    · exact ih

/-- Reads do not write. -/
theorem passed_aside {b : Beside} {q q' : Requests} (h : aside sz E b x q = some (x', q')) :
    Passed sz dev₀ k x x' := by
  have hdev : x'.front.disk.dev = x.front.disk.dev := by
    cases b with
    | read rg buf =>
      cases h
      exact dev_readLoop
    | sample i hit =>
      obtain ⟨y, hy, he⟩ := Option.map_eq_some_iff.mp h
      cases he
      obtain ⟨f, q, -, -, rfl⟩ := sample_cases hy
      rfl
    | settle i e =>
      obtain ⟨⟨y, u⟩, hy, he⟩ := Option.map_eq_some_iff.mp h
      cases he
      obtain ⟨f, -, hy⟩ := Option.bind_eq_some_iff.mp hy
      obtain ⟨q, -, hy⟩ := Option.map_eq_some_iff.mp hy
      exact congrArg Disk.dev (congrArg (fun r => r.1.disk) hy.symm |>.trans disk_filled)
  refine ⟨fun j _ => congrFun hdev _, fun j _ => ?_⟩
  rw [aside_rest h]

theorem below_sound (hsz : 0 < sz) (hE : ∀ c i, (E.beh c i).Succeeds) :
    (below sz dev₀).Sound (machine sz E) (fun a _ => a.Succeeds) fun _ _ => True where
  start w x hw hx := placed_start hE hw.1 hw.2 hx
  react a w x w' x' ha hw hr := placed_act hE ha hw hr
  start_other w x k hw hk := keeps_of_passed <|
    passed_of_rests rests_process fun _ hj => apart_process.dev _ (not_covers hw.2 hk hj)
  react_other a w x w' x' k _ hw hr hk := keeps_of_passed <|
    passed_of_rests (rests_react hr) fun _ hj =>
      dev_react hw hr (not_covers (fits_of_below hw) hk hj)
  enter_other w x k hk := keeps_of_passed ⟨fun _ _ => rfl, fun j _ => congrFun (laid_append_of_ne hk) j⟩
  leave w x k _ := by
    apply keeps_of_passed
    dsimp only [machine]
    split
    · exact ⟨fun _ _ => rfl, fun _ _ => rfl⟩
    · exact ⟨fun _ _ => rfl, fun _ _ => rfl⟩
  split r c x k := keeps_of_passed ⟨fun _ _ => rfl, fun _ _ => rfl⟩
  split_fit r c x w hw := by
    obtain ⟨v, hv, rfl⟩ := List.mem_map.mp hw
    exact ⟨rfl, mem_slices hsz hv⟩
  park_fit _ hw := hw
  aside _ _ _ _ _ _ _ ha := keeps_of_passed (passed_aside ha)

/-- Nothing fails that is done for a part. -/
def Succeeding : State → Label → Prop := Guarded (fun a _ => a.Succeeds) fun _ _ => True

theorem below_run {hn : 0 < n} {hsz : 0 < sz} (hE : ∀ c i, (E.beh c i).Succeeds)
    (h : Lts.Run (machine sz E).step Succeeding (.initial (.initial n sz hn hsz dev₀)) s) :
    Ordered (machine sz E) s ∧ Owned (below sz dev₀) (machine sz E) s := by
  have hacc : ∀ c i, (E.beh c i).Accepts := fun c i => accepts_of_succeeds (hE c i)
  have hlaid : ∀ k, Laid sz dev₀ k (.initial n sz hn hsz dev₀) := fun _ _ _ => rfl
  refine Lts.run_invariant (I := fun s => Ordered (machine sz E) s ∧
    Owned (below sz dev₀) (machine sz E) s) h ⟨ordered_initial _, ?_⟩ ?_
  · constructor <;> simp [Serial.State.initial, below, hlaid]
  · rintro a l b ⟨ho, hw⟩ hok hs
    have hr : Restarts (machine sz E) a l := restarts_of_accepts hacc
    exact ⟨ordered_step machine_fixed ho hr hs,
      owned_step machine_fixed (below_sound hsz hE) ho hw hr hok hs⟩

/-- The parts of chunk `k` in the order in which they were made. -/
def Inner.received (sz : Nat) (x : Inner) (k : Nat) : List Slice :=
  (x.made sz).filter fun v => v.chunkId == k

/-- Parts of chunk `k` come in turn. -/
structure Sequential (sz : Nat) (dev₀ : Addr → Byte) (k : Nat) (s : State) : Prop where
  one : (s.active.filter fun w => w.chunkId == k).length ≤ 1
  order : s.inner.received sz k =
    ((s.inner.done ++ s.active ++ (s.pending ++ making s.issue)).map fun w => w.toSlice).filter
      fun v => v.chunkId == k
  last : ¬ s.locks.Locked k → (∀ w ∈ making s.issue, w.chunkId ≠ k) → ∀ as v bs,
    s.inner.received sz k = as ++ v :: bs → ∀ j < sz, InPart v j → (∀ u ∈ bs, ¬ InPart u j) →
      chunkAt sz s.inner.front.disk.dev k j = v.src (j - v.chunkOffset)
  kept : ¬ s.locks.Locked k → (∀ w ∈ making s.issue, w.chunkId ≠ k) → ∀ j < sz,
    (∀ v ∈ s.inner.received sz k, ¬ InPart v j) →
      chunkAt sz s.inner.front.disk.dev k j = chunkAt sz dev₀ k j

theorem laid_eq {ws : List ChunkWrite} : laid sz dev₀ k ws =
    overlays Slice.chunkOffset Slice.size Slice.src (chunkAt sz dev₀ k)
      ((ws.map fun w => w.toSlice).filter fun v => v.chunkId == k) := by
  rw [overlays, List.foldl_filter, List.foldl_map, laid]
  simp only [beq_iff_eq]

theorem sequential_run {hn : 0 < n} {hsz : 0 < sz} (hE : ∀ c i, (E.beh c i).Succeeds)
    (h : Lts.Run (machine sz E).step (fun s l => Succeeding s l ∧ Steady (machine sz E) k s l)
      (.initial (.initial n sz hn hsz dev₀)) s) (hd : s.dead = false) : Sequential sz dev₀ k s := by
  have hacc : ∀ c i, (E.beh c i).Accepts := fun c i => accepts_of_succeeds (hE c i)
  obtain ⟨-, hown⟩ := below_run hE (Lts.run_mono (fun _ _ h => h.1) h)
  have hkey : ∀ w : ChunkWrite, w.toSlice.chunkId = (machine sz E).key w := fun _ => rfl
  obtain ⟨hord, hturn⟩ := inTurn_run machine_tracing hkey machine_fixed
    (fun _ _ => process_zero hacc) rfl rfl (Lts.run_mono (fun _ _ h => h.2) h)
  have hended : ¬ s.locks.Locked k → (∀ w ∈ making s.issue, w.chunkId ≠ k) →
      ∀ j < sz, chunkAt sz s.inner.front.disk.dev k j =
        overlays Slice.chunkOffset Slice.size Slice.src (chunkAt sz dev₀ k)
          (s.inner.received sz k) j := by
    intro hk hm j hj
    have hrec := ended_inTurn hkey hord (hturn hd) hk hm
    rw [hown.free k hk j hj, laid_eq, Inner.received, hrec]
  refine ⟨one_at_work hord, hturn hd, fun hk hm as v bs hr j hj hv hlast => ?_,
    fun hk hm j hj hn => ?_⟩
  · rw [hended hk hm j hj, hr]
    exact overlays_of_last hv hlast
  · rw [hended hk hm j hj]
    exact overlays_of_none hn

end Ublk.Cache.Rwt
