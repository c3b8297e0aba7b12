import Ublk.Cache.Chunks
import Ublk.Cache.Shares
import Ublk.Lib.SerialLate

/-!
The parts of writes under `RWTHandler`, whatever becomes of them, and the ownership of chunks.
-/
namespace Ublk.Cache.Rwt

open Shared Requests Serial

variable {sz n : Nat} {E : Env} {dev₀ : Addr → Byte} {w w' : ChunkWrite} {x x' : Inner}
  {k i j : Nat} {e : Int} {a : Act} {b : Beside} {s t : State} {l : Label} {q q' : Requests}
  {r : ChunkWrite × Inner} {y z : Front}

/-- What a part leaves as it is, whatever becomes of it. -/
structure Rests (w : ChunkWrite) (x : Inner) (r : ChunkWrite × Inner) : Prop where
  slice : r.1.toSlice = w.toSlice
  failing : r.2.failing = x.failing
  writes : r.2.writes = x.writes
  done : r.2.done = x.done
  fills : r.2.front.fills.map Fill.cid = x.front.fills.map Fill.cid

/-- What is not a part's own stays. -/
structure Apart (sz : Nat) (w : Slice) (x x' : Inner) : Prop where
  dev : ∀ i, ¬ w.Covers sz i → x'.front.disk.dev (0, i) = x.front.disk.dev (0, i)
  owed : ∀ i, ¬ w.Covers sz i → x'.owed i = x.owed i
  cache : ∀ k ≠ w.chunkId, x'.front.cache.get k = none ∨
    x'.front.cache.get k = x.front.cache.get k

theorem rests_trans (h : Rests w x (w', x')) (h' : Rests w' x' r) : Rests w x r :=
  ⟨h'.slice.trans h.slice, h'.failing.trans h.failing, h'.writes.trans h.writes,
    h'.done.trans h.done, h'.fills.trans h.fills⟩

theorem apart_refl {w : Slice} : Apart sz w x x := ⟨fun _ _ => rfl, fun _ _ => rfl, fun _ _ => .inr rfl⟩

theorem apart_trans {w : Slice} {x'' : Inner} (h : Apart sz w x x') (h' : Apart sz w x' x'') :
    Apart sz w x x'' := by
  refine ⟨fun i hi => (h'.dev i hi).trans (h.dev i hi), fun i hi => (h'.owed i hi).trans (h.owed i hi),
    fun k hk => ?_⟩
  obtain hn | he := h'.cache k hk
  · exact .inl hn
  · rw [he]
    exact h.cache k hk

theorem rests_submitWrite : Rests w x (submitWrite sz E w x).2 :=
  ⟨rfl, rfl, rfl, rfl, List.map_map⟩

theorem apart_submitWrite : Apart sz w.toSlice x (submitWrite sz E w x).2.2 :=
  ⟨fun _ hi => dev_submitWrite hi, fun _ hi => if_neg hi, fun _ _ => .inr rfl⟩

theorem rests_put {f : Nat → Byte} : Rests w x (w, x.put k f) := ⟨rfl, rfl, rfl, rfl, rfl⟩

theorem apart_put {f : Nat → Byte} : Apart sz w.toSlice x (x.put w.chunkId f) :=
  ⟨fun _ _ => rfl, fun _ _ => rfl, fun _ hk => FlatLru.get_update_of_ne hk⟩

theorem rests_rmwDone : Rests w x (rmwDone sz E w x) := by
  unfold rmwDone
  split
  · exact rests_trans rests_put rests_submitWrite
  · exact ⟨rfl, rfl, rfl, rfl, rfl⟩

theorem apart_rmwDone {q : Query} :
    Apart sz w.toSlice x (rmwDone sz E { w with rmwq := q } x).2 := by
  unfold rmwDone
  split
  · exact apart_trans apart_put (@apart_submitWrite sz E { w with rmwq := q } _)
  · exact apart_refl

theorem rests_readFirst : Rests w x (readFirst sz E w x).2 := by
  unfold readFirst
  dsimp only
  split
  · refine rests_trans ?_ rests_rmwDone
    exact ⟨rfl, rfl, rfl, rfl, rfl⟩
  · exact ⟨rfl, rfl, rfl, rfl, rfl⟩

theorem apart_readFirst : Apart sz w.toSlice x (readFirst sz E w x).2.2 := by
  have hdev := @Query.dev_submit_of_read E (Query.read (E.junk x.front.disk.next))
    (chunkSub sz w.chunkId) x.front.disk rfl
  have hread : Apart sz w.toSlice x { x with front := { x.front with
      disk := ((Query.read (E.junk x.front.disk.next)).submit E (chunkSub sz w.chunkId)
        x.front.disk).2.2 } } :=
    ⟨fun i _ => congrFun hdev _, fun _ _ => rfl, fun _ _ => .inr rfl⟩
  unfold readFirst
  dsimp only
  split
  · exact apart_trans hread apart_rmwDone
  · exact hread

theorem rests_process : Rests w x (process sz E w x).2 := by
  unfold process
  split
  · exact rests_trans rests_put rests_submitWrite
  · dsimp only
    split
    · refine rests_trans ?_ rests_readFirst
      exact ⟨rfl, rfl, rfl, rfl, rfl⟩
    · refine rests_trans ?_ rests_submitWrite
      exact ⟨rfl, rfl, rfl, rfl, rfl⟩

theorem apart_process : Apart sz w.toSlice x (process sz E w x).2.2 := by
  unfold process
  split
  · exact apart_trans apart_put apart_submitWrite
  · have hfind : ∀ f, Apart sz w.toSlice x { x with front := { x.front with
        cache := (x.front.cache.findMutable w.chunkId f).2 } } := fun f =>
      ⟨fun _ _ => rfl, fun _ _ => rfl, fun k hk => .inr (FlatLru.get_findMutable.trans (if_neg hk))⟩
    dsimp only
    split
    · exact apart_trans (hfind _) apart_readFirst
    · exact apart_trans (hfind _) apart_submitWrite

theorem rests_react (h : react sz E a w x = some r) : Rests w x r := by
  cases a with
  | sample hit =>
    obtain ⟨q, -, rfl⟩ := Option.map_eq_some_iff.mp h
    exact ⟨rfl, rfl, rfl, rfl, rfl⟩
  | fill e =>
    obtain ⟨q, -, rfl⟩ := Option.map_eq_some_iff.mp h
    refine rests_trans ?_ rests_rmwDone
    exact ⟨rfl, rfl, rfl, rfl, rfl⟩
  | apply hit =>
    obtain ⟨q, -, rfl⟩ := Option.map_eq_some_iff.mp h
    exact ⟨rfl, rfl, rfl, rfl, List.map_map⟩
  | complete e =>
    obtain ⟨q, -, rfl⟩ := Option.map_eq_some_iff.mp h
    exact ⟨rfl, rfl, rfl, rfl, rfl⟩

theorem apart_react (hh : (chunks sz dev₀).held w x) (h : react sz E a w x = some r) :
    Apart sz w.toSlice x r.2 := by
  cases a with
  | sample hit =>
    obtain ⟨q, -, rfl⟩ := Option.map_eq_some_iff.mp h
    exact apart_refl
  | fill e =>
    obtain ⟨q, -, rfl⟩ := Option.map_eq_some_iff.mp h
    exact apart_rmwDone
  | apply hit =>
    obtain ⟨q, hq, rfl⟩ := Option.map_eq_some_iff.mp h
    obtain hh | ⟨hh, -⟩ := hh
    · rw [hh.fresh, effect_nil rfl] at hq
      cases hq
    · exact ⟨fun _ hi => dev_apply hh hq hi, fun _ hi => if_neg hi, fun _ _ => .inr rfl⟩
  | complete e =>
    obtain ⟨q, -, rfl⟩ := Option.map_eq_some_iff.mp h
    exact ⟨fun _ _ => rfl, fun _ hi => if_neg hi, fun _ _ => .inr rfl⟩

/-- What chunk `k` keeps. It may leave the cache, and come into it as the handler below has it. -/
structure Same (sz : Nat) (dev₀ : Addr → Byte) (k : Nat) (x x' : Inner) : Prop where
  dev : ∀ j < sz, chunkAt sz x'.front.disk.dev k j = chunkAt sz x.front.disk.dev k j
  owed : ∀ j < sz, x'.owed (k * sz + j) = x.owed (k * sz + j)
  cache : k ∉ x'.failing → ∀ d, x'.front.cache.get k = some d →
    k ∉ x.failing ∧ x.front.cache.get k = some d ∨
    ∃ b, d = some b ∧ ∀ j < sz, b j = chunkAt sz x.front.disk.dev k j ∧ x.owed (k * sz + j) = false
  placed : x'.Sound → x.Sound ∧ ∀ j < sz, laid sz dev₀ k x'.done j = laid sz dev₀ k x.done j

theorem shows_of_same (h : Same sz dev₀ k x x') {f g : Nat → Byte} (hs : x.Shows sz k f)
    (hf : ∀ j < sz, g j = f j)
    (hnew : ∀ j < sz, x.owed (k * sz + j) = false → chunkAt sz x.front.disk.dev k j = f j) :
    x'.Shows sz k g := by
  intro hk d hd
  obtain ⟨hk, hd⟩ | ⟨b, rfl, hb⟩ := h.cache hk d hd
  · obtain ⟨b, rfl, hb⟩ := hs hk d hd
    exact ⟨b, rfl, fun j hj => (hb j hj).trans (hf j hj).symm⟩
  · refine ⟨b, rfl, fun j hj => ?_⟩
    obtain ⟨hb, ho⟩ := hb j hj
    exact hb.trans ((hnew j hj ho).trans (hf j hj).symm)

theorem settled_of_same (h : Same sz dev₀ k x x') (hx : Settled sz dev₀ k x) :
    Settled sz dev₀ k x' := by
  refine ⟨fun j hj => (h.owed j hj).trans (hx.owed j hj),
    shows_of_same h hx.shows h.dev fun _ _ _ => rfl, fun hs j hj => ?_⟩
  obtain ⟨hs, hl⟩ := h.placed hs
  rw [h.dev j hj, hl j hj]
  exact hx.placed hs j hj

theorem reading_of_same (h : Same sz dev₀ w.chunkId x x') (hx : Reading sz dev₀ w x) :
    Reading sz dev₀ w x' :=
  ⟨hx.fits, hx.fresh, hx.shape, hx.read, Query.follows_elsewhere hx.follows h.dev,
    settled_of_same h hx.settled⟩

theorem writing_of_same (h : Same sz dev₀ w.chunkId x x') (hx : Writing sz dev₀ w x)
    (ho : w.wq.ops ≠ []) : Writing sz dev₀ w x' := by
  have hin := hx.fits.inside
  have hbad : w.wq.err = 0 := hx.follows.code.mpr (hx.shape.resolve_left ho).1
  refine ⟨hx.fits, hx.read, hx.shape, hx.write, Query.follows_elsewhere hx.follows fun p hp => ?_,
    fun j hj => ?_, shows_of_same h hx.shows ?_ ?_, fun hs j hj hn => ?_⟩
  · have hj := h.dev (w.chunkOffset + p) (by omega)
    rwa [chunkAt, chunkAt, ← Nat.add_assoc] at hj
  · rw [h.owed j hj]
    exact hx.owed j hj
  · exact fun j hj => becomes_congr (fun j hj _ => h.dev j hj) hj
  · exact fun j hj ho => agrees_of_writing hx hbad hj ho
  · obtain ⟨hs, hl⟩ := h.placed hs
    rw [h.dev j hj, hl j hj]
    exact hx.placed hs j hj hn

theorem keeps_of_same (h : Same sz dev₀ k x x') :
    (chunks sz dev₀).Keeps (machine sz E) k x x' := by
  refine ⟨settled_of_same h, fun w hw hx => ?_⟩
  have hw : w.chunkId = k := hw
  subst hw
  obtain hx | ⟨hx, ho⟩ := hx
  · exact .inl (reading_of_same h hx)
  · exact .inr ⟨writing_of_same h hx ho, ho⟩

theorem same_of_apart (h : Apart sz w.toSlice x r.2) (hr : Rests w x r) (hw : Fits sz w.toSlice)
    (hk : k ≠ w.chunkId) : Same sz dev₀ k x r.2 := by
  refine ⟨fun j hj => h.dev _ (not_covers hw hk hj), fun j hj => h.owed _ (not_covers hw hk hj),
    fun hf d hd => ?_, fun hs => ?_⟩
  · obtain hn | he := h.cache k hk
    · rw [hn] at hd
      cases hd
    · exact .inl ⟨hr.failing ▸ hf, he ▸ hd⟩
  · rw [Inner.Sound, hr.done] at hs
    exact ⟨hs, fun _ _ => by rw [hr.done]⟩

theorem same_enter (hk : k ≠ w.chunkId) : Same sz dev₀ k x ((machine sz E).enter w x).2 := by
  refine ⟨fun _ _ => rfl, fun _ _ => rfl, fun hf d hd => .inl ⟨fun hn => hf ?_, hd⟩, fun hs => ?_⟩
  · dsimp only [machine]
    split
    · exact hn
    · exact .tail _ hn
  · refine ⟨fun v hv => hs v (List.mem_append_left _ hv), fun j _ => ?_⟩
    exact congrFun (laid_append_of_ne hk) j

theorem same_leave : Same sz dev₀ k x ((machine sz E).leave w x).2 := by
  dsimp only [machine]
  split
  · exact ⟨fun _ _ => rfl, fun _ _ => rfl, fun hf d hd => .inl ⟨hf, hd⟩, fun hs => ⟨hs, fun _ _ => rfl⟩⟩
  · refine ⟨fun _ _ => rfl, fun _ _ => rfl, fun hf d hd => .inl ?_, fun hs => ⟨hs, fun _ _ => rfl⟩⟩
    dsimp only [dropChunk] at hf hd
    rw [FlatLru.get_invalidate] at hd
    split at hd
    · cases hd
    · rename_i hk
      exact ⟨fun hn => hf ((List.mem_erase_of_ne hk).mpr hn), hd⟩

theorem fits_of_held (h : (chunks sz dev₀).held w x) : Fits sz w.toSlice := by
  obtain h | ⟨h, -⟩ := h
  · exact h.fits
  · exact h.fits

theorem mem_slices {c : Nat} {rg : Range} {src : Nat → Byte} {v : Slice} (hsz : 0 < sz)
    (h : v ∈ slices sz c rg src) : Fits sz v := by
  obtain ⟨p, hp, rfl⟩ := List.mem_map.mp h
  obtain ⟨-, -, hin, hpos⟩ := Blocks.mem_cut hsz hp
  exact ⟨hpos, hin⟩

theorem machine_fixed : (machine sz E).Fixed where
  start _ _ := congrArg Slice.chunkId rests_process.slice
  react _ _ _ _ _ h := congrArg Slice.chunkId (rests_react h).slice
  park _ := rfl

theorem fillsOf_of_rests (h : Rests w x r) (c : Nat) :
    fillsOf c r.2.front = fillsOf c x.front := by
  unfold fillsOf
  rw [h.fills]

theorem aside_rest (h : aside sz E b x q = some (x', q')) : x' = { x with front := x'.front } := by
  cases b with
  | read rg buf =>
    cases h
    rfl
  | sample i hit =>
    obtain ⟨y, -, he⟩ := Option.map_eq_some_iff.mp h
    cases he
    rfl
  | settle i e =>
    obtain ⟨y, -, he⟩ := Option.map_eq_some_iff.mp h
    cases he
    rfl

theorem grows_aside (h : aside sz E b x q = some (x', q')) : q.Grows q' := by
  cases b with
  | read rg buf =>
    cases h
    exact grows_read
  | sample i hit =>
    obtain ⟨y, -, he⟩ := Option.map_eq_some_iff.mp h
    cases he
    exact grows_refl
  | settle i e =>
    obtain ⟨y, hy, he⟩ := Option.map_eq_some_iff.mp h
    cases he
    exact grows_settle hy

theorem balanced_aside {base : Nat → Nat} (h : aside sz E b x q = some (x', q'))
    (hb : q.Balanced (fun c => base c + fillsOf c x.front) none) :
    q'.Balanced (fun c => base c + fillsOf c x'.front) none := by
  cases b with
  | read rg buf =>
    cases h
    exact balanced_read hb
  | sample i hit =>
    obtain ⟨y, hy, he⟩ := Option.map_eq_some_iff.mp h
    cases he
    unfold fillsOf
    dsimp only
    rw [fills_sample hy]
    exact hb
  | settle i e =>
    obtain ⟨y, hy, he⟩ := Option.map_eq_some_iff.mp h
    cases he
    exact balanced_settle hy hb

theorem machine_sharing : Sharing (machine sz E) fun c x => fillsOf c x.front where
  start _ _ := congrArg Slice.cid rests_process.slice
  react _ _ _ _ _ h := congrArg Slice.cid (rests_react h).slice
  park _ := rfl
  split r c x j hj := by
    obtain ⟨v, hv, rfl⟩ := List.mem_map.mp hj
    obtain ⟨p, -, rfl⟩ := List.mem_map.mp hv
    rfl
  split_outside _ _ _ _ := rfl
  start_outside _ _ c := fillsOf_of_rests rests_process c
  react_outside _ _ _ _ _ c h := fillsOf_of_rests (rests_react h) c
  enter_outside _ _ _ := rfl
  leave_outside w x c := by
    dsimp only [machine]
    split
    · rfl
    · rfl
  aside _ _ _ _ _ _ h hb := balanced_aside h hb

/-- The parts of all requests to write. -/
def Inner.made (sz : Nat) (x : Inner) : List Slice :=
  x.writes.flatMap fun r => slices sz r.1 r.2.1 r.2.2

theorem machine_tracing : Tracing (machine sz E) (fun w => w.toSlice) (Inner.made sz)
    Inner.done where
  start w x := ⟨rests_process.slice, congrArg (List.flatMap _) rests_process.writes,
    rests_process.done⟩
  react _ _ _ _ _ h := ⟨(rests_react h).slice, congrArg (List.flatMap _) (rests_react h).writes,
    (rests_react h).done⟩
  park _ := rfl
  split r c x := by
    refine ⟨?_, rfl⟩
    simp [machine, Inner.made, Slice.fresh, Function.comp_def]
  enter _ _ := ⟨rfl, rfl⟩
  leave w x := by
    dsimp only [machine]
    split
    · exact ⟨rfl, rfl⟩
    · exact ⟨rfl, rfl⟩
  aside _ _ _ _ _ h := by
    rw [aside_rest h]
    exact ⟨rfl, rfl⟩

theorem machine_late : Late (machine sz E) ChunkWrite.err where
  leave _ _ := rfl
  aside _ _ _ _ _ h := grows_aside h

/-- What is known of reads when something happens beside the parts, and that it brings no chunk into
the cache with a byte that a write reached after the byte was read or is yet to reach. -/
structure Current (sz : Nat) (E : Env) (b : Beside) (x : Inner) : Prop where
  tracked : Tracked sz x.front
  inTime : ∀ q r, aside sz E b x q = some r → r.1.front.outdated = false

theorem same_of_added (h : Added sz x.owed x.front y) : Same sz dev₀ k x { x with front := y } := by
  refine ⟨fun j _ => congrFun h.1 _, fun _ _ => rfl, fun hf d hd => ?_, fun hs => ⟨hs, fun _ _ => rfl⟩⟩
  exact (h.2 k d hd).imp_left fun hd => ⟨hf, hd⟩

theorem same_aside (hE : ∀ c i, (E.beh c i).Accepts) (h : Current sz E b x)
    (ha : aside sz E b x q = some (x', q')) : Same sz dev₀ k x x' := by
  have ho := h.inTime q _ ha
  cases b with
  | read rg buf =>
    cases ha
    exact same_of_added (added_read (hE false) ho)
  | sample i hit =>
    obtain ⟨y, hy, he⟩ := Option.map_eq_some_iff.mp ha
    cases he
    obtain ⟨f, q, -, -, rfl⟩ := sample_cases hy
    exact same_of_added ⟨rfl, fun _ _ => .inl⟩
  | settle i e =>
    obtain ⟨y, hy, he⟩ := Option.map_eq_some_iff.mp ha
    cases he
    exact same_of_added (added_settle h.tracked hy ho)

theorem chunks_sound (hsz : 0 < sz) (hE : ∀ c i, (E.beh c i).Accepts) :
    (chunks sz dev₀).Sound (machine sz E) (fun _ _ => True) (Current sz E) where
  start w x hw hx := placed_process hE hw.1 hw.2 hx
  react a w x w' x' _ hw hr := placed_react hE hw hr
  start_other w x k hw hk := keeps_of_same (same_of_apart apart_process rests_process hw.2 hk)
  react_other a w x w' x' k _ hw hr hk :=
    keeps_of_same (same_of_apart (apart_react hw hr) (rests_react hr) (fits_of_held hw) hk)
  enter_other w x k hk := keeps_of_same (same_enter hk)
  leave w x k _ := keeps_of_same same_leave
  split r c x k := keeps_of_same ⟨fun _ _ => rfl, fun _ _ => rfl, fun hf d hd => .inl ⟨hf, hd⟩,
    fun hs => ⟨hs, fun _ _ => rfl⟩⟩
  split_fit r c x w hw := by
    obtain ⟨v, hv, rfl⟩ := List.mem_map.mp hw
    exact ⟨rfl, mem_slices hsz hv⟩
  park_fit _ hw := hw
  aside _ _ _ _ _ _ hb ha := keeps_of_same (same_aside hE hb ha)

end Ublk.Cache.Rwt
