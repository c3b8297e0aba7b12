import Ublk.Cache.Rwt
import Ublk.Cache.Tracking
import Ublk.Lib.SerialOwn

/-!
What the lock of a chunk guards. Where no part is at work the chunk is cached as the handler below
has it, if at all. A part that reads leaves it so; one that writes has it cached as it will be.
-/
namespace Ublk.Cache.Rwt

open Serial

variable {sz : Nat} {E : Env} {dev₀ dev : Addr → Byte} {w w' : ChunkWrite} {x x' : Inner}
  {k i j p : Nat} {f g b : Nat → Byte} {f' : (Nat → Byte) → Nat → Byte} {hit : Nat → Bool}
  {e : Int} {d : Option (Nat → Byte)}

/-- No part has failed. -/
def Inner.Sound (x : Inner) : Prop := ∀ w ∈ x.done, w.err = 0

/-- Chunk `k` with the parts that ended, each laid over those before it. -/
def laid (sz : Nat) (dev₀ : Addr → Byte) (k : Nat) (l : List ChunkWrite) : Nat → Byte :=
  l.foldl (fun a w => if w.chunkId = k then overlay a w.chunkOffset w.size w.src else a)
    (chunkAt sz dev₀ k)

/-- If chunk `k` is cached, and not about to be dropped, its bytes are `f`. -/
def Inner.Shows (sz k : Nat) (f : Nat → Byte) (x : Inner) : Prop :=
  k ∉ x.failing → ∀ d, x.front.cache.get k = some d → ∃ b, d = some b ∧ ∀ j < sz, b j = f j

structure Settled (sz : Nat) (dev₀ : Addr → Byte) (k : Nat) (x : Inner) : Prop where
  owed : ∀ j < sz, x.owed (k * sz + j) = false
  shows : x.Shows sz k (chunkAt sz x.front.disk.dev k)
  placed : x.Sound → ∀ j < sz, chunkAt sz x.front.disk.dev k j = laid sz dev₀ k x.done j

/-- A part lies in its chunk. -/
structure Fits (sz : Nat) (w : Slice) : Prop where
  pos : 0 < w.size
  inside : w.chunkOffset + w.size ≤ sz

def InPart (w : Slice) (j : Nat) : Prop := w.chunkOffset ≤ j ∧ j < w.chunkOffset + w.size

instance (w : Slice) (j : Nat) : Decidable (InPart w j) := inferInstanceAs (Decidable (_ ∧ _))

/-- The chunk as the part will have it. -/
def becomes (sz : Nat) (w : Slice) (x : Inner) : Nat → Byte :=
  overlay (chunkAt sz x.front.disk.dev w.chunkId) w.chunkOffset w.size w.src

def writeLoc (sz : Nat) (w : Slice) (p : Nat) : Addr := (0, w.chunkId * sz + w.chunkOffset + p)

/-- A part is about to be handed on. -/
structure Ready (sz : Nat) (dev₀ : Addr → Byte) (w : ChunkWrite) (x : Inner) : Prop where
  fits : Fits sz w.toSlice
  read : w.rmwq.ops = [] ∧ w.rmwq.err = 0
  owed : ∀ j < sz, x.owed (w.chunkId * sz + j) = false
  shows : x.Shows sz w.chunkId (becomes sz w.toSlice x)
  placed : x.Sound → ∀ j < sz,
    chunkAt sz x.front.disk.dev w.chunkId j = laid sz dev₀ w.chunkId x.done j

/-- A part was handed on. -/
structure Writing (sz : Nat) (dev₀ : Addr → Byte) (w : ChunkWrite) (x : Inner) : Prop where
  fits : Fits sz w.toSlice
  read : w.rmwq.ops = [] ∧ w.rmwq.err = 0
  shape : w.wq.ops = [] ∨ w.wq.bad = false ∧ ∃ took, w.wq.ops = [⟨w.sub sz, took⟩]
  write : w.wq.write = true ∧ w.wq.buf = w.src ∧ w.wq.rej = 0
  follows : w.wq.Follows (writeLoc sz w.toSlice) w.size (fun _ => True) x.front.disk.dev
  owed : ∀ j < sz, x.owed (w.chunkId * sz + j) = true ↔
    InPart w.toSlice j ∧ w.wq.Pending (j - w.chunkOffset)
  shows : x.Shows sz w.chunkId (becomes sz w.toSlice x)
  placed : x.Sound → ∀ j < sz, ¬ InPart w.toSlice j →
    chunkAt sz x.front.disk.dev w.chunkId j = laid sz dev₀ w.chunkId x.done j

/-- The chunk of a part is being read. -/
structure Reading (sz : Nat) (dev₀ : Addr → Byte) (w : ChunkWrite) (x : Inner) : Prop where
  fits : Fits sz w.toSlice
  fresh : w.wq = .writing w.src
  shape : ∃ took, w.rmwq.ops = [⟨chunkSub sz w.chunkId, took⟩]
  read : w.rmwq.write = false ∧ w.rmwq.rej = 0
  follows : w.rmwq.Follows (chunkLoc sz w.chunkId) sz (fun _ => True) x.front.disk.dev
  settled : Settled sz dev₀ w.chunkId x

/-- Ownership of a chunk. -/
def chunks (sz : Nat) (dev₀ : Addr → Byte) : Guard ChunkWrite Inner where
  free k x := Settled sz dev₀ k x
  held w x := Reading sz dev₀ w x ∨ Writing sz dev₀ w x ∧ w.wq.ops ≠ []
  fit w := w = w.toSlice.fresh ∧ Fits sz w.toSlice
  ended _ := True

theorem covers_iff : w.Covers sz (w.chunkId * sz + j) ↔ InPart w.toSlice j := by
  simp only [Slice.Covers, Slice.sub, InPart]
  omega

theorem chunk_unique (hi : i < sz) (hj : j < sz) {k' : Nat} (h : k * sz + i = k' * sz + j) :
    k = k' := by
  rw [← @Blocks.div_block _ k _ hi, h, Blocks.div_block hj]

/-- A part leaves the bytes of other chunks alone. -/
theorem not_covers {w : Slice} (hw : Fits sz w) (hk : k ≠ w.chunkId) (hj : j < sz) :
    ¬ w.Covers sz (k * sz + j) := by
  rintro ⟨hlo, hhi⟩
  simp only [Slice.sub] at hlo hhi
  obtain ⟨m, hm⟩ := Nat.le.dest (Nat.le_trans (Nat.le_add_right _ _) hlo)
  have hin := hw.inside
  exact hk (chunk_unique hj (by omega) hm.symm)

theorem fits_sub {w : Slice} : (w.sub sz).Fits (writeLoc sz w) w.size := by
  intro p hp
  simp only [Slice.sub, Sub.Covers, Sub.addr, writeLoc] at *
  exact ⟨by omega, by simp⟩

theorem injOn_writeLoc {w : Slice} : Set.InjOn (writeLoc sz w) (Set.Iio w.size) := by
  intro p _ q _ h
  have := congrArg Prod.snd h
  simp only [writeLoc] at this
  omega

theorem writeLoc_ne {w : Slice} (hn : ¬ w.Covers sz i) (hp : p < w.size) :
    writeLoc sz w p ≠ (0, i) := by
  intro h
  have hi := congrArg Prod.snd h
  simp only [writeLoc] at hi
  refine hn ?_
  simp only [Slice.Covers, Slice.sub]
  omega

theorem laid_append : laid sz dev₀ w.chunkId (x.done ++ [w]) j =
    if InPart w.toSlice j then w.src (j - w.chunkOffset) else laid sz dev₀ w.chunkId x.done j := by
  rw [laid, List.foldl_append, List.foldl_cons, if_pos rfl]
  rfl

theorem laid_append_of_ne (hk : k ≠ w.chunkId) :
    laid sz dev₀ k (x.done ++ [w]) = laid sz dev₀ k x.done := by
  rw [laid, List.foldl_append, List.foldl_cons, if_neg (Ne.symm hk)]
  rfl

/-- The bytes of a write that is over are where they belong. -/
theorem pending_iff (hshape : w.wq.ops = [] ∨ ∃ took, w.wq.ops = [⟨w.sub sz, took⟩])
    (hp : p < w.size) : w.wq.Pending p ↔ (w.wq.ops.any fun op => !op.took p) = true := by
  obtain ho | ⟨took, ho⟩ := hshape
  · simp [Query.Pending, ho]
  · simp [Query.Pending, ho, Slice.sub, Sub.Covers, hp]

theorem owed_owe (hshape : w.wq.ops = [] ∨ ∃ took, w.wq.ops = [⟨w.sub sz, took⟩])
    (hx : ∀ j < sz, ¬ InPart w.toSlice j → x.owed (w.chunkId * sz + j) = false) (hj : j < sz) :
    (x.owe sz w).owed (w.chunkId * sz + j) = true ↔
      InPart w.toSlice j ∧ w.wq.Pending (j - w.chunkOffset) := by
  simp only [Inner.owe, covers_iff]
  split
  · rename_i hin
    have hoff : w.chunkId * sz + j - (w.sub sz).off = j - w.chunkOffset := by
      simp only [Slice.sub]
      omega
    rw [hoff, ← pending_iff hshape (by unfold InPart at hin; omega)]
    simp [hin]
  · rename_i hin
    simp [hx j hj hin, hin]

theorem becomes_of_in {w : Slice} (h : InPart w j) :
    becomes sz w x j = w.src (j - w.chunkOffset) := if_pos h

theorem becomes_of_out {w : Slice} (h : ¬ InPart w j) :
    becomes sz w x j = chunkAt sz x.front.disk.dev w.chunkId j := if_neg h

theorem becomes_congr {w : Slice} (h : ∀ j < sz, ¬ InPart w j →
    chunkAt sz x'.front.disk.dev w.chunkId j = chunkAt sz x.front.disk.dev w.chunkId j)
    (hj : j < sz) : becomes sz w x' j = becomes sz w x j := by
  by_cases hin : InPart w j
  · rw [becomes_of_in hin, becomes_of_in hin]
  · rw [becomes_of_out hin, becomes_of_out hin]
    exact h j hj hin

theorem shows_congr (h : x.Shows sz k f) (hf : x'.failing = x.failing)
    (hc : x'.front.cache.get k = x.front.cache.get k) (hg : ∀ j < sz, g j = f j) :
    x'.Shows sz k g := by
  intro hk d hd
  obtain ⟨b, rfl, hb⟩ := h (hf ▸ hk) d (hc ▸ hd)
  exact ⟨b, rfl, fun j hj => (hb j hj).trans (hg j hj).symm⟩

/-- A write that is over without an error has brought its bytes to the handler below. -/
theorem agrees_of_writing (h : Writing sz dev₀ w x) (he : w.wq.err = 0) (hj : j < sz)
    (ho : x.owed (w.chunkId * sz + j) = false) :
    chunkAt sz x.front.disk.dev w.chunkId j = becomes sz w.toSlice x j := by
  by_cases hin : InPart w.toSlice j
  · rw [becomes_of_in hin]
    obtain ⟨m, rfl⟩ := Nat.le.dest hin.1
    have hlt := hin.2
    have hp : ¬ w.wq.Pending m := fun hp => by
      have := (h.owed _ hj).mpr ⟨hin, by rwa [Nat.add_sub_cancel_left]⟩
      rw [ho] at this
      cases this
    rw [Nat.add_sub_cancel_left, ← h.write.2.1,
      h.follows.agrees ⟨h.write.2.2, h.follows.code.mp he⟩ m (by omega) trivial hp, chunkAt,
      writeLoc, Nat.add_assoc]
  · rw [becomes_of_out hin]

theorem err_of_writing (h : Writing sz dev₀ w x) : w.err = w.wq.err := if_pos h.read.2

/-- A part that ends leaves its chunk settled. -/
theorem settled_of_writing (h : Writing sz dev₀ w x) (ho : w.wq.ops = []) :
    Settled sz dev₀ w.chunkId ((machine sz E).enter w x).2 := by
  have howed : ∀ j < sz, x.owed (w.chunkId * sz + j) = false := by
    intro j hj
    rw [Bool.eq_false_iff]
    intro hn
    obtain ⟨-, op, hop, -⟩ := (h.owed j hj).mp hn
    rw [ho] at hop
    cases hop
  have herr := err_of_writing h
  refine ⟨howed, fun hk d hd => ?_, fun hs j hj => ?_⟩
  · dsimp only [machine] at hk
    split at hk
    · rename_i he
      obtain ⟨b, rfl, hb⟩ := h.shows hk d hd
      refine ⟨b, rfl, fun j hj => (hb j hj).trans ?_⟩
      exact (agrees_of_writing h (herr ▸ he) hj (howed j hj)).symm
    · exact absurd (.head _) hk
  · have he : w.err = 0 := hs w (List.mem_append_right _ (.head _))
    have hsound : x.Sound := fun v hv => hs v (List.mem_append_left _ hv)
    change _ = laid sz dev₀ _ (x.done ++ [w]) _
    rw [laid_append]
    refine (agrees_of_writing h (herr ▸ he) hj (howed j hj)).trans ?_
    by_cases hin : InPart w.toSlice j
    · rw [if_pos hin, becomes_of_in hin]
    · rw [if_neg hin, becomes_of_out hin]
      exact h.placed hsound j hj hin

/-- What is handed on to the handler below reaches it at the part's own place. -/
theorem dev_submitWrite (hn : ¬ w.Covers sz i) :
    (submitWrite sz E w x).2.2.front.disk.dev (0, i) = x.front.disk.dev (0, i) :=
  Query.submit_elsewhere fits_sub fun _ hp => writeLoc_ne hn hp

theorem writing_submit (h : Ready sz dev₀ w x) (ha : (E.beh true x.front.disk.next).Accepts) :
    Writing sz dev₀ (submitWrite sz E w x).2.1 (submitWrite sz E w x).2.2 := by
  have hrej := rej_of_accepts (s := w.sub sz) (q := Query.writing w.src) ha rfl
  have hshape : ((Query.writing w.src).submit E (w.sub sz) x.front.disk).2.1.ops = [] ∨
      ((Query.writing w.src).submit E (w.sub sz) x.front.disk).2.1.bad = false ∧
      ∃ took, ((Query.writing w.src).submit E (w.sub sz) x.front.disk).2.1.ops =
        [⟨w.sub sz, took⟩] := by
    by_cases ho : ((Query.writing w.src).submit E (w.sub sz) x.front.disk).2.1.ops = []
    · exact .inl ho
    · rw [held_submit rfl ho]
      exact .inr ⟨rfl, _, rfl⟩
  have hdev : ∀ j < sz, ¬ InPart w.toSlice j →
      chunkAt sz (submitWrite sz E w x).2.2.front.disk.dev w.chunkId j =
        chunkAt sz x.front.disk.dev w.chunkId j :=
    fun j _ hn => dev_submitWrite fun hc => hn (covers_iff.mp hc)
  refine ⟨h.fits, h.read, hshape, ?_, ?_, fun j hj => ?_, ?_, fun hs j hj hn => ?_⟩
  · exact ⟨Query.write_submit, Query.buf_submit_of_write rfl, hrej.2⟩
  · refine Query.follows_submit (Query.follows_writing w.src) fits_sub injOn_writeLoc ?_
    intro _ p hp _
    have hp : p < w.size := hp
    exact .inr ⟨Nat.zero_le p, by simpa [Slice.sub] using hp⟩
  · exact owed_owe (hshape.imp_right And.right) (fun j hj _ => h.owed j hj) hj
  · exact shows_congr h.shows rfl rfl fun j hj => becomes_congr hdev hj
  · exact (hdev j hj hn).trans (h.placed hs j hj)

theorem size_findMutable : (x.front.cache.findMutable k f').1.size = 0 ↔
    x.front.cache.get k = none := size_find

/-- The chunk goes into the cache as it will be. -/
theorem ready_put (hw : Fits sz w.toSlice) (hr : w.rmwq.ops = [] ∧ w.rmwq.err = 0)
    (h : Settled sz dev₀ w.chunkId x) (hf : ∀ j < sz, f j = becomes sz w.toSlice x j) :
    Ready sz dev₀ w (x.put w.chunkId f) := by
  refine ⟨hw, hr, h.owed, fun _ d hd => ?_, h.placed⟩
  rw [show (x.put w.chunkId f).front.cache.get w.chunkId = some (some f) from
    FlatLru.get_update_self] at hd
  cases hd
  exact ⟨f, rfl, hf⟩

theorem writing_rmwDone (hw : Fits sz w.toSlice) (ho : w.rmwq.ops = []) (he : w.rmwq.err = 0)
    (h : Settled sz dev₀ w.chunkId x)
    (hb : ∀ j < sz, w.rmwq.buf j = chunkAt sz x.front.disk.dev w.chunkId j)
    (ha : (E.beh true x.front.disk.next).Accepts) :
    Writing sz dev₀ (rmwDone sz E w x).1 (rmwDone sz E w x).2 := by
  rw [rmwDone, if_pos he]
  refine writing_submit (ready_put hw ⟨ho, he⟩ h fun j hj => ?_) ha
  by_cases hin : InPart w.toSlice j
  · rw [becomes_of_in hin]
    exact if_pos hin
  · rw [becomes_of_out hin, ← hb j hj]
    exact if_neg hin

theorem not_busy : w.busy = false ↔ w.rmwq.ops = [] ∧ w.wq.ops = [] := by
  simp [ChunkWrite.busy]

theorem placed_of_writing (h : Writing sz dev₀ w x) :
    (chunks sz dev₀).Placed (machine sz E) w x := by
  refine ⟨fun hb => .inr ⟨h, fun ho => ?_⟩, fun hb => ⟨trivial, ?_⟩⟩
  · have hb : w.busy = true := hb
    rw [not_busy.mpr ⟨h.read.1, ho⟩] at hb
    cases hb
  · exact settled_of_writing h (not_busy.mp hb).2

/-- A part that failed before it was handed on has its chunk dropped. -/
theorem settled_fail (h : Settled sz dev₀ w.chunkId x) (he : w.err ≠ 0) :
    Settled sz dev₀ w.chunkId ((machine sz E).enter w x).2 := by
  refine ⟨h.owed, fun hk => ?_, fun hs => ?_⟩
  · dsimp only [machine] at hk
    rw [if_neg he] at hk
    exact absurd (.head _) hk
  · exact absurd (hs w (List.mem_append_right _ (.head _))) he

theorem placed_rmwDone (hw : Fits sz w.toSlice) (ho : w.rmwq.ops = []) (hq : w.wq = .writing w.src)
    (h : Settled sz dev₀ w.chunkId x) (hb : w.rmwq.err = 0 → ∀ j < sz,
      w.rmwq.buf j = chunkAt sz x.front.disk.dev w.chunkId j)
    (ha : (E.beh true x.front.disk.next).Accepts) :
    (chunks sz dev₀).Placed (machine sz E) (rmwDone sz E w x).1 (rmwDone sz E w x).2 := by
  by_cases he : w.rmwq.err = 0
  · exact placed_of_writing (writing_rmwDone hw ho he h (hb he) ha)
  · rw [rmwDone, if_neg he]
    refine ⟨fun hbusy => ?_, fun _ => ⟨trivial, settled_fail h ?_⟩⟩
    · have hbusy : w.busy = true := hbusy
      rw [not_busy.mpr ⟨ho, by rw [hq]; rfl⟩] at hbusy
      cases hbusy
    · rw [ChunkWrite.err, if_neg he]
      exact he

theorem settled_disk (h : Settled sz dev₀ k x) {disk : Disk} (hd : disk.dev = x.front.disk.dev) :
    Settled sz dev₀ k { x with front := { x.front with disk } } := by
  refine ⟨h.owed, fun hk d hget => ?_, ?_⟩
  · dsimp only
    rw [hd]
    exact h.shows hk d hget
  · dsimp only
    rw [hd]
    exact h.placed

theorem placed_readFirst (hE : ∀ c i, (E.beh c i).Accepts) (hw : Fits sz w.toSlice)
    (hq : w.wq = .writing w.src) (h : Settled sz dev₀ w.chunkId x) :
    (chunks sz dev₀).Placed (machine sz E) (readFirst sz E w x).2.1 (readFirst sz E w x).2.2 := by
  have hdev := @Query.dev_submit_of_read E (Query.read (E.junk x.front.disk.next))
    (chunkSub sz w.chunkId) x.front.disk rfl
  have hrej := rej_of_accepts (s := chunkSub sz w.chunkId)
    (q := Query.read (E.junk x.front.disk.next)) (hE false x.front.disk.next) rfl
  have hset := settled_disk h hdev
  unfold readFirst
  dsimp only
  split
  · rename_i ho
    refine placed_rmwDone hw ho hq hset (fun he j hj => ?_) (hE _ _)
    dsimp only
    rw [hdev]
    exact buf_chunk follows_chunk hrej.2 ho he j hj
  · rename_i ho
    refine ⟨fun _ => .inl ⟨hw, hq, ?_, ?_, ?_, hset⟩, fun hb => absurd (not_busy.mp hb).1 ho⟩
    · rw [held_submit rfl ho]
      exact ⟨_, rfl⟩
    · exact ⟨Query.write_submit, hrej.2⟩
    · dsimp only
      rw [hdev]
      exact follows_chunk

/-- A part that is started gets to work on its chunk. -/
theorem placed_process (hE : ∀ c i, (E.beh c i).Accepts) (hw : w = w.toSlice.fresh)
    (hfits : Fits sz w.toSlice) (h : Settled sz dev₀ w.chunkId x) :
    (chunks sz dev₀).Placed (machine sz E) (process sz E w x).2.1 (process sz E w x).2.2 := by
  have hr : w.rmwq.ops = [] ∧ w.rmwq.err = 0 := by
    rw [hw]
    exact ⟨rfl, rfl⟩
  have hq : w.wq = .writing w.src := by
    rw [hw]
    rfl
  unfold process
  split
  · rename_i hsz
    refine placed_of_writing (writing_submit (ready_put hfits hr h fun j hj => ?_) (hE _ _))
    have hin := hfits.inside
    have hoff : w.chunkOffset = 0 := by omega
    have hj : InPart w.toSlice j := ⟨by omega, by omega⟩
    rw [becomes_of_in hj, hoff, Nat.sub_zero]
  · dsimp only
    split
    · rename_i hz
      refine placed_readFirst hE hfits hq ⟨h.owed, ?_, h.placed⟩
      refine shows_congr h.shows rfl ?_ fun _ _ => rfl
      dsimp only
      rw [FlatLru.get_findMutable, if_pos rfl, size_findMutable.mp hz]
      rfl
    · refine placed_of_writing (writing_submit ⟨hfits, hr, h.owed, fun hk d hd => ?_, h.placed⟩
        (hE _ _))
      dsimp only at hk hd
      rw [FlatLru.get_findMutable, if_pos rfl] at hd
      obtain ⟨d, hget, rfl⟩ := Option.map_eq_some_iff.mp hd
      obtain ⟨b, rfl, hb⟩ := h.shows hk d hget
      refine ⟨_, rfl, fun j hj => ?_⟩
      by_cases hin : InPart w.toSlice j
      · rw [becomes_of_in hin]
        exact if_pos hin
      · rw [becomes_of_out hin]
        exact (if_neg hin).trans (hb j hj)

theorem reading_sample (h : Reading sz dev₀ w x) {q : Query × (Addr → Byte)}
    (hq : w.rmwq.effect 0 hit x.front.disk.dev = some q) :
    Reading sz dev₀ { w with rmwq := q.1 } x := by
  obtain ⟨q, d⟩ := q
  obtain ⟨took, hops⟩ := h.shape
  obtain ⟨hw, hrej, -⟩ := Query.effect_keeps hq
  have hdev : d = x.front.disk.dev := Query.dev_effect_of_read h.read.1 hq
  have hf := Query.follows_effect h.follows injOn_chunkLoc hq
  obtain ⟨op, hop, rfl, -⟩ := Query.effect_eq hq
  rw [hops] at hop
  cases hop
  refine ⟨h.fits, h.fresh, ⟨_, by simp only [hops]; rfl⟩, ⟨hw.trans h.read.1, hrej.trans h.read.2⟩,
    hdev ▸ hf, h.settled⟩

theorem placed_fill (hE : ∀ c i, (E.beh c i).Accepts) (h : Reading sz dev₀ w x) {q : Query}
    (hq : w.rmwq.settle 0 e = some q) :
    (chunks sz dev₀).Placed (machine sz E) (rmwDone sz E { w with rmwq := q } x).1
      (rmwDone sz E { w with rmwq := q } x).2 := by
  obtain ⟨took, hops⟩ := h.shape
  obtain ⟨-, -, hrej, -⟩ := Query.settle_keeps hq
  have hf := Query.follows_settle h.follows hq
  have ho : q.ops = [] := by
    obtain ⟨op, -, -, rfl⟩ := Query.settle_eq hq
    simp [hops]
  exact placed_rmwDone (w := { w with rmwq := q }) h.fits ho h.fresh h.settled
    (fun he => buf_chunk hf (hrej.trans h.read.2) ho he) (hE _ _)

/-- The bytes that a part writes are its own. -/
theorem dev_apply (h : Writing sz dev₀ w x) {q : Query × (Addr → Byte)}
    (hq : w.wq.effect 0 hit x.front.disk.dev = some q) (hn : ¬ w.Covers sz i) :
    q.2 (0, i) = x.front.disk.dev (0, i) :=
  Query.effect_elsewhere h.follows hq fun _ hp => writeLoc_ne hn hp

theorem writing_apply (h : Writing sz dev₀ w x) {q : Query × (Addr → Byte)}
    (hq : w.wq.effect 0 hit x.front.disk.dev = some q) :
    Writing sz dev₀ { w with wq := q.1 } ((x.reach sz { x.front.disk with dev := q.2 }
      fun a => w.wq.ops.any (·.lands hit a)).owe sz { w with wq := q.1 }) := by
  have hdev : ∀ j < sz, ¬ InPart w.toSlice j →
      q.2 (0, w.chunkId * sz + j) = x.front.disk.dev (0, w.chunkId * sz + j) :=
    fun j _ hn => dev_apply h hq fun hc => hn (covers_iff.mp hc)
  obtain ⟨q, d⟩ := q
  obtain ⟨hw, hrej, -, hbad, -, hbuf⟩ := Query.effect_keeps hq
  have hf := Query.follows_effect h.follows injOn_writeLoc hq
  have hshape : q.ops = [] ∨ q.bad = false ∧ ∃ took, q.ops = [⟨w.sub sz, took⟩] := by
    obtain ⟨op, hop, rfl, -⟩ := Query.effect_eq hq
    obtain ho | ⟨hb, took, ho⟩ := h.shape
    · simp [ho] at hop
    · rw [ho] at hop
      cases hop
      exact .inr ⟨hbad.trans hb, _, by simp only [ho]; rfl⟩
  have howed : ∀ j < sz, ¬ InPart w.toSlice j → x.owed (w.chunkId * sz + j) = false := by
    intro j hj hn
    rw [Bool.eq_false_iff]
    exact fun ho => hn ((h.owed j hj).mp ho).1
  refine ⟨h.fits, h.read, hshape, ?_, hf, fun j hj => ?_, ?_, fun hs j hj hn => ?_⟩
  · exact ⟨hw.trans h.write.1, (hbuf h.write.1).trans h.write.2.1, hrej.trans h.write.2.2⟩
  · exact owed_owe (w := { w with wq := q }) (hshape.imp_right And.right) howed hj
  · exact shows_congr h.shows rfl rfl fun j hj => becomes_congr hdev hj
  · exact (hdev j hj hn).trans (h.placed hs j hj hn)

theorem writing_complete (h : Writing sz dev₀ w x) {q : Query} (hq : w.wq.settle 0 e = some q) :
    Writing sz dev₀ { w with wq := q } (x.owe sz { w with wq := q }) := by
  obtain ⟨hne, hw, hrej, hbuf, -⟩ := Query.settle_keeps hq
  have hf := Query.follows_settle h.follows hq
  have ho : q.ops = [] := by
    obtain ⟨op, -, -, rfl⟩ := Query.settle_eq hq
    obtain ho | ⟨-, took, ho⟩ := h.shape
    · exact absurd ho hne
    · simp [ho]
  have howed : ∀ j < sz, ¬ InPart w.toSlice j → x.owed (w.chunkId * sz + j) = false := by
    intro j hj hn
    rw [Bool.eq_false_iff]
    exact fun ho => hn ((h.owed j hj).mp ho).1
  refine ⟨h.fits, h.read, .inl ho, ?_, hf, fun j hj => ?_, h.shows, h.placed⟩
  · exact ⟨hw.trans h.write.1, hbuf.trans h.write.2.1, hrej.trans h.write.2.2⟩
  · exact owed_owe (w := { w with wq := q }) (.inl ho) howed hj

theorem effect_nil {q : Query} {dev : Addr → Byte} (h : q.ops = []) :
    q.effect k hit dev = none := by
  simp [Query.effect, h]

theorem settle_nil {q : Query} (h : q.ops = []) : q.settle k e = none := by
  simp [Query.settle, h]

theorem placed_react (hE : ∀ c i, (E.beh c i).Accepts) {a : Act}
    (h : (chunks sz dev₀).held w x) (hr : react sz E a w x = some (w', x')) :
    (chunks sz dev₀).Placed (machine sz E) w' x' := by
  cases a with
  | sample hit =>
    obtain ⟨q, hq, he⟩ := Option.map_eq_some_iff.mp hr
    cases he
    obtain h | ⟨h, -⟩ := h
    · have hs := reading_sample h hq
      refine ⟨fun _ => .inl hs, fun hb => ?_⟩
      obtain ⟨took, hops⟩ := hs.shape
      have hnil := (not_busy.mp hb).1
      rw [hops] at hnil
      cases hnil
    · rw [effect_nil h.read.1] at hq
      cases hq
  | fill e =>
    obtain ⟨q, hq, he⟩ := Option.map_eq_some_iff.mp hr
    obtain h | ⟨h, -⟩ := h
    · have hp := placed_fill hE h hq
      rwa [he] at hp
    · rw [settle_nil h.read.1] at hq
      cases hq
  | apply hit =>
    obtain ⟨q, hq, he⟩ := Option.map_eq_some_iff.mp hr
    cases he
    obtain h | ⟨h, -⟩ := h
    · rw [h.fresh, effect_nil rfl] at hq
      cases hq
    · exact placed_of_writing (writing_apply h hq)
  | complete e =>
    obtain ⟨q, hq, he⟩ := Option.map_eq_some_iff.mp hr
    cases he
    obtain h | ⟨h, -⟩ := h
    · rw [h.fresh, settle_nil rfl] at hq
      cases hq
    · exact placed_of_writing (writing_complete h hq)

end Ublk.Cache.Rwt
