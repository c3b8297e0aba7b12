import Ublk.Cache.Order
import Ublk.Raidsp.Order

/-!
Writes that wait for a stripe or a chunk. They are worked on in the order in which they came where
no completer puts the last of its list ahead of another one of the same stripe or chunk.
-/
namespace Ublk

open Serial

theorem queued_in_turn :
    (∀ (G : Raidsp.Geometry) (E : Env) (dev₀ : Addr → Byte) (k : Nat)
      (s : Serial.State Raidsp.SubWrite Raidsp.Inner), (∀ b i, (E.beh b i).Succeeds) →
      Lts.Run (Raidsp.acceptor G E).step
        (fun s l => Raidsp.Succeeding s l ∧ Steady (Raidsp.acceptor G E) k s l)
        (.initial (.initial dev₀)) s → Raidsp.Sequential G dev₀ k s) ∧
    ∀ (n sz : Nat) (hn : 0 < n) (hsz : 0 < sz) (E : Env) (dev₀ : Addr → Byte) (k : Nat)
      (s : Cache.Rwt.State), (∀ c i, (E.beh c i).Succeeds) →
      Lts.Run (Cache.Rwt.machine sz E).step
        (fun s l => Cache.Rwt.Succeeding s l ∧ Steady (Cache.Rwt.machine sz E) k s l)
        (.initial (.initial n sz hn hsz dev₀)) s →
      s.dead = false → Cache.Rwt.Sequential sz dev₀ k s :=
  ⟨fun _ _ _ _ _ hE => Raidsp.sequential_run hE,
    fun _ _ _ _ _ _ _ _ hE => Cache.Rwt.sequential_run hE⟩

/-- The first submit is kept, the others are carried out at once. -/
def firstHeld : Env where
  beh _ i := if i = 0 then .held else .done 0 fun _ => true
  junk _ _ := 0

theorem firstHeld_succeeds : ∀ c i, (firstHeld.beh c i).Succeeds := by
  intro c i
  unfold firstHeld
  dsimp only
  split
  · exact trivial
  · exact rfl

def bytesOf (c : Nat) : Nat → Byte := fun _ => ⟨BitVec.ofNat 8 c⟩

/-- What a write brings to its first byte. -/
def firstByte (src : Nat → Byte) : Nat := (src 0).bits.toNat

namespace Raidsp

/-- A write of a stripe is in flight when `m` writes of its first strip come; then it completes, and
they are done. -/
def queuedRun (m : Nat) : List (Label WriteReq Act Beside) :=
  [.arrive (stripeReq (bytesOf 0)), .tick, .tick] ++
    ((List.range m).flatMap fun c => [.arrive (stripReq 0 (bytesOf (c + 1))), .tick, .tick]) ++
    [.act 0 (.effect .wqd 0 fun _ => true), .act 0 (.settle .wqd 0 0)] ++
    List.replicate (2 * m + 2) .tick

theorem queuedRun_succeeding {m : Nat} {l : Label WriteReq Act Beside} (h : l ∈ queuedRun m)
    (s : State SubWrite Inner) : Succeeding s l := by
  simp only [queuedRun, List.mem_append, List.mem_cons, List.not_mem_nil, or_false,
    List.mem_flatMap, List.mem_replicate] at h
  rcases h with (((rfl | rfl | rfl) | ⟨c, -, rfl | rfl | rfl⟩) | rfl | rfl) | ⟨-, rfl⟩
  all_goals first | exact trivial | exact fun _ _ => trivial | exact fun _ _ => rfl

end Raidsp

namespace Cache.Rwt

theorem chunk_top : 0 + 512 ≤ 2 ^ 64 := by decide

theorem chunk_pos : 0 < 512 := by decide

/-- A write of the first chunk, of 512 bytes. -/
def chunkReq (c : Nat) : Range × (Nat → Byte) := (⟨0, 512, chunk_pos, chunk_top⟩, bytesOf c)

/-- A write of a chunk is in flight when `m` others come; then it completes, and they are done. -/
def queuedRun (m : Nat) : List Label :=
  ((List.range (m + 1)).flatMap fun c => [.arrive (chunkReq c), .tick, .tick]) ++
    [.act 0 (.apply fun _ => true), .act 0 (.complete 0)] ++ List.replicate (2 * m + 2) .tick

def afterRun (E : Env) (ls : List Label) : Option State :=
  Lts.exec (machine 512 E).step (.initial (.initial 1 512 Nat.one_pos chunk_pos fun _ => 0)) ls

theorem queuedRun_succeeding {m : Nat} {l : Label} (h : l ∈ queuedRun m) (s : State) :
    Succeeding s l := by
  simp only [queuedRun, List.mem_append, List.mem_cons, List.not_mem_nil, or_false,
    List.mem_flatMap, List.mem_replicate] at h
  rcases h with (⟨c, -, rfl | rfl | rfl⟩ | rfl | rfl) | ⟨-, rfl⟩
  all_goals first | exact trivial | exact fun _ _ => trivial | exact fun _ _ => rfl

end Cache.Rwt

/-- With two writes waiting, the last one to come is the last one done. -/
theorem queued_in_turn_two :
    (∃ s, Raidsp.afterRun firstHeld (Raidsp.queuedRun 2) = some s ∧
      Raidsp.Sequential Raidsp.smallRaid (fun _ => 0) 0 s) ∧
    ∃ s, Cache.Rwt.afterRun firstHeld (Cache.Rwt.queuedRun 2) = some s ∧
      Cache.Rwt.Sequential 512 (fun _ => 0) 0 s := by
  constructor
  · obtain ⟨s, hs⟩ : ∃ s, Raidsp.afterRun firstHeld (Raidsp.queuedRun 2) = some s :=
      Option.isSome_iff_exists.mp (by decide +kernel)
    refine ⟨s, hs, queued_in_turn.1 _ firstHeld _ 0 s firstHeld_succeeds (Lts.run_of_along
      (Lts.along_of_mem (fun l hl s => Raidsp.queuedRun_succeeding hl s) ?_) hs)⟩
    decide +kernel
  · obtain ⟨s, hs⟩ : ∃ s, Cache.Rwt.afterRun firstHeld (Cache.Rwt.queuedRun 2) = some s :=
      Option.isSome_iff_exists.mp (by decide +kernel)
    have hlive : (Cache.Rwt.afterRun firstHeld (Cache.Rwt.queuedRun 2)).map (fun s => s.dead) =
        some false := by decide +kernel
    simp only [hs, Option.map_some, Option.some.injEq] at hlive
    refine ⟨s, hs, queued_in_turn.2 1 512 Nat.one_pos Cache.Rwt.chunk_pos firstHeld _ 0 s
      firstHeld_succeeds (Lts.run_of_along
      (Lts.along_of_mem (fun l hl s => Cache.Rwt.queuedRun_succeeding hl s) ?_) hs) hlive⟩
    decide +kernel

/-- Where the jobs of a key are not in line as they were made. -/
theorem Raidsp.not_sequential {G : Raidsp.Geometry} {dev₀ : Addr → Byte} {k : Nat}
    {s : Serial.State Raidsp.SubWrite Raidsp.Inner} (g : Raidsp.Slice → Nat)
    (h : (s.inner.received G k).map g ≠ (((s.inner.done ++ s.active ++
      (s.pending ++ making s.issue)).map Raidsp.SubWrite.toSlice).filter
        fun v => v.stripe == k).map g) : ¬ Raidsp.Sequential G dev₀ k s :=
  fun hs => h (congrArg (List.map g) hs.order)

theorem Cache.Rwt.not_sequential {sz : Nat} {dev₀ : Addr → Byte} {k : Nat} {s : Cache.Rwt.State}
    (g : Cache.Slice → Nat) (h : (s.inner.received sz k).map g ≠ (((s.inner.done ++ s.active ++
      (s.pending ++ making s.issue)).map fun w => w.toSlice).filter
        fun v => v.chunkId == k).map g) : ¬ Cache.Rwt.Sequential sz dev₀ k s :=
  fun hs => h (congrArg (List.map g) hs.order)

/-- With three writes waiting, the last one of the list takes the place of the first. -/
theorem queued_out_of_turn :
    (∃ s, Lts.Run (Raidsp.acceptor Raidsp.smallRaid firstHeld).step Raidsp.Succeeding
        (.initial (.initial fun _ => 0)) s ∧ s.Quiet ∧ ¬ s.locks.Locked 0 ∧
      (s.inner.received Raidsp.smallRaid 0).map (fun v => firstByte v.src) = [0, 1, 2, 3] ∧
      s.inner.done.map (fun w => firstByte w.src) = [0, 1, 3, 2] ∧
      s.inner.disk.dev (Raidsp.smallRaid.loc 0 0) = bytesOf 2 0 ∧
      ¬ Raidsp.Sequential Raidsp.smallRaid (fun _ => 0) 0 s) ∧
    ∃ s, Lts.Run (Cache.Rwt.machine 512 firstHeld).step Cache.Rwt.Succeeding
        (.initial (.initial 1 512 Nat.one_pos Cache.Rwt.chunk_pos fun _ => 0)) s ∧ s.Quiet ∧
      ¬ s.locks.Locked 0 ∧
      (s.inner.received 512 0).map (fun v => firstByte v.src) = [0, 1, 2, 3] ∧
      s.inner.done.map (fun w => firstByte w.src) = [0, 1, 3, 2] ∧
      s.inner.front.disk.dev (0, 0) = bytesOf 2 0 ∧
      ¬ Cache.Rwt.Sequential 512 (fun _ => 0) 0 s := by
  constructor
  · obtain ⟨s, hs⟩ : ∃ s, Raidsp.afterRun firstHeld (Raidsp.queuedRun 3) = some s :=
      Option.isSome_iff_exists.mp (by decide +kernel)
    have hrun := Lts.run_of_exec (fun l hl s => Raidsp.queuedRun_succeeding hl s) hs
    have hend : (Raidsp.afterRun firstHeld (Raidsp.queuedRun 3)).all (fun s =>
        s.Quiet ∧ ¬ s.locks.Locked 0 ∧
        (s.inner.received Raidsp.smallRaid 0).map (fun v => firstByte v.src) = [0, 1, 2, 3] ∧
        s.inner.done.map (fun w => firstByte w.src) = [0, 1, 3, 2] ∧
        s.inner.disk.dev (Raidsp.smallRaid.loc 0 0) = bytesOf 2 0 ∧
        (s.inner.received Raidsp.smallRaid 0).map (fun v => firstByte v.src) ≠ (((s.inner.done ++
          s.active ++ (s.pending ++ making s.issue)).map Raidsp.SubWrite.toSlice).filter
            fun v => v.stripe == 0).map fun v => firstByte v.src) = true := by decide +kernel
    simp only [hs, Option.all_some, decide_eq_true_eq] at hend
    obtain ⟨hq, hl, hr, hd, hb, hn⟩ := hend
    exact ⟨s, hrun, hq, hl, hr, hd, hb, Raidsp.not_sequential _ hn⟩
  · obtain ⟨s, hs⟩ : ∃ s, Cache.Rwt.afterRun firstHeld (Cache.Rwt.queuedRun 3) = some s :=
      Option.isSome_iff_exists.mp (by decide +kernel)
    have hrun := Lts.run_of_exec (fun l hl s => Cache.Rwt.queuedRun_succeeding hl s) hs
    have hend : (Cache.Rwt.afterRun firstHeld (Cache.Rwt.queuedRun 3)).all (fun s =>
        s.Quiet ∧ ¬ s.locks.Locked 0 ∧
        (s.inner.received 512 0).map (fun v => firstByte v.src) = [0, 1, 2, 3] ∧
        s.inner.done.map (fun w => firstByte w.src) = [0, 1, 3, 2] ∧
        s.inner.front.disk.dev (0, 0) = bytesOf 2 0 ∧
        (s.inner.received 512 0).map (fun v => firstByte v.src) ≠ (((s.inner.done ++
          s.active ++ (s.pending ++ making s.issue)).map fun w => w.toSlice).filter
            fun v => v.chunkId == 0).map fun v => firstByte v.src) = true := by decide +kernel
    simp only [hs, Option.all_some, decide_eq_true_eq] at hend
    obtain ⟨hq, hl, hr, hd, hb, hn⟩ := hend
    exact ⟨s, hrun, hq, hl, hr, hd, hb, Cache.Rwt.not_sequential _ hn⟩

end Ublk
