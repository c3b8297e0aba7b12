import Ublk.Order

/-!
The locks of stripes and chunks. They are opened by their holders alone in runs in which no write
that was waiting is turned down as it is started.
-/
namespace Ublk

open Serial

namespace Cache.Rwt

variable {sz : Nat} {E : Env} {w : ChunkWrite} {x : Inner} {s : State} {l : Label}

/-- The first submit that `process` makes for the part is not turned down: that of the part itself
if it fills its chunk or the chunk is cached, else that of the read. -/
def Accepted (sz : Nat) (E : Env) (w : ChunkWrite) (x : Inner) : Prop :=
  (E.beh (decide (¬ w.size < sz) || (x.front.cache.get w.chunkId).isSome)
    x.front.disk.next).Accepts

theorem process_eq_zero : (process sz E w x).1 = 0 ↔ Accepted sz E w x := by
  have hsubmit : ∀ {q : Query} {v : Sub} {d : Disk}, (q.submit E v d).1 = 0 ↔
      (E.beh q.write d.next).Accepts := by
    intro q v d
    unfold Query.submit
    cases E.beh q.write d.next with
    | reject e he => simp [Outcome.Accepts, he]
    | held => simp [Outcome.Accepts]
    | done e hit => simp [Outcome.Accepts]
  unfold process Accepted
  by_cases hpart : w.size < sz
  · rw [if_neg (not_not.mpr hpart)]
    dsimp only
    split
    · rename_i hz
      rw [size_findMutable.mp hz]
      simp only [hpart, not_true_eq_false, decide_false, Option.isSome_none, Bool.or_false]
      exact hsubmit
    · rename_i hz
      obtain ⟨d, hd⟩ := Option.ne_none_iff_exists'.mp fun hn => hz (size_findMutable.mpr hn)
      simp only [hd, Option.isSome_some, Bool.or_true]
      exact hsubmit
  · rw [if_pos hpart]
    simp only [hpart, not_false_eq_true, decide_true, Bool.true_or]
    exact hsubmit

/-- A step in which no waiting part that is started has its first submit turned down. -/
def RestartAccepted (sz : Nat) (E : Env) (s : State) : Label → Prop
  | .tick => ∀ f fs w ws, s.frames = f :: fs → f.finish = false →
      popFirst (fun w => w.chunkId == f.job.chunkId) s.pending = some (w, ws) →
      Accepted sz E w s.inner
  | _ => True

theorem restarts_iff : Restarts (machine sz E) s l ↔ RestartAccepted sz E s l := by
  cases l with
  | tick =>
    refine forall₄_congr fun f fs w ws => ?_
    rw [← process_eq_zero]
    rfl
  | _ => exact Iff.rfl

end Cache.Rwt

/-- Whatever the handlers below reject or fail otherwise, and in any order of steps. -/
theorem wellLocked (E : Env) (dev₀ : Addr → Byte) :
    (∀ (G : Raidsp.Geometry) (s : Serial.State Raidsp.SubWrite Raidsp.Inner),
      Lts.Run (Raidsp.acceptor G E).step (Raidsp.RestartAccepted G E) (.initial (.initial dev₀)) s →
      WellLocked (Raidsp.acceptor G E) s) ∧
    ∀ (n sz : Nat) (hn : 0 < n) (hsz : 0 < sz) (s : Cache.Rwt.State),
      Lts.Run (Cache.Rwt.machine sz E).step (Cache.Rwt.RestartAccepted sz E)
        (.initial (.initial n sz hn hsz dev₀)) s → WellLocked (Cache.Rwt.machine sz E) s := by
  constructor
  · intro G s h
    exact wellLocked_run Raidsp.acceptor_keyed.fixed
      (Lts.run_mono (fun _ _ => Raidsp.restarts_iff.mpr) h)
  · intro n sz hn hsz s h
    exact wellLocked_run Cache.Rwt.machine_fixed
      (Lts.run_mono (fun _ _ => Cache.Rwt.restarts_iff.mpr) h)

/-- With two writes waiting, which are all started in the end. -/
theorem wellLocked_two :
    (∃ s, Raidsp.afterRun firstHeld (Raidsp.queuedRun 2) = some s ∧
      WellLocked (Raidsp.acceptor Raidsp.smallRaid firstHeld) s) ∧
    ∃ s, Cache.Rwt.afterRun firstHeld (Cache.Rwt.queuedRun 2) = some s ∧
      WellLocked (Cache.Rwt.machine 512 firstHeld) s := by
  have hE : ∀ c i, (firstHeld.beh c i).Accepts :=
    fun c i => accepts_of_succeeds (firstHeld_succeeds c i)
  constructor
  · obtain ⟨s, hs⟩ : ∃ s, Raidsp.afterRun firstHeld (Raidsp.queuedRun 2) = some s :=
      Option.isSome_iff_exists.mp (by decide +kernel)
    refine ⟨s, hs, (wellLocked firstHeld _).1 _ s (Lts.run_of_exec (fun l _ s => ?_) hs)⟩
    cases l with
    | tick => exact fun _ _ _ _ _ _ _ _ _ => hE _ _
    | _ => trivial
  · obtain ⟨s, hs⟩ : ∃ s, Cache.Rwt.afterRun firstHeld (Cache.Rwt.queuedRun 2) = some s :=
      Option.isSome_iff_exists.mp (by decide +kernel)
    refine ⟨s, hs, (wellLocked firstHeld _).2 1 512 Nat.one_pos Cache.Rwt.chunk_pos s
      (Lts.run_of_exec (fun l _ s => ?_) hs)⟩
    cases l with
    | tick => exact fun _ _ _ _ _ _ _ => hE _ _
    | _ => trivial

/-- The first submit is kept, up to the `m`-th they are carried out at once, and the others are
turned down. -/
def refusedFrom (m : Nat) : Env where
  beh _ i := if i = 0 then .held else if i < m then .done 0 fun _ => true else .refused
  junk _ _ := 0

/-- A waiting write is turned down as it is started. Its completer unlocks the key, and then so does
the one that started it, which looks for a waiting write once more. -/
theorem unlocked_twice :
    (∃ s t, Lts.Run (Raidsp.acceptor Raidsp.smallRaid (refusedFrom 3)).step (fun _ _ => True)
        (.initial (.initial fun _ => 0)) s ∧
      Unlocks (Raidsp.acceptor Raidsp.smallRaid (refusedFrom 3)) s 0 ∧ ¬ s.locks.Locked 0 ∧
      (Raidsp.acceptor Raidsp.smallRaid (refusedFrom 3)).step s .tick = some t ∧ t.dead = true) ∧
    ∃ s t, Lts.Run (Cache.Rwt.machine 512 (refusedFrom 1)).step (fun _ _ => True)
        (.initial (.initial 1 512 Nat.one_pos Cache.Rwt.chunk_pos fun _ => 0)) s ∧
      Unlocks (Cache.Rwt.machine 512 (refusedFrom 1)) s 0 ∧ ¬ s.locks.Locked 0 ∧
      (Cache.Rwt.machine 512 (refusedFrom 1)).step s .tick = some t ∧ t.dead = true := by
  constructor
  · obtain ⟨s, hs⟩ : ∃ s, Raidsp.afterRun (refusedFrom 3) ((Raidsp.queuedRun 1).take 11) =
        some s := Option.isSome_iff_exists.mp (by decide +kernel)
    have hend : (Raidsp.afterRun (refusedFrom 3) ((Raidsp.queuedRun 1).take 11)).all (fun s =>
        Unlocks (Raidsp.acceptor Raidsp.smallRaid (refusedFrom 3)) s 0 ∧ ¬ s.locks.Locked 0 ∧
          ((Raidsp.acceptor Raidsp.smallRaid (refusedFrom 3)).step s .tick).map (·.dead) = some true) =
        true := by decide +kernel
    simp only [hs, Option.all_some, decide_eq_true_eq] at hend
    obtain ⟨hu, hl, hd⟩ := hend
    obtain ⟨t, ht, hdead⟩ := Option.map_eq_some_iff.mp hd
    exact ⟨s, t, Lts.run_of_exec (fun _ _ _ => trivial) hs, hu, hl, ht, hdead⟩
  · obtain ⟨s, hs⟩ : ∃ s, Cache.Rwt.afterRun (refusedFrom 1) ((Cache.Rwt.queuedRun 1).take 11) =
        some s := Option.isSome_iff_exists.mp (by decide +kernel)
    have hend : (Cache.Rwt.afterRun (refusedFrom 1) ((Cache.Rwt.queuedRun 1).take 11)).all
        (fun s => Unlocks (Cache.Rwt.machine 512 (refusedFrom 1)) s 0 ∧ ¬ s.locks.Locked 0 ∧
          ((Cache.Rwt.machine 512 (refusedFrom 1)).step s .tick).map (·.dead) = some true) = true := by
      decide +kernel
    simp only [hs, Option.all_some, decide_eq_true_eq] at hend
    obtain ⟨hu, hl, hd⟩ := hend
    obtain ⟨t, ht, hdead⟩ := Option.map_eq_some_iff.mp hd
    exact ⟨s, t, Lts.run_of_exec (fun _ _ _ => trivial) hs, hu, hl, ht, hdead⟩

end Ublk
