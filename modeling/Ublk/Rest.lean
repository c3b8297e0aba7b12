import Ublk.Cache.Drain
import Ublk.Cache.OneWrite
import Ublk.Locking
import Ublk.Raidsp.Drain

/-!
Requests are completed. Once no more of them come in, writes that wait for a stripe or a chunk are
all started, whatever the order in which the handlers below move bytes and complete subqueries, and
with whatever errors.
-/
namespace Ublk

open Serial

namespace Raidsp

variable {G : Geometry} {E : Env}

/-- Nothing comes in, each effect moves some byte for the first time, and no waiting sub-write that
is started has its first submit turned down. -/
def Closes (G : Geometry) (E : Env) (s : State SubWrite Inner) (l : Label WriteReq Act Beside) :
    Prop :=
  Closing (fun a w => a.Moves w) (fun b x => b.Moves x) s l ∧ RestartAccepted G E s l

/-- From wherever a run leads, the steps that follow come to an end, and then each request has been
completed once, no stripe is locked and nothing waits; unless the program is about to start a waiting
sub-write that is turned down. -/
theorem acceptor_ends_at_rest (G : Geometry) (E : Env) (dev₀ : Addr → Byte) (s : State SubWrite Inner)
    (h : Lts.Run (acceptor G E).step (RestartAccepted G E) (.initial (.initial dev₀)) s) :
    Lts.Ends (acceptor G E).step (Closes G E)
      (fun t => Drained readsOf t ∨ ¬ RestartAccepted G E t .tick) s := by
  have hd := disciplined_run acceptor_keyed (Lts.run_mono (fun _ _ => restarts_iff.mpr) h)
  have hc := counted_run acceptor_sharing (fun _ => rfl) h hd.alive
  have hx : s.inner.Reading := by
    refine kept_run reading_rule ?_ (run_unguarded h)
    simp [Inner.Reading, Inner.initial]
  have hends := ends_drained acceptor_keyed.fixed acceptor_sharing reading_rule
    (acceptor_draining (G := G) (E := E)) hd hc hx
  simp only [restarts_iff] at hends
  exact hends

/-- With two sub-writes waiting. -/
theorem acceptor_ends_at_rest_two : ∃ s, afterRun firstHeld ((queuedRun 2).take 9) = some s ∧
    s.pending.length = 2 ∧ ∃ t, Lts.Run (acceptor smallRaid firstHeld).step
      (Closes smallRaid firstHeld) s t ∧ Drained readsOf t := by
  have hE : ∀ c i, (firstHeld.beh c i).Accepts :=
    fun c i => accepts_of_succeeds (firstHeld_succeeds c i)
  have hall : ∀ s l, RestartAccepted smallRaid firstHeld s l := fun s l => by
    cases l with
    | tick => exact fun _ _ _ _ _ _ _ _ _ => hE _ _
    | _ => trivial
  obtain ⟨s, hs, hp⟩ : ∃ s, afterRun firstHeld ((queuedRun 2).take 9) = some s ∧
      s.pending.length = 2 := by
    have hend : ((afterRun firstHeld ((queuedRun 2).take 9)).map fun s => s.pending.length) =
      some 2 := by decide +kernel
    exact Option.map_eq_some_iff.mp hend
  obtain ⟨t, ht, hrest⟩ := Lts.reaches_of_ends (acceptor_ends_at_rest smallRaid firstHeld _ s
    (Lts.run_of_exec (fun l _ s => hall s l) hs))
  exact ⟨s, hs, hp, t, ht, hrest.resolve_right (not_not.mpr (hall t .tick))⟩

end Raidsp

namespace Cache.Rwt

variable {sz : Nat} {E : Env} {s t : State} {l : Label}

/-- No waiting part that is started has its first submit turned down, and writes end an item below
2^64. -/
def Taken (sz : Nat) (E : Env) (s : State) (l : Label) : Prop :=
  RestartAccepted sz E s l ∧ ∀ rg src, l = .arrive (rg, src) → rg.off + rg.len + sz ≤ 2 ^ 64

def Closes (sz : Nat) (E : Env) (s : State) (l : Label) : Prop :=
  Closing (fun a w => a.Moves w) (fun b x => b.Moves x) s l ∧ RestartAccepted sz E s l

theorem disciplined_taken (hsz : 0 < sz) {x : Inner}
    (h : Lts.Run (machine sz E).step (Taken sz E) (.initial x) s) :
    Disciplined (machine sz E) s := by
  refine Lts.run_invariant h (disciplined_initial x) fun a l b hd hok hs => ?_
  refine disciplined_step machine_fixed ?_ hd (restarts_iff.mpr hok.1) hs
  rintro ⟨rg, src⟩ rfl w hw
  obtain ⟨v, hv, rfl⟩ := List.mem_map.mp hw
  exact lt_extent hsz (hok.2 rg src rfl) hv

/-- From wherever a run leads, the steps that follow come to an end, and then each request has been
completed once, no chunk is locked and nothing waits; unless the program is about to start a waiting
part that is turned down. -/
theorem rwt_ends_at_rest (n sz : Nat) (hn : 0 < n) (hsz : 0 < sz) (E : Env) (dev₀ : Addr → Byte)
    (s : State)
    (h : Lts.Run (machine sz E).step (Taken sz E) (.initial (.initial n sz hn hsz dev₀)) s) :
    Lts.Ends (machine sz E).step (Closes sz E)
      (fun t => Drained (fun c x => fillsOf c x.front) t ∨ ¬ RestartAccepted sz E t .tick) s := by
  have hd := disciplined_taken hsz h
  have hc := counted_run machine_sharing (fun _ => rfl) h hd.alive
  have hx : s.inner.front.Filling := by
    refine kept_run filling_rule ?_ (run_unguarded h)
    simp [Front.Filling, Inner.initial]
  have hends := ends_drained machine_fixed machine_sharing filling_rule
    machine_draining hd hc hx
  simp only [restarts_iff] at hends
  exact hends

theorem low_of_queuedRun {m : Nat} {rg : Range} {src : Nat → Byte}
    (h : .arrive (rg, src) ∈ queuedRun m) : rg.off + rg.len + 512 ≤ 2 ^ 64 := by
  simp only [queuedRun, List.mem_append, List.mem_cons, List.not_mem_nil, or_false,
    List.mem_flatMap, List.mem_replicate, reduceCtorEq, and_false] at h
  obtain ⟨c, -, he⟩ := h
  cases he
  decide

/-- With two parts waiting. -/
theorem rwt_ends_at_rest_two : ∃ s, afterRun firstHeld ((queuedRun 2).take 9) = some s ∧
    s.pending.length = 2 ∧ ∃ t, Lts.Run (machine 512 firstHeld).step (Closes 512 firstHeld) s t ∧
      Drained (fun c x => fillsOf c x.front) t := by
  have hE : ∀ c i, (firstHeld.beh c i).Accepts :=
    fun c i => accepts_of_succeeds (firstHeld_succeeds c i)
  have hall : ∀ s l, RestartAccepted 512 firstHeld s l := fun s l => by
    cases l with
    | tick => exact fun _ _ _ _ _ _ _ => hE _ _
    | _ => trivial
  obtain ⟨s, hs, hp⟩ : ∃ s, afterRun firstHeld ((queuedRun 2).take 9) = some s ∧
      s.pending.length = 2 := by
    have hend : ((afterRun firstHeld ((queuedRun 2).take 9)).map fun s => s.pending.length) =
      some 2 := by decide +kernel
    exact Option.map_eq_some_iff.mp hend
  have htaken : ∀ l ∈ (queuedRun 2).take 9, ∀ s, Taken 512 firstHeld s l := by
    refine fun l hl s => ⟨hall s l, ?_⟩
    rintro rg src rfl
    exact low_of_queuedRun (List.mem_of_mem_take hl)
  obtain ⟨t, ht, hrest⟩ := Lts.reaches_of_ends (rwt_ends_at_rest 1 512 Nat.one_pos chunk_pos firstHeld _
    s (Lts.run_of_exec htaken hs))
  exact ⟨s, hs, hp, t, ht, hrest.resolve_right (not_not.mpr (hall t .tick))⟩

end Cache.Rwt
end Ublk
