import Ublk.Lib.Runs
import Ublk.Lib.SerialTrace

/-!
What holds of the inner state and of each job, where neither holds without the other. It holds
whatever becomes of the locks. What may be asked for can be all that is asked for in the run.
-/
namespace Serial

open Shared Machine

variable {J σ R A F : Type} {M : Machine J σ R A F} {s t : State J σ} {l : Label R A F} {j : J}

/-- `waiting` of a job that is made or waits, `live` of one that was started, `P` of the inner
state. `okR` limits what may be asked for. -/
structure Together (M : Machine J σ R A F) (okR : R → Prop) (P : σ → Prop)
    (waiting live : J → Prop) : Prop where
  split : ∀ r c x, okR r → P x → P (M.split r c x).2 ∧ ∀ j ∈ (M.split r c x).1, waiting j
  park : ∀ j, waiting j → waiting (M.park j)
  start : ∀ w x, waiting w → P x → live (M.start w x).2.1 ∧ P (M.start w x).2.2
  react : ∀ a j x j' x', live j → P x → M.react a j x = some (j', x') → live j' ∧ P x'
  enter : ∀ j x, live j → P x → P (M.enter j x).2
  leave : ∀ j x, live j → P x → P (M.leave j x).2
  aside : ∀ f x q x' q', P x → M.aside f x q = some (x', q') → P x'

variable {okR : R → Prop} {P : σ → Prop} {waiting live : J → Prop}

structure Joined (P : σ → Prop) (waiting live : J → Prop) (s : State J σ) : Prop where
  inner : P s.inner
  active : ∀ j ∈ s.active, live j
  frames : ∀ f ∈ s.frames, live f.job
  pending : ∀ j ∈ s.pending, waiting j
  making : ∀ j ∈ making s.issue, waiting j

theorem joined_initial {x : σ} (h : P x) : Joined P waiting live (.initial x) := by
  constructor <;> simp [State.initial, Serial.making, h]

theorem joined_place (hP : Together M okR P waiting live) (h : Joined P waiting live s)
    (hj : live j) : Joined P waiting live (M.place j s) := by
  unfold place
  split
  · refine ⟨h.inner, fun y hy => ?_, h.frames, h.pending, h.making⟩
    obtain hy | hy := List.mem_append.mp hy
    · exact h.active y hy
    · exact List.mem_singleton.mp hy ▸ hj
  · refine ⟨hP.enter j _ hj h.inner, h.active, fun f hf => ?_, h.pending, h.making⟩
    obtain rfl | hf := List.mem_cons.mp hf
    · exact hj
    · exact h.frames f hf

/-- The head of the completers changes at most what it has done. -/
theorem frames_of_head {f : Frame J} {fs : List (Frame J)} {m : Nat} {b : Bool}
    (h : Joined P waiting live s) (hf : s.frames = f :: fs) :
    ∀ g ∈ ⟨f.job, m, b⟩ :: fs, live g.job := by
  intro g hg
  obtain rfl | hg := List.mem_cons.mp hg
  · exact h.frames f (by simp [hf])
  · exact h.frames g (by simp [hf, hg])

theorem joined_step (hP : Together M okR P waiting live) (h : Joined P waiting live s)
    (hok : ∀ r, l = .arrive r → okR r) (hs : M.step s l = some t) : Joined P waiting live t := by
  cases step_sound hs with
  | @arrive r hq =>
    obtain ⟨hinner, hjobs⟩ := hP.split r s.reqs.count s.inner (hok r rfl) h.inner
    exact ⟨hinner, h.active, h.frames, h.pending, hjobs⟩
  | unlock hd hf hl hp hu => exact ⟨h.inner, h.active, frames_of_head h hf, h.pending, h.making⟩
  | crash hd hf hl hp hu => exact ⟨h.inner, h.active, frames_of_head h hf, h.pending, h.making⟩
  | @restart f fs w pending hd hf hl hp =>
    obtain ⟨-, hperm⟩ := popFirst_some hp
    have hw := h.pending w (hperm.mem_iff.mpr (.head _))
    obtain ⟨hlive, hinner⟩ := hP.start w s.inner hw h.inner
    refine joined_place hP ⟨hinner, h.active, ?_, ?_, h.making⟩ hlive
    · dsimp only
      split
      · exact frames_of_head h hf
      · exact frames_of_head h hf
    · exact fun y hy => h.pending y (hperm.mem_iff.mpr (.tail _ hy))
  | @back f fs hd hf hl =>
    have hjob := h.frames f (by simp [hf])
    refine ⟨hP.leave _ _ hjob h.inner, h.active, fun g hg => ?_, h.pending, h.making⟩
    exact h.frames g (by rw [hf]; exact .tail _ hg)
  | @launch c j rest ret locks hd hf hi ht =>
    have hmake := h.making
    rw [hi] at hmake
    obtain ⟨hlive, hinner⟩ := hP.start j s.inner (hmake j (.head _)) h.inner
    refine joined_place hP ⟨hinner, h.active, h.frames, h.pending, fun y hy => ?_⟩ hlive
    dsimp only [Serial.making] at hy
    split at hy
    · exact hmake y (.tail _ hy)
    · cases hy
  | @wait c j rest ret locks hd hf hi ht =>
    have hmake := h.making
    rw [hi] at hmake
    refine ⟨h.inner, h.active, h.frames, fun y hy => ?_, fun y hy => hmake y (.tail _ hy)⟩
    obtain hy | hy := List.mem_append.mp hy
    · exact h.pending y hy
    · exact List.mem_singleton.mp hy ▸ hP.park j (hmake j (.head _))
  | @overrun c j rest ret hd hf hi ht =>
    have hmake := h.making
    rw [hi] at hmake
    exact ⟨h.inner, h.active, h.frames, h.pending, fun y hy => hmake y (.tail _ hy)⟩
  | conclude hd hf hi hr =>
    exact ⟨h.inner, h.active, h.frames, h.pending, fun y hy => by cases hy⟩
  | @act i a j j' inner hq hj hr =>
    have hlive := h.active j (List.mem_of_getElem? hj)
    obtain ⟨hlive', hinner⟩ := hP.react a j _ _ _ hlive h.inner hr
    exact joined_place hP ⟨hinner, fun y hy => h.active y (List.mem_of_mem_eraseIdx hy), h.frames,
      h.pending, h.making⟩ hlive'
  | aside hq hr =>
    exact ⟨hP.aside _ _ _ _ _ h.inner hr, h.active, h.frames, h.pending, h.making⟩

theorem joined_run {ok : State J σ → Label R A F → Prop} {x : σ}
    (hP : Together M okR P waiting live) (hok : ∀ s l r, ok s l → l = .arrive r → okR r) (h₀ : P x)
    (h : Lts.Run M.step ok (.initial x) s) : Joined P waiting live s :=
  Lts.run_invariant h (joined_initial h₀) fun _ _ _ hj ho hs =>
    joined_step hP hj (fun r hr => hok _ _ r ho hr) hs

/-- The inner state records the requests as they come. -/
structure Recording (M : Machine J σ R A F) (record : σ → List R) : Prop where
  split : ∀ r c x, record (M.split r c x).2 = record x ++ [r]
  start : ∀ w x, record (M.start w x).2.2 = record x
  react : ∀ a j x j' x', M.react a j x = some (j', x') → record x' = record x
  enter : ∀ j x, record (M.enter j x).2 = record x
  leave : ∀ j x, record (M.leave j x).2 = record x
  aside : ∀ f x q x' q', M.aside f x q = some (x', q') → record x' = record x

/-- The request that a label brings. -/
def Label.asked : Label R A F → Option R
  | .arrive r => some r
  | _ => none

variable {record : σ → List R} {P' : List R → σ → Prop} {waiting' live' : List R → J → Prop}

theorem record_place (hR : Recording M record) :
    record (M.place j s).inner = record s.inner := by
  unfold place
  split
  · rfl
  · exact hR.enter j s.inner

theorem recorded_step (hR : Recording M record) (s : State J σ) (l : Label R A F) (t : State J σ)
    (hs : M.step s l = some t) : (∀ r ∈ record s.inner, r ∈ record t.inner) ∧
      ∀ r, l.asked = some r → r ∈ record t.inner := by
  have hsame : record t.inner = record s.inner → (∀ r ∈ record s.inner, r ∈ record t.inner) ∧
      ∀ r, (none : Option R) = some r → r ∈ record t.inner :=
    fun he => ⟨fun r hr => he ▸ hr, fun r hr => nomatch hr⟩
  cases step_sound hs with
  | @arrive r hq =>
    have hsplit := hR.split r s.reqs.count s.inner
    dsimp only [Machine.arrive]
    rw [hsplit]
    refine ⟨fun w hw => List.mem_append_left _ hw, fun w hw => ?_⟩
    cases hw
    exact List.mem_append_right _ (.head _)
  | unlock hd hf hl hp hu => exact hsame rfl
  | crash hd hf hl hp hu => exact hsame rfl
  | restart hd hf hl hp => exact hsame ((record_place hR).trans (hR.start _ _))
  | back hd hf hl => exact hsame (hR.leave _ _)
  | launch hd hf hi ht => exact hsame ((record_place hR).trans (hR.start _ _))
  | wait hd hf hi ht => exact hsame rfl
  | overrun hd hf hi ht => exact hsame rfl
  | conclude hd hf hi hr => exact hsame rfl
  | act hq hj hr => exact hsame ((record_place hR).trans (hR.react _ _ _ _ _ hr))
  | aside hq hr => exact hsame (hR.aside _ _ _ _ _ hr)

/-- What holds of a run in which no more may be asked for than is asked for. -/
theorem joined_recorded {ok : State J σ → Label R A F → Prop} {x : σ} (hR : Recording M record)
    (hP : ∀ rs, Together M (fun r => r ∈ rs) (P' rs) (waiting' rs) (live' rs)) (h₀ : ∀ rs, P' rs x)
    (h : Lts.Run M.step ok (.initial x) s) :
    Joined (P' (record s.inner)) (waiting' (record s.inner)) (live' (record s.inner)) s := by
  refine joined_run (hP _) (fun _ l r hok hl => hok r ?_) (h₀ _)
    (Lts.run_recorded (recorded_step hR) h)
  rw [hl]
  rfl

end Serial
