import Ublk.Lib.SerialReport

/-!
Errors given at the end of a completer. A job that ended with an error has given it to its request
before the request's completer runs.
-/
namespace Serial

open Shared Machine

variable {J σ R A F T : Type} {M : Machine J σ R A F} {s t : State J σ} {l : Label R A F}
  {j : J} {tag : J → T} {made : σ → List T} {book : σ → List J} {x : σ}
  {outside : Nat → σ → Nat} {fails : J → Int} {ok : State J σ → Label R A F → Prop}

/-- `fails` is the error a job ends with, given when its completer is done. -/
structure Late (M : Machine J σ R A F) (fails : J → Int) : Prop where
  leave : ∀ j x, (M.leave j x).1 = fails j
  aside : ∀ f x q x' q', M.aside f x q = some (x', q') → q.Grows q'

/-- The request of a job that failed has an error, or the job's completer is at work. -/
def Told (M : Machine J σ R A F) (book : σ → List J) (fails : J → Int) (s : State J σ) : Prop :=
  ∀ j ∈ book s.inner, M.owner j < s.reqs.count ∧ (fails j ≠ 0 →
    (s.reqs.req (M.owner j)).err ≠ 0 ∨ ∃ f ∈ s.frames, f.job = j)

theorem told_of_grows (h : Told M book fails s) (hb : book t.inner = book s.inner)
    (hg : s.reqs.Grows t.reqs) (hf : ∀ f ∈ s.frames, ∃ g ∈ t.frames, g.job = f.job) :
    Told M book fails t := by
  intro j hj
  obtain ⟨hlt, htold⟩ := h j (hb ▸ hj)
  refine ⟨Nat.lt_of_lt_of_le hlt hg.1, fun he => ?_⟩
  obtain herr | ⟨f, hmem, rfl⟩ := htold he
  · exact .inl (hg.2 _ hlt herr)
  · exact .inr (hf f hmem)

theorem told_place (hT : Tracing M tag made book) (h : Told M book fails s)
    (hj : M.owner j < s.reqs.count) : Told M book fails (M.place j s) := by
  unfold place
  split
  · exact told_of_grows h rfl Requests.grows_refl fun f hf => ⟨f, hf, rfl⟩
  · intro i hi
    rw [(hT.enter j s.inner).2] at hi
    obtain hi | hi := List.mem_append.mp hi
    · obtain ⟨hlt, htold⟩ := h i hi
      refine ⟨by simpa using hlt, fun he => (htold he).imp (Requests.grows_setErr.2 _ hlt) ?_⟩
      rintro ⟨f, hf, rfl⟩
      exact ⟨f, .tail _ hf, rfl⟩
    · rw [List.mem_singleton.mp hi]
      exact ⟨by simpa using hj, fun _ => .inr ⟨_, .head _, rfl⟩⟩

/-- The completer that ends has told the request of its job. -/
theorem told_back (hT : Tracing M tag made book) (hL : Late M fails) (h : Told M book fails s)
    {f : Frame J} {fs : List (Frame J)} (hf : s.frames = f :: fs) :
    Told M book fails (M.back f fs s) := by
  intro j hj
  simp only [Machine.back, (hT.leave _ _).2] at hj
  obtain ⟨hlt, htold⟩ := h j hj
  refine ⟨by simpa [Machine.back] using hlt, fun he => ?_⟩
  simp only [Machine.back, hL.leave, Requests.err_drop, Requests.err_setErr]
  obtain herr | ⟨g, hg, rfl⟩ := htold he
  · left
    split
    · rename_i hc
      exact hc.2
    · exact herr
  · rw [hf] at hg
    obtain rfl | hg := List.mem_cons.mp hg
    · left
      rw [if_pos ⟨rfl, he⟩]
      exact he
    · exact .inr ⟨g, hg, rfl⟩

theorem told_step (hT : Tracing M tag made book) (hS : Sharing M outside) (hL : Late M fails)
    (hc : Counted M outside s) (h : Told M book fails s) (hs : M.step s l = some t) :
    Told M book fails t := by
  have hself : ∀ f ∈ s.frames, ∃ g ∈ s.frames, g.job = f.job := fun f hf => ⟨f, hf, rfl⟩
  have hhead : ∀ {f : Frame J} {fs : List (Frame J)} {m : Nat} {b : Bool}, s.frames = f :: fs →
      ∀ g ∈ s.frames, ∃ g' ∈ (⟨f.job, m, b⟩ :: fs), g'.job = g.job := by
    intro f fs m b hf g hg
    rw [hf] at hg
    obtain rfl | hg := List.mem_cons.mp hg
    · exact ⟨_, .head _, rfl⟩
    · exact ⟨g, .tail _ hg, rfl⟩
  cases step_sound hs with
  | arrive hq => exact told_of_grows h (hT.split _ _ _).2 Requests.grows_create hself
  | unlock hd hf hl hp hu => exact told_of_grows h rfl Requests.grows_refl (hhead hf)
  | crash hd hf hl hp hu => exact told_of_grows h rfl Requests.grows_refl (hhead hf)
  | @restart f fs w pending hd hf hl hp =>
    obtain ⟨-, hperm⟩ := popFirst_some hp
    have hpos : 0 < s.pending.countP fun j => M.owner w == M.owner j :=
      List.countP_pos_iff.mpr ⟨w, hperm.mem_iff.mpr (.head _), by simp⟩
    refine told_place hT (told_of_grows h (hT.start _ _).2.2 Requests.grows_refl ?_) ?_
    · intro g hg
      obtain ⟨g', hg', he⟩ := hhead (m := if (M.start w s.inner).1 = 0 then f.acct else M.ident w)
        (b := decide ((M.start w s.inner).1 = 0)) hf g hg
      refine ⟨g', ?_, he⟩
      dsimp only
      split <;> simp_all
    · rw [hS.start]
      exact (open_of_shares hc (c := M.owner w) (by unfold shares; omega)).1
  | back hd hf hl => exact told_back hT hL h hf
  | @launch c j rest ret locks hd hf hi ht =>
    refine told_place hT (told_of_grows h (hT.start _ _).2.2 Requests.grows_share hself) ?_
    rw [hS.start, hc.making _ hi j (.head _)]
    exact (open_of_shares hc (shares_pos hi)).1
  | wait hd hf hi ht => exact told_of_grows h rfl Requests.grows_share hself
  | overrun hd hf hi ht => exact told_of_grows h rfl Requests.grows_share hself
  | conclude hd hf hi hr => exact told_of_grows h rfl Requests.grows_returned hself
  | @act i a j j' inner hq hj hr =>
    have hpos : 0 < s.active.countP fun y => M.owner j == M.owner y :=
      List.countP_pos_iff.mpr ⟨j, List.mem_of_getElem? hj, by simp⟩
    refine told_place hT (told_of_grows h (hT.react _ _ _ _ _ hr).2.2 Requests.grows_refl hself) ?_
    rw [hS.react _ _ _ _ _ hr]
    exact (open_of_shares hc (c := M.owner j) (by unfold shares; omega)).1
  | aside hq hr =>
    exact told_of_grows h (hT.aside _ _ _ _ _ hr).2 (hL.aside _ _ _ _ _ hr) hself

/-- A completer at work keeps its job's request open. -/
theorem err_of_told (h : Told M book fails s) (hc : Counted M outside s) (hj : j ∈ book s.inner)
    (he : fails j ≠ 0) (hr : (s.reqs.req (M.owner j)).runs ≠ 0) :
    (s.reqs.req (M.owner j)).err ≠ 0 := by
  refine ((h j hj).2 he).resolve_right ?_
  rintro ⟨f, hf, rfl⟩
  have hpos : 0 < s.frames.countP fun g => M.owner f.job == M.owner g.job :=
    List.countP_pos_iff.mpr ⟨f, hf, by simp⟩
  exact hr (open_of_shares hc (c := M.owner f.job) (by unfold shares; omega)).2

/-- When the completer of a request runs it is told of each job that failed. -/
theorem told_run (hT : Tracing M tag made book) (hS : Sharing M outside) (hL : Late M fails)
    (hb : book x = []) (ho : ∀ c, outside c x = 0) (h : Lts.Run M.step ok (.initial x) s)
    (hj : j ∈ book s.inner) (he : fails j ≠ 0) (hr : (s.reqs.req (M.owner j)).runs ≠ 0) :
    (s.reqs.req (M.owner j)).err ≠ 0 := by
  have hI : (s.dead = false → Counted M outside s ∧ Told M book fails s) ∧
      ∀ j ∈ book s.inner, fails j ≠ 0 → (s.reqs.req (M.owner j)).runs ≠ 0 →
        (s.reqs.req (M.owner j)).err ≠ 0 := by
    refine Lts.run_invariant (I := fun s => (s.dead = false →
      Counted M outside s ∧ Told M book fails s) ∧ ∀ j ∈ book s.inner, fails j ≠ 0 →
        (s.reqs.req (M.owner j)).runs ≠ 0 → (s.reqs.req (M.owner j)).err ≠ 0) h ?_ ?_
    · refine ⟨fun _ => ⟨counted_initial x ho, ?_⟩, ?_⟩
      · intro j hj
        simp [State.initial, hb] at hj
      · intro j hj
        simp [State.initial, hb] at hj
    · rintro a l b ⟨ha, -⟩ - hs
      obtain ⟨hc, ht⟩ := ha (dead_of_step hs)
      have ht' := told_step hT hS hL hc ht hs
      refine ⟨fun hd => ⟨counted_step hS hc hs hd, ht'⟩, fun j hj he hr => ?_⟩
      cases hd : b.dead with
      | false => exact err_of_told ht' (counted_step hS hc hs hd) hj he hr
      | true =>
        obtain ⟨-, hinner, -, -, hreq⟩ := same_of_dead hs hd
        obtain ⟨-, herr, hruns⟩ := hreq (M.owner j)
        rw [herr]
        exact err_of_told ht hc (hinner ▸ hj) he (hruns ▸ hr)
  exact hI.2 j hj he hr

end Serial
