import Ublk.Lib.SerialLocks

/-!
Ownership by key. What an unlocked key guards and what a busy job keeps of it are
two predicates; if starting a job turns the first into the second, acting on a job
keeps the second, and its end restores the first, then both hold in every state.
-/
namespace Serial

open Shared Machine

variable {J σ R A F : Type} {M : Machine J σ R A F} {s t : State J σ} {l : Label R A F}
  {j w : J} {k : Nat} {x x' : σ}

/-- `free`: what an unlocked key guards. `held`: what its busy job keeps of it.
`fit`: what a job is made with. `ended`: what a job ends with. -/
structure Guard (J σ : Type) where
  free : Nat → σ → Prop
  held : J → σ → Prop
  fit : J → Prop
  ended : J → Prop

variable {G : Guard J σ}

/-- A change that keeps whatever key `k` guards. -/
def Guard.Keeps (G : Guard J σ) (M : Machine J σ R A F) (k : Nat) (x x' : σ) : Prop :=
  (G.free k x → G.free k x') ∧ ∀ j, M.key j = k → G.held j x → G.held j x'

theorem keeps_refl : G.Keeps M k x x := ⟨id, fun _ _ => id⟩

/-- What becomes of a job that was started or acted on. -/
def Guard.Placed (G : Guard J σ) (M : Machine J σ R A F) (j : J) (x : σ) : Prop :=
  (M.busy j = true → G.held j x) ∧
    (M.busy j = false → G.ended j ∧ G.free (M.key j) (M.enter j x).2)

/-- The rules of ownership. `okA` and `okF` limit what may happen to jobs and beside them. -/
structure Guard.Sound (G : Guard J σ) (M : Machine J σ R A F) (okA : A → J → Prop)
    (okF : F → σ → Prop) : Prop where
  start : ∀ w x, G.fit w → G.free (M.key w) x → G.Placed M (M.start w x).2.1 (M.start w x).2.2
  react : ∀ a j x j' x', okA a j → G.held j x → M.react a j x = some (j', x') → G.Placed M j' x'
  start_other : ∀ w x k, G.fit w → k ≠ M.key w → G.Keeps M k x (M.start w x).2.2
  react_other : ∀ a j x j' x' k, okA a j → G.held j x → M.react a j x = some (j', x') →
    k ≠ M.key j → G.Keeps M k x x'
  enter_other : ∀ j x k, k ≠ M.key j → G.Keeps M k x (M.enter j x).2
  leave : ∀ j x k, G.ended j → G.Keeps M k x (M.leave j x).2
  split : ∀ r c x k, G.Keeps M k x (M.split r c x).2
  split_fit : ∀ r c x, ∀ j ∈ (M.split r c x).1, G.fit j
  park_fit : ∀ j, G.fit j → G.fit (M.park j)
  aside : ∀ f x q x' q' k, okF f x → M.aside f x q = some (x', q') → G.Keeps M k x x'

structure Owned (G : Guard J σ) (M : Machine J σ R A F) (s : State J σ) : Prop where
  free : ∀ k, ¬ s.locks.Locked k → G.free k s.inner
  held : ∀ j ∈ s.active, G.held j s.inner
  search : ∀ f ∈ s.frames, f.finish = false → G.free (M.key f.job) s.inner
  ended : ∀ f ∈ s.frames, G.ended f.job
  waiting : ∀ j ∈ s.pending, G.fit j
  making : ∀ q, s.issue = some q → ∀ j ∈ q.rest, G.fit j

/-- Ownership passes to a state with no new owners whose keys were all kept. -/
theorem owned_of_keeps (h : Owned G M s)
    (hfree : ∀ k, ¬ t.locks.Locked k → ¬ s.locks.Locked k ∧ G.Keeps M k s.inner t.inner)
    (hheld : ∀ j ∈ t.active, j ∈ s.active ∧ G.Keeps M (M.key j) s.inner t.inner)
    (hsearch : ∀ f ∈ t.frames, f.finish = false →
      f ∈ s.frames ∧ G.Keeps M (M.key f.job) s.inner t.inner)
    (hended : ∀ f ∈ t.frames, G.ended f.job)
    (hwait : ∀ j ∈ t.pending, G.fit j)
    (hmake : ∀ q, t.issue = some q → ∀ j ∈ q.rest, G.fit j) : Owned G M t where
  free k hk := (hfree k hk).2.1 (h.free k (hfree k hk).1)
  held j hj := (hheld j hj).2.2 j rfl (h.held j (hheld j hj).1)
  search f hf hl := (hsearch f hf hl).2.1 (h.search f (hsearch f hf hl).1 hl)
  ended := hended
  waiting := hwait
  making := hmake

/-- A job is placed where nothing else owns its key. -/
theorem owned_place {okA : A → J → Prop} {okF : F → σ → Prop} (hG : G.Sound M okA okF)
    (h : Owned G M s) (hj : G.Placed M j s.inner) (hlocked : s.locks.Locked (M.key j))
    (hact : ∀ x ∈ s.active, M.key x ≠ M.key j)
    (hframes : ∀ f ∈ s.frames, f.finish = false → M.key f.job ≠ M.key j) :
    Owned G M (M.place j s) := by
  unfold place
  cases hb : M.busy j with
  | true =>
    simp only [if_true]
    refine ⟨h.free, fun x hx => ?_, h.search, h.ended, h.waiting, h.making⟩
    obtain hx | hx := List.mem_append.mp hx
    · exact h.held x hx
    · exact List.mem_singleton.mp hx ▸ hj.1 hb
  | false =>
    simp only [Bool.false_eq_true, if_false]
    obtain ⟨hended, hfree⟩ := hj.2 hb
    have hkeep : ∀ k, k ≠ M.key j → G.Keeps M k s.inner (M.enter j s.inner).2 :=
      fun k hk => hG.enter_other j s.inner k hk
    refine ⟨fun k hk => ?_, fun x hx => ?_, fun f hf hl => ?_, fun f hf => ?_,
      h.waiting, h.making⟩
    · exact (hkeep k fun he => hk (he ▸ hlocked)).1 (h.free k hk)
    · exact (hkeep _ (hact x hx)).2 x rfl (h.held x hx)
    · obtain rfl | hf := List.mem_cons.mp hf
      · exact hfree
      · exact (hkeep _ (hframes f hf hl)).1 (h.search f hf hl)
    · obtain rfl | hf := List.mem_cons.mp hf
      · exact hended
      · exact h.ended f hf

variable {okA : A → J → Prop} {okF : F → σ → Prop}

theorem owned_restart (hK : M.Fixed) (hG : G.Sound M okA okF) (hd : Ordered M s)
    (h : Owned G M s) {f : Frame J} {fs : List (Frame J)} {pending : List J}
    (hf : s.frames = f :: fs) (hl : f.finish = false)
    (hp : popFirst (fun w => M.key w == M.key f.job) s.pending = some (w, pending))
    (hr : (M.start w s.inner).1 = 0) :
    Owned G M (M.place (M.start w s.inner).2.1 { s with
      rounds := s.rounds ++ [f.acct], pending, inner := (M.start w s.inner).2.2
      frames := (if (M.start w s.inner).1 = 0 then ⟨f.job, f.acct, true⟩
        else ⟨f.job, M.ident w, false⟩) :: fs }) := by
  obtain ⟨hkey, hperm⟩ := popFirst_some hp
  have hkey : M.key w = M.key f.job := by simpa using hkey
  have hfit : G.fit w := h.waiting w (hperm.mem_iff.mpr (.head _))
  have hown : M.owners s = s.active.map M.key ++
      M.key f.job :: (fs.filter (fun f => !f.finish)).map (fun f => M.key f.job) := by
    simp [owners, hf, hl]
  have hnd := List.nodup_middle.mp (hown ▸ hd.nodup)
  obtain ⟨hnot, -⟩ := List.nodup_cons.mp hnd
  have hlocked : s.locks.Locked (M.key w) := by rw [hd.locked, hown, hkey]; simp
  have hact : ∀ x ∈ s.active, M.key x ≠ M.key w := fun x hx he =>
    hnot (List.mem_append_left _ (List.mem_map.mpr ⟨x, hx, he.trans hkey⟩))
  have hframes : ∀ g ∈ fs, g.finish = false → M.key g.job ≠ M.key w := fun g hg hgl he =>
    hnot (List.mem_append_right _ (List.mem_map.mpr ⟨g, by simp [hg, hgl], he.trans hkey⟩))
  have hkeep : ∀ k, k ≠ M.key w → G.Keeps M k s.inner (M.start w s.inner).2.2 :=
    fun k hk => hG.start_other w s.inner k hfit hk
  have hplaced := hG.start w s.inner hfit (hkey ▸ h.search f (by simp [hf]) hl)
  rw [if_pos hr]
  apply owned_place hG _ hplaced
  · rw [hK.start]; exact hlocked
  · rw [hK.start]; exact hact
  · intro g hg hgl
    rw [hK.start]
    obtain rfl | hg := List.mem_cons.mp hg
    · cases hgl
    · exact hframes g hg hgl
  · apply owned_of_keeps h
    · exact fun k hk => ⟨hk, hkeep k fun he => hk (he ▸ hlocked)⟩
    · exact fun x hx => ⟨hx, hkeep _ (hact x hx)⟩
    · intro g hg hgl
      obtain rfl | hg := List.mem_cons.mp hg
      · cases hgl
      · exact ⟨by simp [hf, hg], hkeep _ (hframes g hg hgl)⟩
    · intro g hg
      obtain rfl | hg := List.mem_cons.mp hg
      · exact h.ended f (by simp [hf])
      · exact h.ended g (by simp [hf, hg])
    · exact fun x hx => h.waiting x (hperm.mem_iff.mpr (.tail _ hx))
    · exact h.making

theorem owned_launch (hK : M.Fixed) (hG : G.Sound M okA okF) (hd : Ordered M s)
    (h : Owned G M s) {c : Nat} {rest : List J} {ret : Int} {locks : LockTable}
    (hi : s.issue = some ⟨c, j :: rest, ret⟩)
    (ht : s.locks.tryLock (M.key j) = some (true, locks)) :
    Owned G M (M.place (M.start j s.inner).2.1 { s with
      reqs := s.reqs.share c, locks, inner := (M.start j s.inner).2.2
      issue := some ⟨c, if (M.start j s.inner).1 = 0 then rest else [],
        (M.start j s.inner).1⟩ }) := by
  obtain ⟨hfree, hlocks⟩ := LockTable.tryLock_true ht
  obtain ⟨hact, -, hframes⟩ := ordered_unlocked hd hfree
  have hfit := h.making _ hi
  have hkeep : ∀ k, k ≠ M.key j → G.Keeps M k s.inner (M.start j s.inner).2.2 :=
    fun k hk => hG.start_other j s.inner k (hfit j (.head _)) hk
  have hplaced := hG.start j s.inner (hfit j (.head _)) (h.free _ hfree)
  apply owned_place hG _ hplaced
  · rw [hK.start, hlocks]; exact .inl rfl
  · rw [hK.start]; exact hact
  · rw [hK.start]; exact hframes
  · apply owned_of_keeps h
    · intro k hk
      rw [hlocks, not_or] at hk
      exact ⟨hk.2, hkeep k hk.1⟩
    · exact fun x hx => ⟨hx, hkeep _ (hact x hx)⟩
    · exact fun f hf hl => ⟨hf, hkeep _ (hframes f hf hl)⟩
    · exact h.ended
    · exact h.waiting
    · intro q hq x hx
      cases hq
      split at hx
      · exact hfit x (.tail _ hx)
      · cases hx

theorem owned_act (hK : M.Fixed) (hG : G.Sound M okA okF) (hd : Ordered M s)
    (h : Owned G M s) {i : Nat} {a : A} {j' : J} {inner : σ} (hj : s.active[i]? = some j)
    (hok : okA a j) (hr : M.react a j s.inner = some (j', inner)) :
    Owned G M (M.place j' { s with active := s.active.eraseIdx i, inner }) := by
  obtain ⟨hlt, rfl⟩ := List.getElem?_eq_some_iff.mp hj
  have hheld := h.held _ (List.getElem_mem hlt)
  have hperm : (M.owners s).Perm (M.key s.active[i] ::
      ((s.active.eraseIdx i).map M.key ++
        (s.frames.filter (fun f => !f.finish)).map (fun f => M.key f.job))) :=
    ((List.getElem_cons_eraseIdx_perm hlt).map M.key).symm.append_right _
  obtain ⟨hnot, -⟩ := List.nodup_cons.mp (hperm.nodup_iff.mp hd.nodup)
  have hkey := hK.react _ _ _ _ _ hr
  have hlocked : s.locks.Locked (M.key s.active[i]) := by
    rw [hd.locked, hperm.mem_iff]; exact .head _
  have hact : ∀ y ∈ s.active.eraseIdx i, M.key y ≠ M.key s.active[i] := fun y hy he =>
    hnot (List.mem_append_left _ (List.mem_map.mpr ⟨y, hy, he⟩))
  have hframes : ∀ f ∈ s.frames, f.finish = false → M.key f.job ≠ M.key s.active[i] :=
    fun f hf hl he => hnot (List.mem_append_right _ (List.mem_map.mpr ⟨f, by simp [hf, hl], he⟩))
  have hkeep : ∀ k, k ≠ M.key s.active[i] → G.Keeps M k s.inner inner :=
    fun k hk => hG.react_other _ _ _ _ _ k hok hheld hr hk
  apply owned_place hG _ (hG.react _ _ _ _ _ hok hheld hr)
  · rw [hkey]; exact hlocked
  · rw [hkey]; exact hact
  · rw [hkey]; exact hframes
  · apply owned_of_keeps h
    · exact fun k hk => ⟨hk, hkeep k fun he => hk (he ▸ hlocked)⟩
    · exact fun y hy => ⟨List.mem_of_mem_eraseIdx hy, hkeep _ (hact y hy)⟩
    · exact fun f hf hl => ⟨hf, hkeep _ (hframes f hf hl)⟩
    · exact h.ended
    · exact h.waiting
    · exact h.making

/-- What a step must meet for the rules to apply. -/
def Guarded (okA : A → J → Prop) (okF : F → σ → Prop) (s : State J σ) : Label R A F → Prop
  | .act i a => ∀ j, s.active[i]? = some j → okA a j
  | .aside f => okF f s.inner
  | _ => True

theorem owned_step (hK : M.Fixed) (hG : G.Sound M okA okF) (hd : Ordered M s)
    (h : Owned G M s) (hr : Restarts M s l) (hok : Guarded okA okF s l)
    (hs : M.step s l = some t) : Owned G M t := by
  cases step_sound hs with
  | @arrive r hq =>
    apply owned_of_keeps h
    · intro k hk
      exact ⟨fun hl => hk (LockTable.locked_extend.mpr hl), hG.split _ _ _ k⟩
    · exact fun x hx => ⟨hx, hG.split _ _ _ _⟩
    · exact fun f hf _ => ⟨hf, hG.split _ _ _ _⟩
    · exact h.ended
    · exact h.waiting
    · intro q hq x hx
      cases hq
      exact hG.split_fit _ _ _ x hx
  | @unlock f fs locks hd' hf hl hp hu =>
    obtain ⟨-, -, hlocks⟩ := LockTable.unlock_some hu
    refine ⟨fun k hk => ?_, h.held, fun g hg hgl => ?_, fun g hg => ?_, h.waiting, h.making⟩
    · by_cases hkf : k = M.key f.job
      · subst hkf
        exact h.search f (by simp [hf]) hl
      · exact h.free k fun hlk => hk ((hlocks k).mpr ⟨hkf, hlk⟩)
    · obtain rfl | hg := List.mem_cons.mp hg
      · cases hgl
      · exact h.search g (by simp [hf, hg]) hgl
    · obtain rfl | hg := List.mem_cons.mp hg
      · exact h.ended f (by simp [hf])
      · exact h.ended g (by simp [hf, hg])
  | @crash f fs hd' hf hl hp hu =>
    refine absurd ((hd.locked _).mpr ?_) (LockTable.unlock_none hu)
    simp [owners, hf, hl]
  | restart hd' hf hl hp => exact owned_restart hK hG hd h hf hl hp (hr _ _ _ _ hf hl hp)
  | @back f fs hd' hf hl =>
    have hkeep : ∀ k, G.Keeps M k s.inner (M.leave f.job s.inner).2 :=
      fun k => hG.leave f.job s.inner k (h.ended f (by simp [hf]))
    apply owned_of_keeps h
    · exact fun k hk => ⟨hk, hkeep k⟩
    · exact fun x hx => ⟨hx, hkeep _⟩
    · exact fun g hg _ => ⟨hf ▸ .tail _ hg, hkeep _⟩
    · exact fun g hg => h.ended g (hf ▸ .tail _ hg)
    · exact h.waiting
    · exact h.making
  | launch hd' hf hi ht => exact owned_launch hK hG hd h hi ht
  | @wait c j rest ret locks hd' hf hi ht =>
    obtain ⟨-, hlocks⟩ := LockTable.tryLock_false ht
    have hfit := h.making _ hi
    apply owned_of_keeps h
    · exact fun k hk => ⟨fun hl => hk ((hlocks k).mpr hl), keeps_refl⟩
    · exact fun x hx => ⟨hx, keeps_refl⟩
    · exact fun f hf _ => ⟨hf, keeps_refl⟩
    · exact h.ended
    · intro x hx
      obtain hx | hx := List.mem_append.mp hx
      · exact h.waiting x hx
      · exact List.mem_singleton.mp hx ▸ hG.park_fit _ (hfit j (.head _))
    · intro q hq x hx
      cases hq
      exact hfit x (.tail _ hx)
  | overrun hd' hf hi ht =>
    refine ⟨h.free, h.held, h.search, h.ended, h.waiting, fun q hq x hx => ?_⟩
    cases hq
    exact h.making _ hi x (.tail _ hx)
  | conclude hd' hf hi hr' =>
    exact ⟨h.free, h.held, h.search, h.ended, h.waiting, fun q hq => (by cases hq)⟩
  | act hq hj hr' => exact owned_act hK hG hd h hj (hok _ hj) hr'
  | @aside f inner reqs hq hr' =>
    have hkeep : ∀ k, G.Keeps M k s.inner inner := fun k => hG.aside _ _ _ _ _ k hok hr'
    apply owned_of_keeps h
    · exact fun k hk => ⟨hk, hkeep k⟩
    · exact fun x hx => ⟨hx, hkeep _⟩
    · exact fun g hg _ => ⟨hg, hkeep _⟩
    · exact h.ended
    · exact h.waiting
    · exact h.making

/-- A property of the inner state by itself. -/
structure Kept (M : Machine J σ R A F) (okF : F → σ → Prop) (P : σ → Prop) : Prop where
  split : ∀ r c x, P x → P (M.split r c x).2
  start : ∀ w x, P x → P (M.start w x).2.2
  react : ∀ a j x j' x', M.react a j x = some (j', x') → P x → P x'
  enter : ∀ j x, P x → P (M.enter j x).2
  leave : ∀ j x, P x → P (M.leave j x).2
  aside : ∀ f x q x' q', okF f x → M.aside f x q = some (x', q') → P x → P x'

theorem kept_place {P : σ → Prop} (hP : Kept M okF P) (h : P s.inner) : P (M.place j s).inner := by
  unfold place
  split
  · exact h
  · exact hP.enter _ _ h

theorem kept_step {P : σ → Prop} (hP : Kept M okF P) (h : P s.inner) (hok : Guarded okA okF s l)
    (hs : M.step s l = some t) : P t.inner := by
  cases step_sound hs with
  | arrive hq => exact hP.split _ _ _ h
  | unlock hd hf hl hp hu => exact h
  | crash hd hf hl hp hu => exact h
  | restart hd hf hl hp => exact kept_place hP (hP.start _ _ h)
  | back hd hf hl => exact hP.leave _ _ h
  | launch hd hf hi ht => exact kept_place hP (hP.start _ _ h)
  | wait hd hf hi ht => exact h
  | overrun hd hf hi ht => exact h
  | conclude hd hf hi hr => exact h
  | act hq hj hr => exact kept_place hP (hP.react _ _ _ _ _ hr h)
  | aside hq hr => exact hP.aside _ _ _ _ _ hok hr h

theorem kept_run {P : σ → Prop} (hP : Kept M okF P) (h₀ : P x)
    (h : Lts.Run M.step (Guarded okA okF) (.initial x) s) : P s.inner :=
  Lts.run_invariant (I := fun s => P s.inner) h h₀ fun _ _ _ hx hok hs => kept_step hP hx hok hs

/-- A property of the inner state and the requests that more requests and errors do not spoil. -/
structure KeptBoth (M : Machine J σ R A F) (okF : F → σ → Prop) (P : σ → Requests → Prop) :
    Prop where
  grows : ∀ x q q', P x q → q.Grows q' → P x q'
  split : ∀ r c x q, P x q → P (M.split r c x).2 q
  start : ∀ w x q, P x q → P (M.start w x).2.2 q
  react : ∀ a j x j' x' q, M.react a j x = some (j', x') → P x q → P x' q
  enter : ∀ j x q, P x q → P (M.enter j x).2 q
  leave : ∀ j x q, P x q → P (M.leave j x).2 q
  aside : ∀ f x q x' q', okF f x → M.aside f x q = some (x', q') → P x q → P x' q'

section KeptBoth

variable {P : σ → Requests → Prop} (hP : KeptBoth M okF P)

include hP

theorem keptBoth_place (h : P s.inner s.reqs) : P (M.place j s).inner (M.place j s).reqs := by
  unfold place
  split
  · exact h
  · exact hP.grows _ _ _ (hP.enter _ _ _ h) Requests.grows_setErr

theorem keptBoth_step (h : P s.inner s.reqs) (hok : Guarded okA okF s l)
    (hs : M.step s l = some t) : P t.inner t.reqs := by
  cases step_sound hs with
  | arrive hq => exact hP.grows _ _ _ (hP.split _ _ _ _ h) Requests.grows_create
  | unlock hd hf hl hp hu => exact h
  | crash hd hf hl hp hu => exact h
  | restart hd hf hl hp => exact keptBoth_place hP (hP.start _ _ _ h)
  | back hd hf hl =>
    exact hP.grows _ _ _ (hP.leave _ _ _ h)
      (Requests.grows_trans Requests.grows_setErr Requests.grows_drop)
  | launch hd hf hi ht =>
    exact keptBoth_place hP (hP.start _ _ _ (hP.grows _ _ _ h Requests.grows_share))
  | wait hd hf hi ht => exact hP.grows _ _ _ h Requests.grows_share
  | overrun hd hf hi ht => exact hP.grows _ _ _ h Requests.grows_share
  | conclude hd hf hi hr => exact hP.grows _ _ _ h Requests.grows_returned
  | act hq hj hr => exact keptBoth_place hP (hP.react _ _ _ _ _ _ hr h)
  | aside hq hr => exact hP.aside _ _ _ _ _ hok hr h

end KeptBoth

/-- The rule for runs: what the keys guard holds in every state reached. -/
theorem owned_run (hK : M.Keyed) (hG : G.Sound M okA okF) (h₀ : ∀ k, G.free k x)
    (h : Lts.Run M.step (fun s l => Restarts M s l ∧ Guarded okA okF s l) (.initial x) s) :
    Disciplined M s ∧ Owned G M s := by
  have h₀ : Owned G M (.initial x) := by constructor <;> simp [State.initial, h₀]
  exact Lts.run_invariant (I := fun s => Disciplined M s ∧ Owned G M s) h
    ⟨disciplined_initial x, h₀⟩ fun a l b ho hok hs =>
      ⟨disciplined_step hK.fixed hK.covers ho.1 hok.1 hs,
        owned_step hK.fixed hG ho.1.ordered ho.2 hok.1 hok.2 hs⟩

end Serial
