import Ublk.Lib.Runs
import Ublk.Lib.Serial
import Mathlib.Data.List.Nodup
import Mathlib.Data.List.Perm.Basic

/-!
Lock discipline. As long as no restart of a waiting job reports a failure, every
locked key has exactly one owner and no lock precondition fails.
-/
namespace Serial

open Shared

variable {J σ R A F : Type} {M : Machine J σ R A F} {s t : State J σ} {l : Label R A F}
  {j w : J} {p : J → Bool} {xs ys : List J} {k : Nat}

theorem popFirst_none (h : popFirst p xs = none) : ∀ x ∈ xs, p x = false := by
  unfold popFirst at h
  split at h
  · rename_i i z hi _
    obtain ⟨hlt, -⟩ := List.findIdx?_eq_some_iff_getElem.mp hi
    simp [hlt] at h
  · rename_i hne
    cases hi : xs.findIdx? p with
    | none => simpa using List.findIdx?_eq_none_iff.mp hi
    | some i =>
      cases hz : xs.getLast? with
      | none => simp [List.getLast?_eq_none_iff.mp hz]
      | some z => exact absurd hz (hne i z hi)

/-- The last element takes the place of the one that is taken out. -/
theorem popFirst_cases (h : popFirst p xs = some (w, ys)) : ∃ as bs, xs = as ++ w :: bs ∧
    (∀ a ∈ as, p a = false) ∧ p w = true ∧
    (bs = [] ∧ ys = as ∨ ∃ cs z, bs = cs ++ [z] ∧ ys = as ++ z :: cs) := by
  unfold popFirst at h
  split at h
  · rename_i i z hi hz
    obtain ⟨hlt, hpw, hbefore⟩ := List.findIdx?_eq_some_iff_getElem.mp hi
    simp only [List.getElem?_eq_getElem hlt, Option.map_some, Option.some.injEq,
      Prod.mk.injEq] at h
    obtain ⟨rfl, rfl⟩ := h
    have hsplit : xs = xs.take i ++ xs[i] :: xs.drop (i + 1) := by simp
    have hset : xs.set i z = xs.take i ++ z :: xs.drop (i + 1) := by
      rw [List.set_eq_take_append_cons_drop, if_pos hlt]
    refine ⟨xs.take i, xs.drop (i + 1), hsplit, fun a ha => ?_, hpw, ?_⟩
    · obtain ⟨n, hn, rfl⟩ := List.mem_take_iff_getElem.mp ha
      simpa using hbefore n (by omega)
    · rw [hset]
      obtain hnil | ⟨cs, y, hcs⟩ := List.eq_nil_or_concat (xs.drop (i + 1))
      · simp [hnil]
      · rw [List.concat_eq_append] at hcs
        rw [hsplit, hcs, ← List.cons_append, ← List.append_assoc, List.getLast?_concat] at hz
        cases hz
        refine .inr ⟨cs, z, hcs, ?_⟩
        rw [hcs, ← List.cons_append, ← List.append_assoc, List.dropLast_concat]
  · cases h

theorem popFirst_some (h : popFirst p xs = some (w, ys)) : p w = true ∧ xs.Perm (w :: ys) := by
  obtain ⟨as, bs, rfl, -, hpw, ⟨rfl, rfl⟩ | ⟨cs, z, rfl, rfl⟩⟩ := popFirst_cases h
  · exact ⟨hpw, List.perm_append_singleton _ _⟩
  · refine ⟨hpw, List.perm_middle.trans (.cons _ ?_)⟩
    exact (List.perm_append_singleton _ _).append_left _

namespace Machine

variable (M) in
/-- The keys whose lock is held: by a busy job, or by a completer still searching. -/
def owners (s : State J σ) : List Nat :=
  s.active.map M.key ++ (s.frames.filter (fun f => !f.finish)).map (fun f => M.key f.job)

/-- A job keeps its key, and the locks cover the jobs of a request. -/
structure Keyed (M : Machine J σ R A F) : Prop where
  start : ∀ w σ, M.key (M.start w σ).2.1 = M.key w
  react : ∀ a j σ j' σ', M.react a j σ = some (j', σ') → M.key j' = M.key j
  park : ∀ j, M.key (M.park j) = M.key j
  split : ∀ r c σ, ∀ j ∈ (M.split r c σ).1, M.key j < M.extent r

/-- A job keeps its key. -/
structure Fixed (M : Machine J σ R A F) : Prop where
  start : ∀ w σ, M.key (M.start w σ).2.1 = M.key w
  react : ∀ a j σ j' σ', M.react a j σ = some (j', σ') → M.key j' = M.key j
  park : ∀ j, M.key (M.park j) = M.key j

theorem Keyed.fixed (h : M.Keyed) : M.Fixed := ⟨h.start, h.react, h.park⟩

@[simp] theorem locks_place : (M.place j s).locks = s.locks := by unfold place; split <;> rfl
@[simp] theorem pending_place : (M.place j s).pending = s.pending := by unfold place; split <;> rfl
@[simp] theorem issue_place : (M.place j s).issue = s.issue := by unfold place; split <;> rfl
@[simp] theorem dead_place : (M.place j s).dead = s.dead := by unfold place; split <;> rfl
@[simp] theorem rounds_place : (M.place j s).rounds = s.rounds := by unfold place; split <;> rfl

theorem mem_active_place :
    w ∈ (M.place j s).active ↔ w ∈ s.active ∨ (M.busy j = true ∧ w = j) := by
  unfold place; split <;> simp_all

/-- A job that is placed owns its key, whether it stays or ends. -/
theorem owners_place : (M.owners (M.place j s)).Perm (M.key j :: M.owners s) := by
  unfold place owners
  split
  · simp only [List.map_append, List.map_cons, List.map_nil, List.append_assoc]
    exact List.perm_middle
  · simp only [Bool.not_false, List.filter_cons_of_pos, List.map_cons]
    exact List.perm_middle

end Machine

open Machine

/-- Locks, owners and waiting jobs agree. -/
structure Disciplined (M : Machine J σ R A F) (s : State J σ) : Prop where
  nodup : (M.owners s).Nodup
  locked : ∀ k, s.locks.Locked k ↔ k ∈ M.owners s
  pending : ∀ w ∈ s.pending, s.locks.Locked (M.key w)
  busy : ∀ j ∈ s.active, M.busy j = true
  fits : ∀ q, s.issue = some q → ∀ j ∈ q.rest, M.key j < s.locks.size
  alive : s.dead = false

/-- The part of it that a lock out of range leaves alone. -/
structure Ordered (M : Machine J σ R A F) (s : State J σ) : Prop where
  nodup : (M.owners s).Nodup
  locked : ∀ k, s.locks.Locked k ↔ k ∈ M.owners s
  pending : ∀ w ∈ s.pending, s.locks.Locked (M.key w)
  busy : ∀ j ∈ s.active, M.busy j = true

theorem Disciplined.ordered (h : Disciplined M s) : Ordered M s :=
  ⟨h.nodup, h.locked, h.pending, h.busy⟩

/-- A restart made in this step reports no failure. -/
def Restarts (M : Machine J σ R A F) (s : State J σ) : Label R A F → Prop
  | .tick => ∀ f fs w ws, s.frames = f :: fs → f.finish = false →
      popFirst (fun w => M.key w == M.key f.job) s.pending = some (w, ws) →
      (M.start w s.inner).1 = 0
  | _ => True

theorem disciplined_initial (inner : σ) : Disciplined M (.initial inner) := by
  constructor <;> simp [State.initial, owners]

theorem ordered_initial (inner : σ) : Ordered M (.initial inner) :=
  (disciplined_initial inner).ordered

theorem ordered_unlock (h : Ordered M s) {f : Frame J} {fs : List (Frame J)}
    {locks : LockTable} (hf : s.frames = f :: fs) (hl : f.finish = false)
    (hp : popFirst (fun w => M.key w == M.key f.job) s.pending = none)
    (hu : s.locks.unlock (M.key f.job) = some locks) :
    Ordered M { s with
      locks, rounds := s.rounds ++ [f.acct], frames := ⟨f.job, f.acct, true⟩ :: fs } := by
  obtain ⟨-, -, hlocks⟩ := LockTable.unlock_some hu
  have hown : (M.owners s).Perm (M.key f.job :: M.owners { s with
      locks, rounds := s.rounds ++ [f.acct], frames := ⟨f.job, f.acct, true⟩ :: fs }) := by
    simp only [owners, hf, hl, Bool.not_false, Bool.not_true, List.filter_cons_of_pos,
      List.map_cons, Bool.false_eq_true, not_false_iff, List.filter_cons_of_neg]
    exact List.perm_middle
  obtain ⟨hnot, hnodup⟩ := List.nodup_cons.mp (hown.nodup_iff.mp h.nodup)
  refine ⟨hnodup, fun k => ?_, fun w hw => ?_, h.busy⟩
  · rw [hlocks, h.locked, hown.mem_iff, List.mem_cons]
    constructor
    · rintro ⟨hne, rfl | hk⟩
      · exact absurd rfl hne
      · exact hk
    · exact fun hk => ⟨fun he => hnot (he ▸ hk), .inr hk⟩
  · have hne := popFirst_none hp w hw
    exact (hlocks _).mpr ⟨by simpa using hne, h.pending w hw⟩

theorem ordered_restart (hK : M.Fixed) (h : Ordered M s) {f : Frame J}
    {fs : List (Frame J)} {pending : List J} (hf : s.frames = f :: fs) (hl : f.finish = false)
    (hp : popFirst (fun w => M.key w == M.key f.job) s.pending = some (w, pending))
    (hr : (M.start w s.inner).1 = 0) :
    Ordered M (M.place (M.start w s.inner).2.1 { s with
      rounds := s.rounds ++ [f.acct], pending, inner := (M.start w s.inner).2.2
      frames := (if (M.start w s.inner).1 = 0 then ⟨f.job, f.acct, true⟩
        else ⟨f.job, M.ident w, false⟩) :: fs }) := by
  obtain ⟨hkey, hperm⟩ := popFirst_some hp
  have hkey : M.key w = M.key f.job := by simpa using hkey
  rw [if_pos hr]
  have hown : (M.owners s).Perm (M.owners (M.place (M.start w s.inner).2.1 { s with
      rounds := s.rounds ++ [f.acct], pending, inner := (M.start w s.inner).2.2
      frames := ⟨f.job, f.acct, true⟩ :: fs })) := by
    refine List.Perm.trans ?_ owners_place.symm
    rw [hK.start, hkey]
    simp only [owners, hf, hl, Bool.not_false, Bool.not_true, List.filter_cons_of_pos,
      List.map_cons, Bool.false_eq_true, not_false_iff, List.filter_cons_of_neg]
    exact List.perm_middle
  refine ⟨hown.nodup_iff.mp h.nodup, fun k => ?_, fun x hx => ?_, fun x hx => ?_⟩
  · rw [locks_place, h.locked, hown.mem_iff]
  · rw [locks_place]
    rw [pending_place] at hx
    exact h.pending x (hperm.mem_iff.mpr (.tail _ hx))
  · obtain hx | ⟨hb, rfl⟩ := mem_active_place.mp hx
    · exact h.busy x hx
    · exact hb

theorem ordered_launch (hK : M.Fixed) (h : Ordered M s) {c : Nat} {rest : List J}
    {locks : LockTable} (ht : s.locks.tryLock (M.key j) = some (true, locks)) :
    Ordered M (M.place (M.start j s.inner).2.1 { s with
      reqs := s.reqs.share c, locks, inner := (M.start j s.inner).2.2
      issue := some ⟨c, if (M.start j s.inner).1 = 0 then rest else [],
        (M.start j s.inner).1⟩ }) := by
  obtain ⟨hfree, hlocks⟩ := LockTable.tryLock_true ht
  have hown : (M.owners (M.place (M.start j s.inner).2.1 { s with
      reqs := s.reqs.share c, locks, inner := (M.start j s.inner).2.2
      issue := some ⟨c, if (M.start j s.inner).1 = 0 then rest else [],
        (M.start j s.inner).1⟩ })).Perm (M.key j :: M.owners s) := by
    have := owners_place (M := M) (j := (M.start j s.inner).2.1) (s := { s with
      reqs := s.reqs.share c, locks, inner := (M.start j s.inner).2.2
      issue := some ⟨c, if (M.start j s.inner).1 = 0 then rest else [],
        (M.start j s.inner).1⟩ })
    rwa [hK.start] at this
  refine ⟨?_, fun k => ?_, fun x hx => ?_, fun x hx => ?_⟩
  · rw [hown.nodup_iff, List.nodup_cons]
    exact ⟨fun hk => hfree ((h.locked _).mpr hk), h.nodup⟩
  · rw [locks_place, hown.mem_iff, List.mem_cons, hlocks, h.locked]
  · rw [pending_place] at hx
    rw [locks_place, hlocks]
    exact .inr (h.pending x hx)
  · obtain hx | ⟨hb, rfl⟩ := mem_active_place.mp hx
    · exact h.busy x hx
    · exact hb

theorem ordered_act (hK : M.Fixed) (h : Ordered M s) {i : Nat} {a : A} {j' : J}
    {inner : σ} (hj : s.active[i]? = some j) (hr : M.react a j s.inner = some (j', inner)) :
    Ordered M (M.place j' { s with active := s.active.eraseIdx i, inner }) := by
  obtain ⟨hlt, rfl⟩ := List.getElem?_eq_some_iff.mp hj
  have hown : (M.owners s).Perm
      (M.owners (M.place j' { s with active := s.active.eraseIdx i, inner })) := by
    refine List.Perm.trans ?_ owners_place.symm
    rw [hK.react _ _ _ _ _ hr, owners, owners]
    exact ((List.getElem_cons_eraseIdx_perm hlt).map M.key).symm.append_right _
  refine ⟨hown.nodup_iff.mp h.nodup, fun k => ?_, ?_, fun x hx => ?_⟩
  · rw [locks_place, h.locked, hown.mem_iff]
  · simpa using h.pending
  · obtain hx | ⟨hb, rfl⟩ := mem_active_place.mp hx
    · exact h.busy x (List.mem_of_mem_eraseIdx hx)
    · exact hb

theorem ordered_step (hK : M.Fixed) (h : Ordered M s) (hok : Restarts M s l)
    (hs : M.step s l = some t) : Ordered M t := by
  cases step_sound hs with
  | arrive hq =>
    exact ⟨h.nodup, fun k => LockTable.locked_extend.trans (h.locked k),
      fun w hw => LockTable.locked_extend.mpr (h.pending w hw), h.busy⟩
  | unlock hd hf hl hp hu => exact ordered_unlock h hf hl hp hu
  | @crash f fs hd hf hl hp hu =>
    refine absurd ((h.locked _).mpr ?_) (LockTable.unlock_none hu)
    simp [owners, hf, hl]
  | restart hd hf hl hp => exact ordered_restart hK h hf hl hp (hok _ _ _ _ hf hl hp)
  | @back f fs hd hf hl =>
    have hown : M.owners s = M.owners (M.back f fs s) := by simp [owners, Machine.back, hf, hl]
    exact ⟨hown ▸ h.nodup, fun k => hown ▸ h.locked k, h.pending, h.busy⟩
  | launch hd hf hi ht => exact ordered_launch hK h ht
  | @wait c j rest ret locks hd hf hi ht =>
    obtain ⟨hlocked, hlocks⟩ := LockTable.tryLock_false ht
    refine ⟨h.nodup, fun k => by rw [hlocks]; exact h.locked k, fun x hx => ?_, h.busy⟩
    rw [hlocks]
    obtain hx | hx := List.mem_append.mp hx
    · exact h.pending x hx
    · rw [List.mem_singleton.mp hx, hK.park]
      exact hlocked
  | overrun hd hf hi ht => exact ⟨h.nodup, h.locked, h.pending, h.busy⟩
  | conclude hd hf hi hr => exact ⟨h.nodup, h.locked, h.pending, h.busy⟩
  | act hq hj hr => exact ordered_act hK h hj hr
  | aside hq hr => exact ⟨h.nodup, h.locked, h.pending, h.busy⟩

/-- The locks cover the jobs of a request that comes in. -/
def Covers (M : Machine J σ R A F) (s : State J σ) (l : Label R A F) : Prop :=
  ∀ r, l = .arrive r → ∀ j ∈ (M.split r s.reqs.count s.inner).1, M.key j < M.extent r

/-- The locks cover the jobs that a request is yet to make, and the program goes on. -/
theorem fits_step (hc : Covers M s l) (h : Disciplined M s) (hs : M.step s l = some t) :
    (∀ q, t.issue = some q → ∀ j ∈ q.rest, M.key j < t.locks.size) ∧ t.dead = false := by
  cases step_sound hs with
  | @arrive r hq =>
    refine ⟨?_, h.alive⟩
    rintro _ ⟨⟩ j hj
    have := hc r rfl j hj
    simp only [arrive, LockTable.size_extend]
    omega
  | unlock hd hf hl hp hu =>
    obtain ⟨-, hsize, -⟩ := LockTable.unlock_some hu
    exact ⟨fun q hq j hj => hsize ▸ h.fits q hq j hj, h.alive⟩
  | @crash f fs hd hf hl hp hu =>
    refine absurd ((h.locked _).mpr ?_) (LockTable.unlock_none hu)
    simp [owners, hf, hl]
  | restart hd hf hl hp => exact ⟨by simpa using h.fits, by simpa using h.alive⟩
  | back hd hf hl => exact ⟨h.fits, h.alive⟩
  | launch hd hf hi ht =>
    refine ⟨fun q hq x hx => ?_, by simpa using h.alive⟩
    rw [issue_place] at hq
    cases hq
    rw [locks_place, LockTable.size_tryLock ht]
    split at hx
    · exact h.fits _ hi x (.tail _ hx)
    · cases hx
  | wait hd hf hi ht =>
    refine ⟨fun q hq x hx => ?_, h.alive⟩
    cases hq
    rw [LockTable.size_tryLock ht]
    exact h.fits _ hi x (.tail _ hx)
  | overrun hd hf hi ht =>
    have := LockTable.tryLock_none ht
    have := h.fits _ hi _ (.head _)
    omega
  | conclude hd hf hi hr => exact ⟨fun q hq => (by cases hq), h.alive⟩
  | act hq hj hr => exact ⟨by simpa using h.fits, by simpa using h.alive⟩
  | aside hq hr => exact ⟨h.fits, h.alive⟩

theorem disciplined_step (hK : M.Fixed) (hc : Covers M s l) (h : Disciplined M s)
    (hok : Restarts M s l) (hs : M.step s l = some t) : Disciplined M t := by
  obtain ⟨hnodup, hlocked, hpending, hbusy⟩ := ordered_step hK h.ordered hok hs
  obtain ⟨hfits, halive⟩ := fits_step hc h hs
  exact ⟨hnodup, hlocked, hpending, hbusy, hfits, halive⟩

theorem Machine.Keyed.covers (hK : M.Keyed) : Covers M s l := fun r _ => hK.split r _ _

theorem disciplined_run (hK : M.Keyed) {inner : σ}
    (h : Lts.Run M.step (Restarts M) (.initial inner) s) : Disciplined M s :=
  Lts.run_invariant h (disciplined_initial inner) fun _ _ _ hd hok hs =>
    disciplined_step hK.fixed hK.covers hd hok hs

theorem ordered_unlocked (h : Ordered M s) (hk : ¬ s.locks.Locked k) :
    (∀ j ∈ s.active, M.key j ≠ k) ∧ (∀ w ∈ s.pending, M.key w ≠ k) ∧
      ∀ f ∈ s.frames, f.finish = false → M.key f.job ≠ k := by
  refine ⟨fun j hj he => hk ?_, fun w hw he => hk (he ▸ h.pending w hw), fun f hf hl he => hk ?_⟩
  · rw [h.locked, ← he]
    exact List.mem_append_left _ (List.mem_map_of_mem hj)
  · rw [h.locked, ← he]
    exact List.mem_append_right _ (List.mem_map.mpr ⟨f, by simp [hf, hl], rfl⟩)

/-- Jobs whose completers are at work have ended. -/
theorem ended_step (h : ∀ f ∈ s.frames, M.busy f.job = false) (hs : M.step s l = some t) :
    ∀ f ∈ t.frames, M.busy f.job = false := by
  have hhead : ∀ {f : Frame J} {fs : List (Frame J)} {n : Nat} {b : Bool}, s.frames = f :: fs →
      ∀ g ∈ (⟨f.job, n, b⟩ :: fs : List (Frame J)), M.busy g.job = false := by
    intro f fs n b hf g hg
    rcases List.mem_cons.mp hg with rfl | hg
    · exact h f (hf ▸ .head _)
    · exact h g (hf ▸ .tail _ hg)
  have hplace : ∀ {u : State J σ} {j : J}, (∀ f ∈ u.frames, M.busy f.job = false) →
      ∀ f ∈ (M.place j u).frames, M.busy f.job = false := by
    intro u j hu f hf
    unfold place at hf
    split at hf
    · exact hu f hf
    · rename_i hb
      rcases List.mem_cons.mp hf with rfl | hf
      · simpa using hb
      · exact hu f hf
  cases step_sound hs with
  | arrive hq => exact h
  | unlock hd hf hl hp hu => exact hhead hf
  | crash hd hf hl hp hu => exact hhead hf
  | restart hd hf hl hp =>
    refine hplace ?_
    dsimp only
    split
    · exact hhead hf
    · exact hhead hf
  | back hd hf hl => exact fun g hg => h g (hf ▸ .tail _ hg)
  | launch hd hf hi ht => exact hplace h
  | wait hd hf hi ht => exact h
  | overrun hd hf hi ht => exact h
  | conclude hd hf hi hr => exact h
  | act hq hj hr => exact hplace h
  | aside hq hr => exact h

/-- The next step of the program unlocks the key: a completer has found no job that waits for it. -/
def Unlocks (M : Machine J σ R A F) (s : State J σ) (k : Nat) : Prop :=
  ∃ f fs, s.frames = f :: fs ∧ f.finish = false ∧ M.key f.job = k ∧
    popFirst (fun w => M.key w == k) s.pending = none

instance (M : Machine J σ R A F) (s : State J σ) (k : Nat) : Decidable (Unlocks M s k) :=
  decidable_of_iff (s.frames.head?.any (fun f => !f.finish && M.key f.job == k) = true ∧
      (popFirst (fun w => M.key w == k) s.pending).isNone = true) (by
    cases hf : s.frames <;> simp [Unlocks, hf, and_assoc])

/-- What makes an unlock of the key right. -/
structure Released (M : Machine J σ R A F) (s : State J σ) (k : Nat) : Prop where
  locked : s.locks.Locked k
  ended : ∃ f fs, s.frames = f :: fs ∧ M.key f.job = k ∧ M.busy f.job = false
  active : ∀ j ∈ s.active, M.key j ≠ k
  pending : ∀ w ∈ s.pending, M.key w ≠ k

/-- Each key has at most one job at work, and is unlocked only when that one has ended. -/
structure WellLocked (M : Machine J σ R A F) (s : State J σ) : Prop where
  one : (M.owners s).Nodup
  unlock : ∀ k, Unlocks M s k → Released M s k
  only : ∀ l t k, M.step s l = some t → s.locks.Locked k → ¬ t.locks.Locked k → Unlocks M s k

/-- A key stays locked unless a completer unlocks it. -/
theorem unlocks_of_freed {k : Nat} (hs : M.step s l = some t) (hk : s.locks.Locked k)
    (hn : ¬ t.locks.Locked k) : Unlocks M s k := by
  cases step_sound hs with
  | arrive hq => exact absurd (LockTable.locked_extend.mpr hk) hn
  | @unlock f fs locks hd hf hl hp hu =>
    obtain ⟨-, -, hlocks⟩ := LockTable.unlock_some hu
    have hkey : M.key f.job = k := by
      by_contra hne
      exact hn ((hlocks k).mpr ⟨Ne.symm hne, hk⟩)
    exact ⟨f, fs, hf, hl, hkey, hkey ▸ hp⟩
  | crash hd hf hl hp hu => exact absurd hk hn
  | restart hd hf hl hp => exact absurd (by rw [locks_place]; exact hk) hn
  | back hd hf hl => exact absurd hk hn
  | launch hd hf hi ht =>
    obtain ⟨-, hlocks⟩ := LockTable.tryLock_true ht
    rw [locks_place] at hn
    exact absurd ((hlocks k).mpr (.inr hk)) hn
  | wait hd hf hi ht =>
    obtain ⟨-, hlocks⟩ := LockTable.tryLock_false ht
    exact absurd ((hlocks k).mpr hk) hn
  | overrun hd hf hi ht => exact absurd hk hn
  | conclude hd hf hi hr => exact absurd hk hn
  | act hq hj hr => exact absurd (by rw [locks_place]; exact hk) hn
  | aside hq hr => exact absurd hk hn

theorem wellLocked_of_ordered (h : Ordered M s) (he : ∀ f ∈ s.frames, M.busy f.job = false) :
    WellLocked M s := by
  refine ⟨h.nodup, ?_, fun l t k => unlocks_of_freed⟩
  rintro k ⟨f, fs, hf, hl, rfl, hp⟩
  have hmem : M.key f.job ∈
      (s.frames.filter fun f => !f.finish).map fun f => M.key f.job :=
    List.mem_map.mpr ⟨f, by simp [hf, hl], rfl⟩
  refine ⟨(h.locked _).mpr (List.mem_append_right _ hmem), ⟨f, fs, hf, rfl, he f (hf ▸ .head _)⟩,
    fun j hj hkey => ?_, fun w hw => ?_⟩
  · exact (List.nodup_append.mp h.nodup).2.2 _ (List.mem_map_of_mem hj) _ hmem hkey
  · simpa using popFirst_none hp w hw

theorem wellLocked_run (hK : M.Fixed) {inner : σ}
    (h : Lts.Run M.step (Restarts M) (.initial inner) s) : WellLocked M s := by
  have hord : Ordered M s := Lts.run_invariant h (ordered_initial inner)
    fun _ _ _ hi hok hs => ordered_step hK hi hok hs
  have hended : ∀ f ∈ s.frames, M.busy f.job = false := by
    refine @Lts.run_invariant _ _ _ _ _ _ (fun s => ∀ f ∈ s.frames, M.busy f.job = false) h
      (fun f hf => ?_) fun _ _ _ hi _ hs => ended_step hi hs
    cases hf
  exact wellLocked_of_ordered hord hended

end Serial
