import Ublk.Lib.SerialShare

/-! An alarm is raised only for a failure that a client is told of. -/
namespace Shared.Requests

variable {t : Requests} {c d : Nat} {e : Int}

/-- The call for request `c` returned an error, or its completer ran with one. -/
def Told (t : Requests) (c : Nat) : Prop :=
  (∃ v, (t.req c).ret = some v ∧ v ≠ 0) ∨ ((t.req c).runs ≠ 0 ∧ (t.req c).err ≠ 0)

/-- Whoever raised an alarm told a client of a failure. -/
def Heeded (t : Requests) : Prop := 0 < t.alarms → ∃ c < t.count, t.Told c

theorem heeded_of_told (h : t.Heeded) {u : Requests} (ha : u.alarms = t.alarms)
    (hn : t.count ≤ u.count) (ht : ∀ c < t.count, t.Told c → u.Told c) : u.Heeded := fun hpos => by
  obtain ⟨c, hlt, hc⟩ := h (ha ▸ hpos)
  exact ⟨c, by omega, ht c hlt hc⟩

theorem heeded_empty : empty.Heeded := fun h => absurd h (Nat.lt_irrefl 0)

theorem heeded_create (h : t.Heeded) : t.create.Heeded := by
  refine heeded_of_told h rfl (Nat.le_succ _) fun c hlt hc => ?_
  unfold Told
  rwa [req_create, if_neg (by omega)]

theorem told_share (h : t.Told d) : (t.share c).Told d := by
  simpa [Told] using h

theorem told_setErr (h : t.Told d) : (t.setErr c e).Told d := by
  unfold Told
  rw [ret_setErr, runs_setErr, err_setErr]
  refine h.imp_right fun ⟨hr, he⟩ => ⟨hr, ?_⟩
  split
  · rename_i hd
    exact hd.2
  · exact he

theorem told_drop (h : t.Told d) : (t.drop c).Told d := by
  unfold Told
  rw [ret_drop, err_drop]
  refine h.imp_right fun ⟨hr, he⟩ => ⟨?_, he⟩
  by_cases hd : d = c
  · subst hd
    rw [runs_drop_self]
    omega
  · rwa [req_drop_of_ne t c d hd]

theorem heeded_share (h : t.Heeded) : (t.share c).Heeded :=
  heeded_of_told h rfl (Nat.le_refl _) fun _ _ => told_share

theorem heeded_setErr (h : t.Heeded) : (t.setErr c e).Heeded :=
  heeded_of_told h alarms_setErr (by simp) fun _ _ => told_setErr

theorem req_share_of_ne (h : d ≠ c) : (t.share c).req d = t.req d := by
  simp [share, h]

theorem req_setErr_of_ne (h : d ≠ c) : (t.setErr c e).req d = t.req d := by
  unfold setErr
  split
  · rfl
  · simp [h]

/-- The completer that runs with an error tells of it. -/
theorem heeded_drop (h : t.Heeded) (hc : c < t.count) : (t.drop c).Heeded := by
  intro hpos
  rw [count_drop]
  by_cases ha : 0 < t.alarms
  · obtain ⟨d, hlt, hd⟩ := h ha
    exact ⟨d, hlt, told_drop hd⟩
  · have hruns := runs_drop_self (t := t) (c := c)
    refine ⟨c, hc, .inr ?_⟩
    rw [err_drop]
    unfold drop at hpos
    split at hpos
    · rename_i hh
      rw [if_pos hh] at hruns
      dsimp only at hpos
      refine ⟨by omega, fun he => ?_⟩
      rw [if_pos he] at hpos
      exact ha hpos
    · exact absurd hpos ha

theorem heeded_returned (h : t.Heeded) (hc : c < t.count) (hr : (t.req c).ret = none) :
    (t.returned c e).Heeded := by
  refine heeded_drop (fun hpos => ?_) hc
  dsimp only at hpos
  by_cases he : e = 0
  · rw [if_pos he] at hpos
    obtain ⟨d, hlt, hd⟩ := h hpos
    refine ⟨d, hlt, ?_⟩
    by_cases hdc : d = c
    · subst hdc
      refine hd.imp (fun ⟨v, hv, _⟩ => ?_) fun ⟨hr, he⟩ => ?_
      · rw [hr] at hv
        cases hv
      · simpa using ⟨hr, he⟩
    · simpa [Told, hdc] using hd
  · exact ⟨c, hc, .inl ⟨e, by simp, he⟩⟩

/-- A call that returns an error tells of it itself. -/
theorem told_returned (he : e ≠ 0) : (t.returned c e).Told c :=
  told_drop (.inl ⟨e, by simp, he⟩)

theorem alarms_le_returned : t.alarms ≤ (t.returned c e).alarms := by
  refine Nat.le_trans ?_ alarms_le_drop
  dsimp only
  split <;> omega

end Shared.Requests

namespace Serial

open Shared Machine

variable {J σ R A F : Type} {M : Machine J σ R A F} {s t : State J σ} {l : Label R A F} {j : J}
  {outside : Nat → σ → Nat} {c : Nat}

theorem heeded_place (h : s.reqs.Heeded) : (M.place j s).reqs.Heeded := by
  unfold place
  split
  · exact h
  · exact Requests.heeded_setErr h

theorem alarms_place : (M.place j s).reqs.alarms = s.reqs.alarms := by
  unfold place
  split
  · rfl
  · exact Requests.alarms_setErr

theorem alarms_le_step
    (hA : ∀ f x q x' q', M.aside f x q = some (x', q') → q.alarms ≤ q'.alarms)
    (hs : M.step s l = some t) : s.reqs.alarms ≤ t.reqs.alarms := by
  cases step_sound hs with
  | restart hd hf hl hp => simp only [alarms_place, Nat.le_refl]
  | back hd hf hl =>
    refine Nat.le_trans (Nat.le_of_eq Requests.alarms_setErr.symm) Requests.alarms_le_drop
  | launch hd hf hi ht => rw [alarms_place]; exact Nat.le_refl _
  | conclude hd hf hi hr => exact Requests.alarms_le_returned
  | act hq hj hr => simp only [alarms_place, Nat.le_refl]
  | aside hq hr => exact hA _ _ _ _ _ hr
  | _ => exact Nat.le_refl _

/-- The requests that the state beside the jobs deals with keep to the rule. -/
theorem heeded_step (hA : ∀ f x q x' q', M.aside f x q = some (x', q') →
      (∀ c, outside c x ≠ 0 → c < q.count) → q.Heeded → q'.Heeded)
    (hc : Counted M outside s) (h : s.reqs.Heeded) (hs : M.step s l = some t) :
    t.reqs.Heeded := by
  cases step_sound hs with
  | arrive hq => exact Requests.heeded_create h
  | unlock hd hf hl hp hu => exact h
  | crash hd hf hl hp hu => exact h
  | restart hd hf hl hp => exact heeded_place h
  | @back f fs hd hf hl =>
    have hlt : M.owner f.job < s.reqs.count := by
      by_contra hn
      have hz := hc.balanced.beyond (M.owner f.job) (by omega)
      simp [shares, hf] at hz
    exact Requests.heeded_drop (Requests.heeded_setErr h) (by simpa using hlt)
  | launch hd hf hi ht => exact heeded_place (Requests.heeded_share h)
  | wait hd hf hi ht => exact Requests.heeded_share h
  | overrun hd hf hi ht => exact Requests.heeded_share h
  | @conclude q hd hf hi hr =>
    have hlt : q.client < s.reqs.count := by
      by_contra hn
      have : 0 < shares M outside s q.client := shares_pos hi
      have := hc.balanced.beyond q.client (by omega)
      omega
    refine Requests.heeded_returned h hlt ((hc.balanced.ret q.client hlt).mpr ?_)
    rw [hi]
    rfl
  | act hq hj hr => exact heeded_place h
  | aside hq hr =>
    refine hA _ _ _ _ _ hr (fun c hout => ?_) h
    by_contra hn
    have hz := hc.balanced.beyond c (by omega)
    unfold shares at hz
    omega

theorem req_place (hne : c ≠ M.owner j) : (M.place j s).reqs.req c = s.reqs.req c := by
  unfold place
  split
  · rfl
  · exact Requests.req_setErr_of_ne hne

theorem count_place : (M.place j s).reqs.count = s.reqs.count := by
  unfold place
  split
  · rfl
  · exact Requests.count_setErr _ _ _

/-- Requests are made by those who ask for something. -/
theorem count_step (hl : ∀ r, l ≠ .arrive r)
    (hA : ∀ f x q x' q', l = .aside f → M.aside f x q = some (x', q') → q'.count = q.count)
    (hs : M.step s l = some t) : t.reqs.count = s.reqs.count := by
  cases step_sound hs with
  | arrive hq => exact absurd rfl (hl _)
  | restart hd hf hl hp => exact count_place.trans rfl
  | back hd hf hl => exact (Requests.count_drop _ _).trans (Requests.count_setErr _ _ _)
  | launch hd hf hi ht => exact count_place.trans rfl
  | conclude hd hf hi hr => exact Requests.count_returned _ _ _
  | act hq hj hr => exact count_place.trans rfl
  | aside hq hr => exact hA _ _ _ _ _ rfl hr
  | _ => rfl

/-- Nothing changes about a request that is over. -/
theorem req_step (hS : Sharing M outside)
    (hA : ∀ f x q x' q', M.aside f x q = some (x', q') →
      ∀ c, outside c x = 0 → c < q.count → q'.req c = q.req c)
    (hc : Counted M outside s) (hlt : c < s.reqs.count) (hz : shares M outside s c = 0)
    (hs : M.step s l = some t) : t.reqs.req c = s.reqs.req c := by
  have hcall : ∀ q, s.issue = some q → c ≠ q.client := by
    rintro q hq rfl
    have : 0 < shares M outside s q.client := shares_pos hq
    omega
  simp only [shares, Nat.add_eq_zero_iff, List.countP_eq_zero, beq_iff_eq] at hz
  obtain ⟨⟨⟨⟨hpend, hact⟩, hframe⟩, -⟩, hout⟩ := hz
  cases step_sound hs with
  | arrive hq =>
    change s.reqs.create.req c = _
    rw [Requests.req_create, if_neg (by omega)]
  | unlock hd hf hl hp hu => rfl
  | crash hd hf hl hp hu => rfl
  | restart hd hf hl hp =>
    obtain ⟨-, hperm⟩ := popFirst_some hp
    refine (req_place ?_).trans rfl
    rw [hS.start]
    exact hpend _ (hperm.mem_iff.mpr (.head _))
  | @back f fs hd hf hl =>
    have hne : c ≠ M.owner f.job := hframe f (by simp [hf])
    exact (Requests.req_drop_of_ne _ _ _ hne).trans (Requests.req_setErr_of_ne hne)
  | launch hd hf hi ht =>
    have hown := hc.making _ hi _ (.head _)
    refine (req_place ?_).trans (Requests.req_share_of_ne (hcall _ hi))
    rw [hS.start, hown]
    exact hcall _ hi
  | wait hd hf hi ht => exact Requests.req_share_of_ne (hcall _ hi)
  | overrun hd hf hi ht => exact Requests.req_share_of_ne (hcall _ hi)
  | conclude hd hf hi hr =>
    refine (Requests.req_drop_of_ne _ _ _ (hcall _ hi)).trans ?_
    simp [hcall _ hi]
  | act hq hj hr =>
    refine (req_place ?_).trans rfl
    rw [hS.react _ _ _ _ _ hr]
    exact hact _ (List.mem_of_getElem? hj)
  | aside hq hr => exact hA _ _ _ _ _ hr c hout hlt

end Serial
