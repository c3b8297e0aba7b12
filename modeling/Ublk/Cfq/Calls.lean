import Ublk.Cfq.Ring

/-! What one memory access does to the call it belongs to, and to what came in and out. -/
namespace Ublk.Cfq

variable {T : Type} {C : Ring} {s t : State T} {v : T} {base : Nat}

/-- The value that a call puts in. -/
def Push.value : Push T → Option T
  | .idle => none
  | .start v | .tailRead v _ | .store v _ | .publish v _ => some v

/-- How many accesses a call has yet to make; one more before it. -/
def Push.left : Push T → Nat
  | .idle => 5
  | .start _ => 4
  | .tailRead _ _ => 3
  | .store _ _ => 2
  | .publish _ _ => 1

def Pop.left : Pop T → Nat
  | .idle => 5
  | .start => 4
  | .headRead _ => 3
  | .load _ => 2
  | .publish _ _ => 1

theorem left_pos {p : Push T} : 0 < p.left := by
  cases p <;> simp [Push.left]

theorem pushed_of_log {r : Ret T} (h : t.log = s.log ++ [r]) :
    t.pushed = s.pushed ++ r.given.toList := by
  simp only [State.pushed, h, List.filterMap_append]
  cases r <;> rfl

theorem popped_of_log {r : Ret T} (h : t.log = s.log ++ [r]) :
    t.popped = s.popped ++ r.taken.toList := by
  simp only [State.popped, h, List.filterMap_append]
  cases r <;> rfl

/-- A call that puts `v` in goes on, finds the ring full, or has put it in. -/
inductive Pushes (s t : State T) (v : T) : Prop
  | on (hv : t.push.value = some v) (hl : t.push.left < s.push.left) (hlog : t.log = s.log)
  | full (hp : t.push = .idle) (hlog : t.log = s.log ++ [.full])
  | done (hp : t.push = .idle) (hlog : t.log = s.log ++ [.pushed v])

/-- A call goes on, finds the ring empty, or has taken `v` out. -/
inductive Pops (s t : State T) : Prop
  | on (hp : t.pop ≠ .idle) (hl : t.pop.left < s.pop.left) (hlog : t.log = s.log)
  | empty (hp : t.pop = .idle) (hlog : t.log = s.log ++ [.empty])
  | done (v : T) (hp : t.pop = .idle) (hlog : t.log = s.log ++ [.popped v])

theorem stepPush_cases (h : stepPush C s = some t) :
    t.pop = s.pop ∧ ∃ v, s.push.value = some v ∧ Pushes s t v := by
  unfold stepPush at h
  split at h <;> rename_i hp
  · cases h
  · cases h
    exact ⟨rfl, _, by rw [hp]; rfl, .on rfl (by simp [hp, Push.left]) rfl⟩
  · split at h
    · split at h
      · cases h
        exact ⟨rfl, _, by rw [hp]; rfl, .on rfl (by simp [hp, Push.left]) rfl⟩
      · cases h
    · cases h
      exact ⟨rfl, _, by rw [hp]; rfl, .full rfl rfl⟩
  · cases h
    exact ⟨rfl, _, by rw [hp]; rfl, .on rfl (by simp [hp, Push.left]) rfl⟩
  · cases h
    exact ⟨rfl, _, by rw [hp]; rfl, .done rfl rfl⟩

theorem stepPop_cases (h : stepPop C s = some t) :
    t.push = s.push ∧ s.pop ≠ .idle ∧ Pops s t := by
  unfold stepPop at h
  split at h <;> rename_i hp
  · cases h
  · cases h
    exact ⟨rfl, by simp [hp], .on (by simp) (by simp [hp, Pop.left]) rfl⟩
  · split at h
    · split at h
      · cases h
        exact ⟨rfl, by simp [hp], .on (by simp) (by simp [hp, Pop.left]) rfl⟩
      · cases h
    · cases h
      exact ⟨rfl, by simp [hp], .empty rfl rfl⟩
  · cases h
    exact ⟨rfl, by simp [hp], .on (by simp) (by simp [hp, Pop.left]) rfl⟩
  · cases h
    exact ⟨rfl, by simp [hp], .done _ rfl rfl⟩

theorem popped_stepPush (h : stepPush C s = some t) : t.popped = s.popped := by
  obtain ⟨-, v, -, hpush⟩ := stepPush_cases h
  cases hpush with
  | on _ _ hlog => rw [State.popped, hlog, State.popped]
  | full _ hlog => simp [popped_of_log hlog, Ret.taken]
  | done _ hlog => simp [popped_of_log hlog, Ret.taken]

theorem pushed_stepPop (h : stepPop C s = some t) : t.pushed = s.pushed := by
  obtain ⟨-, -, hpop⟩ := stepPop_cases h
  cases hpop with
  | on _ _ hlog => rw [State.pushed, hlog, State.pushed]
  | empty _ hlog => simp [pushed_of_log hlog, Ret.given]
  | done v _ hlog => simp [pushed_of_log hlog, Ret.given]

theorem callPush_cases (h : callPush v s = some t) :
    s.push = .idle ∧ t = { s with push := .start v } := by
  unfold callPush at h
  split at h
  · rename_i hp
    cases h
    exact ⟨hp, rfl⟩
  · cases h

theorem callPop_cases (h : callPop s = some t) : s.pop = .idle ∧ t = { s with pop := .start } := by
  unfold callPop at h
  split at h
  · rename_i hp
    cases h
    exact ⟨hp, rfl⟩
  · cases h

theorem inv_callPush (h : Inv C base s) : Inv C base { s with push := .start v } :=
  inv_local h rfl rfl rfl rfl rfl trivial h.pop

theorem inv_callPop (h : Inv C base s) : Inv C base { s with pop := .start } :=
  inv_local h rfl rfl rfl rfl rfl h.push trivial

/-- Something is left to take out. -/
def State.Filled (s : State T) : Prop := s.popped.length < s.pushed.length

/-- There is room for one more. -/
def State.Room (C : Ring) (s : State T) : Prop := s.pushed.length + 1 < s.popped.length + C.full

instance : Decidable s.Filled := inferInstanceAs (Decidable (_ < _))

instance : Decidable (s.Room C) := inferInstanceAs (Decidable (_ < _))

theorem not_full_of_room (h : Inv C base s) (hr : s.Room C) (hs : stepPush C s = some t) :
    t.log ≠ s.log ++ [.full] := by
  intro hlog
  have hfull := full_of_inv h hs hlog
  have htwo := C.two
  unfold State.Room at hr
  omega

theorem not_empty_of_filled (h : Inv C base s) (hf : s.Filled) (hs : stepPop C s = some t) :
    t.log ≠ s.log ++ [.empty] := by
  intro hlog
  have hempty := empty_of_inv h hs hlog
  unfold State.Filled at hf
  rw [hempty] at hf
  omega

theorem filled_of_ne (h : Inv C base s) (hne : s.popped ≠ s.pushed) : s.Filled := by
  refine Nat.lt_of_le_of_ne h.order.length_le fun he => hne (h.order.eq_of_length he)

end Ublk.Cfq
