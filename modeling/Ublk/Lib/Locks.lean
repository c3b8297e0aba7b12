import Mathlib.Data.List.Basic

/-! A growable table of locks. An operation yields `none` where its precondition fails. -/

structure LockTable where
  bits : List Bool
  deriving DecidableEq

namespace LockTable

variable {t u : LockTable} {k p n : Nat} {b : Bool}

def size (t : LockTable) : Nat := t.bits.length

def Locked (t : LockTable) (k : Nat) : Prop := t.bits[k]? = some true

instance (t : LockTable) (k : Nat) : Decidable (t.Locked k) :=
  inferInstanceAs (Decidable (t.bits[k]? = some true))

def empty : LockTable := ⟨[]⟩

/-- Grow to at least `n` positions; the new ones are unlocked. -/
def extend (t : LockTable) (n : Nat) : LockTable :=
  ⟨t.bits ++ List.replicate (n - t.size) false⟩

def tryLock (t : LockTable) (p : Nat) : Option (Bool × LockTable) :=
  if p < t.size then some (decide (¬ t.Locked p), ⟨t.bits.set p true⟩) else none

def unlock (t : LockTable) (p : Nat) : Option LockTable :=
  if t.Locked p then some ⟨t.bits.set p false⟩ else none

theorem lt_size_of_locked (h : t.Locked k) : k < t.size :=
  (List.getElem?_eq_some_iff.mp h).1

@[simp] theorem not_locked_empty : ¬ empty.Locked k := by simp [empty, Locked]

@[simp] theorem size_extend : (t.extend n).size = max t.size n := by
  simp only [extend, size, List.length_append, List.length_replicate]
  omega

@[simp] theorem locked_extend : (t.extend n).Locked k ↔ t.Locked k := by
  unfold extend Locked
  by_cases h : k < t.bits.length
  · rw [List.getElem?_append_left h]
  · rw [List.getElem?_append_right (by omega), List.getElem?_replicate,
      List.getElem?_eq_none (by omega : t.bits.length ≤ k)]
    split <;> simp

theorem locked_set (hp : p < t.size) :
    LockTable.Locked ⟨t.bits.set p b⟩ k ↔ if k = p then b = true else t.Locked k := by
  unfold Locked size at *
  by_cases h : k = p
  · subst h; simp [hp]
  · simp [h, Ne.symm h]

theorem size_tryLock (h : t.tryLock p = some (b, u)) : u.size = t.size := by
  unfold tryLock at h
  split at h
  · cases h; simp [size]
  · cases h

theorem tryLock_none (h : t.tryLock p = none) : t.size ≤ p := by
  unfold tryLock at h
  split at h
  · cases h
  · omega

/-- A lock that was taken already: nothing changes. -/
theorem tryLock_false (h : t.tryLock p = some (false, u)) :
    t.Locked p ∧ ∀ k, u.Locked k ↔ t.Locked k := by
  unfold tryLock at h
  split at h
  · rename_i hp
    simp only [Option.some.injEq, Prod.mk.injEq, decide_eq_false_iff_not, not_not] at h
    obtain ⟨hl, rfl⟩ := h
    refine ⟨hl, fun k => ?_⟩
    rw [locked_set hp]
    split
    · subst k; simp [hl]
    · rfl
  · cases h

theorem tryLock_true (h : t.tryLock p = some (true, u)) :
    ¬ t.Locked p ∧ ∀ k, u.Locked k ↔ k = p ∨ t.Locked k := by
  unfold tryLock at h
  split at h
  · rename_i hp
    simp only [Option.some.injEq, Prod.mk.injEq, decide_eq_true_eq] at h
    obtain ⟨hl, rfl⟩ := h
    refine ⟨hl, fun k => ?_⟩
    rw [locked_set hp]
    split <;> simp_all
  · cases h

theorem unlock_none (h : t.unlock p = none) : ¬ t.Locked p := by
  unfold unlock at h
  split at h
  · cases h
  · assumption

theorem unlock_some (h : t.unlock p = some u) :
    t.Locked p ∧ u.size = t.size ∧ ∀ k, u.Locked k ↔ k ≠ p ∧ t.Locked k := by
  unfold unlock at h
  split at h
  · rename_i hl
    cases h
    refine ⟨hl, by simp [size], fun k => ?_⟩
    rw [locked_set (lt_size_of_locked hl)]
    split <;> simp_all
  · cases h

end LockTable
