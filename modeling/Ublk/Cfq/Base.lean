import Ublk.Cfq.Ring

/-!
What the constructor of a side of the ring accepts, and what its calls do from there. A call reads
the other side's index once, so the other side may write it at any time between calls.
-/
namespace Ublk.Cfq

/-- The number of items, and the widths in bits of the head and of the tail. -/
structure Base where
  full : Nat
  headBits : Nat
  tailBits : Nat
  two : 2 ≤ full

/-- The two indices in shared memory. -/
structure Indices where
  head : Nat
  tail : Nat
  /-- History: the items accessed, and whether an index was written since the construction. -/
  accessed : List Nat
  headSet : Bool
  tailSet : Bool

/-- The constructor of `cfq::base`, given what the pointers point to. -/
def construct (headBits tailBits : Nat) (head tail : Option Nat) (items : Nat) :
    Except String (Base × Indices) :=
  match head, tail with
  | none, _ => .error "head given cannot be empty"
  | _, none => .error "tail given cannot be empty"
  | some head, some tail =>
    if h : items < 2 then .error "items given must contain at least 2 elements"
    else if head > items then .error "head cannot index an item out of range"
    else if tail > items then .error "tail cannot index an item out of range"
    else .ok (⟨items, headBits, tailBits, Nat.le_of_not_lt h⟩, ⟨head, tail, [], false, false⟩)

namespace Base

/-- `(i + 1) % capacity_full()` for an index of `bits` bits, before it is stored. -/
def next (C : Base) (bits i : Nat) : Nat := (i + 1) % 2 ^ max bits 32 % C.full

/-- `popper::pop`. It stops where its `Expects` fails. -/
def pop (C : Base) (s : Indices) : Option Indices :=
  if s.tail ≠ s.head then
    if s.head < C.full then
      some { s with
        head := C.next C.headBits s.head % 2 ^ C.headBits
        accessed := s.accessed ++ [s.head]
        headSet := true }
    else none
  else some s

/-- `pusher::push`. -/
def push (C : Base) (s : Indices) : Option Indices :=
  if C.next C.tailBits s.tail ≠ s.head then
    if s.tail < C.full then
      some { s with
        tail := C.next C.tailBits s.tail % 2 ^ C.tailBits
        accessed := s.accessed ++ [s.tail]
        tailSet := true }
    else none
  else some s

end Base

/-- A call of the side that was constructed, or a write of the other side's index. -/
inductive Move
  | call
  | other (i : Nat)

namespace Base

def popper (C : Base) (s : Indices) : Move → Option Indices
  | .call => C.pop s
  | .other i => some { s with tail := i, tailSet := true }

def pusher (C : Base) (s : Indices) : Move → Option Indices
  | .call => C.push s
  | .other i => some { s with head := i, headSet := true }

/-- The other side writes indices of items. -/
def InRange (C : Base) (_ : Indices) : Move → Prop
  | .call => True
  | .other i => i < C.full

instance (C : Base) (s : Indices) : (m : Move) → Decidable (C.InRange s m)
  | .call => isTrue trivial
  | .other i => inferInstanceAs (Decidable (i < C.full))

/-- The items accessed are there, and so are those of the indices that were written. -/
structure Usable (C : Base) (s : Indices) : Prop where
  accessed : ∀ i ∈ s.accessed, i < C.full
  head : s.headSet = true → s.head < C.full
  tail : s.tailSet = true → s.tail < C.full

/-- Wherever a run of a side leads, its state is usable and no contract fails in the next call. -/
def Safe (C : Base) (side : Indices → Move → Option Indices) (s : Indices) : Prop :=
  ∀ t, Lts.Run side C.InRange s t → C.Usable t ∧ side t .call ≠ none

variable {C : Base} {s t : Indices} {m : Move} {bits i headBits tailBits n : Nat}
  {head tail : Option Nat}

theorem next_lt : C.next bits i < C.full := by
  have := C.two
  exact Nat.mod_lt _ (by omega)

theorem stored_lt : C.next bits i % 2 ^ bits < C.full :=
  Nat.lt_of_le_of_lt (Nat.mod_le _ _) next_lt

section Steps

variable {T : Type} {D : Ring} {a b : State T} {v : T} {log : List Nat} {hs ts : Bool}

/-- The side of a ring whose index types hold its indices. -/
def ofRing (D : Ring) : Base := ⟨D.full, D.headBits, D.tailBits, D.two⟩

/-- A pop whose memory accesses come one after the other is a call. -/
theorem pop_of_steps (hidle : a.pop = .idle) (hne : a.tail ≠ a.head)
    (h : Lts.exec (Cfq.step D) a [.callPop, .pop, .pop, .pop, .pop] = some b) :
    (ofRing D).pop ⟨a.head, a.tail, log, hs, ts⟩ =
      some ⟨b.head, b.tail, log ++ [a.head], true, ts⟩ := by
  simp only [Lts.exec, Cfq.step, callPop, hidle, stepPop, Option.bind_some, if_pos hne] at h
  split at h
  · rename_i hlt
    cases h
    rw [pop, if_pos hne, if_pos (show a.head < (ofRing D).full from hlt)]
    rfl
  · cases h

theorem push_of_steps (hidle : a.push = .idle) (hne : (ofRing D).next D.tailBits a.tail ≠ a.head)
    (h : Lts.exec (Cfq.step D) a [.callPush v, .push, .push, .push, .push] = some b) :
    (ofRing D).push ⟨a.head, a.tail, log, hs, ts⟩ =
      some ⟨b.head, b.tail, log ++ [a.tail], hs, true⟩ := by
  have hfit : D.next D.tailBits a.tail = (ofRing D).next D.tailBits a.tail :=
    Nat.mod_eq_of_lt (Nat.lt_of_lt_of_le (next_lt (C := ofRing D)) D.tail)
  simp only [Lts.exec, Cfq.step, callPush, hidle, stepPush, Option.bind_some, hfit, if_pos hne] at h
  split at h
  · rename_i hlt
    cases h
    exact (if_pos hne).trans (if_pos hlt)
  · cases h

end Steps

/-- What the popper relies on: its own index is one of an item. -/
theorem popper_step (h : C.Usable s ∧ s.head < C.full) (ho : C.InRange s m)
    (hs : C.popper s m = some t) : C.Usable t ∧ t.head < C.full := by
  obtain ⟨hu, hh⟩ := h
  cases m with
  | call =>
    simp only [popper, pop, if_pos hh] at hs
    split at hs
    · cases hs
      refine ⟨⟨?_, fun _ => stored_lt, hu.tail⟩, stored_lt⟩
      intro i hi
      rcases List.mem_append.mp hi with hi | hi
      · exact hu.accessed i hi
      · simp_all
    · cases hs
      exact ⟨hu, hh⟩
  | other i =>
    cases hs
    exact ⟨⟨hu.accessed, hu.head, fun _ => ho⟩, hh⟩

theorem pusher_step (h : C.Usable s ∧ s.tail < C.full) (ho : C.InRange s m)
    (hs : C.pusher s m = some t) : C.Usable t ∧ t.tail < C.full := by
  obtain ⟨hu, ht⟩ := h
  cases m with
  | call =>
    simp only [pusher, push, if_pos ht] at hs
    split at hs
    · cases hs
      refine ⟨⟨?_, hu.head, fun _ => stored_lt⟩, stored_lt⟩
      intro i hi
      rcases List.mem_append.mp hi with hi | hi
      · exact hu.accessed i hi
      · simp_all
    · cases hs
      exact ⟨hu, ht⟩
  | other i =>
    cases hs
    exact ⟨⟨hu.accessed, fun _ => ho, hu.tail⟩, ht⟩

theorem pop_ne_none (hh : s.head < C.full) : C.popper s .call ≠ none := by
  simp only [popper, pop, if_pos hh]
  split <;> simp

theorem push_ne_none (ht : s.tail < C.full) : C.pusher s .call ≠ none := by
  simp only [pusher, push, if_pos ht]
  split <;> simp

/-- An accepted head that is no item's index fails the next call that finds a tail that is. -/
theorem unsafe_pop (hh : s.head = C.full) : ¬ C.Safe C.popper s := by
  intro h
  have htwo := C.two
  have hrun : Lts.Run C.popper C.InRange s { s with tail := 0, tailSet := true } :=
    .tail (l := .other 0) .refl (Nat.zero_lt_of_lt htwo) rfl
  apply (h _ hrun).2
  simp only [popper, pop, hh]
  rw [if_pos (by omega), if_neg (by omega)]

theorem unsafe_push (ht : s.tail = C.full) : ¬ C.Safe C.pusher s := by
  intro h
  have htwo := C.two
  -- the popper's index is anything but the next tail
  have hother : ∃ i < C.full, C.next C.tailBits s.tail ≠ i := by
    by_cases h0 : C.next C.tailBits s.tail = 0
    · exact ⟨1, by omega, by omega⟩
    · exact ⟨0, by omega, h0⟩
  obtain ⟨i, hi, hne⟩ := hother
  have hrun : Lts.Run C.pusher C.InRange s { s with head := i, headSet := true } :=
    .tail (l := .other i) .refl hi rfl
  apply (h _ hrun).2
  simp only [pusher, push]
  rw [if_pos hne, if_neg (by omega)]

theorem usable_new (hs : s.accessed = [] ∧ s.headSet = false ∧ s.tailSet = false) : C.Usable s := by
  obtain ⟨ha, hh, ht⟩ := hs
  constructor <;> simp_all

theorem safe_popper_iff (hs : s.accessed = [] ∧ s.headSet = false ∧ s.tailSet = false)
    (hle : s.head ≤ C.full) : C.Safe C.popper s ↔ s.head < C.full := by
  constructor
  · intro h
    by_contra hn
    exact unsafe_pop (by omega) h
  · intro hh t ht
    have hinv := Lts.run_invariant (I := fun t => C.Usable t ∧ t.head < C.full) ht
      ⟨usable_new hs, hh⟩ fun _ _ _ hi ho hstep => popper_step hi ho hstep
    exact ⟨hinv.1, pop_ne_none hinv.2⟩

theorem safe_pusher_iff (hs : s.accessed = [] ∧ s.headSet = false ∧ s.tailSet = false)
    (hle : s.tail ≤ C.full) : C.Safe C.pusher s ↔ s.tail < C.full := by
  constructor
  · intro h
    by_contra hn
    exact unsafe_push (by omega) h
  · intro hh t ht
    have hinv := Lts.run_invariant (I := fun t => C.Usable t ∧ t.tail < C.full) ht
      ⟨usable_new hs, hh⟩ fun _ _ _ hi ho hstep => pusher_step hi ho hstep
    exact ⟨hinv.1, push_ne_none hinv.2⟩

/-- What the constructor lets through. -/
theorem construct_ok (h : construct headBits tailBits head tail n = .ok (C, s)) :
    C.full = n ∧ some s.head = head ∧ some s.tail = tail ∧ s.head ≤ C.full ∧ s.tail ≤ C.full ∧
      s.accessed = [] ∧ s.headSet = false ∧ s.tailSet = false := by
  unfold construct at h
  split at h
  · cases h
  · cases h
  · split at h
    · cases h
    · split at h
      · cases h
      · split at h
        · cases h
        · cases h
          simp only [true_and, and_true]
          omega

/-- A ring state that is accepted is safe for the popper if the head is an item's index, and for the
pusher if the tail is, and not otherwise. -/
theorem safe_iff (h : construct headBits tailBits head tail n = .ok (C, s)) :
    (C.Safe C.popper s ↔ s.head < n) ∧ (C.Safe C.pusher s ↔ s.tail < n) := by
  obtain ⟨rfl, -, -, hh, ht, hs⟩ := construct_ok h
  exact ⟨safe_popper_iff hs hh, safe_pusher_iff hs ht⟩

theorem safe_iff_three : ∃ C s, construct 32 32 (some 2) (some 3) 3 = .ok (C, s) ∧
    C.Safe C.popper s ∧ ¬ C.Safe C.pusher s := by
  refine ⟨⟨3, 32, 32, by decide⟩, ⟨2, 3, [], false, false⟩, rfl, ?_⟩
  have h := @safe_iff ⟨3, 32, 32, by decide⟩ ⟨2, 3, [], false, false⟩ 32 32 3 (some 2) (some 3) rfl
  exact ⟨h.1.mpr (by decide), fun hs => absurd (h.2.mp hs) (by decide)⟩

/-- Both indices equal to the number of items are accepted. Once the pusher has stored a tail, the
next pop fails its contract. -/
theorem not_safe : ∃ C s, construct 32 32 (some 2) (some 2) 2 = .ok (C, s) ∧
    ∃ t, Lts.Run C.popper C.InRange s t ∧ C.popper t .call = none := by
  refine ⟨⟨2, 32, 32, by decide⟩, ⟨2, 2, [], false, false⟩, rfl, ⟨2, 0, [], false, true⟩, ?_, rfl⟩
  exact .tail (l := .other 0) .refl Nat.two_pos rfl

end Base

end Ublk.Cfq
