import Ublk.Lib.Runs
import Mathlib.Data.List.Basic
import Mathlib.Algebra.Group.Nat.Defs
import Mathlib.Order.Basic
import Mathlib.Order.Nat

/-!
The command ring: one pusher and one popper over a head, a tail and the items, each of their memory
accesses a step of its own. The values pushed and popped are recorded; the slots between head and
tail hold those still to be popped, and neither side touches a slot while the other is at it.
-/

namespace Ublk.Cfq

/-- The ring: its number of items, and the widths in bits of the head and of the tail. -/
structure Ring where
  full : Nat
  headBits : Nat
  tailBits : Nat
  two : 2 ≤ full
  head : full ≤ 2 ^ headBits
  tail : full ≤ 2 ^ tailBits

/-- `(i + 1) % capacity_full()` for an index of `bits` bits: narrow ones are promoted to `int`. -/
def Ring.next (C : Ring) (bits i : Nat) : Nat := (i + 1) % 2 ^ max bits 32 % C.full % 2 ^ bits

/-- Where `push` is. -/
inductive Push (T : Type)
  | idle
  | start (v : T)
  | tailRead (v : T) (ct : Nat)
  | store (v : T) (ct : Nat)
  | publish (v : T) (ct : Nat)

/-- Where `pop` is. -/
inductive Pop (T : Type)
  | idle
  | start
  | headRead (ch : Nat)
  | load (ch : Nat)
  | publish (ch : Nat) (v : T)

/-- What a call returned. -/
inductive Ret (T : Type)
  | pushed (v : T)
  | full
  | popped (v : T)
  | empty

structure State (T : Type) where
  head : Nat
  tail : Nat
  items : Nat → T
  push : Push T
  pop : Pop T
  /-- The calls that returned, in order. -/
  log : List (Ret T)

inductive Label (T : Type)
  | callPush (v : T)
  | push
  | callPop
  | pop

variable {T : Type} {C : Ring} {s t : State T} {l : Label T} {v : T} {ct ch i bits : Nat}

def State.initial (i : Nat) (items : Nat → T) : State T := ⟨i, i, items, .idle, .idle, []⟩

/-- The next memory access of `push`; a full ring ends it, an index out of range (`Expects`) stops it. -/
def stepPush (C : Ring) (s : State T) : Option (State T) :=
  match s.push with
  | .idle => none
  | .start v => some { s with push := .tailRead v s.tail }
  | .tailRead v ct =>
    if C.next C.tailBits ct ≠ s.head then
      if ct < C.full then some { s with push := .store v ct } else none
    else some { s with push := .idle, log := s.log ++ [.full] }
  | .store v ct => some { s with push := .publish v ct, items := Function.update s.items ct v }
  | .publish v ct =>
    some { s with push := .idle, tail := C.next C.tailBits ct, log := s.log ++ [.pushed v] }

def stepPop (C : Ring) (s : State T) : Option (State T) :=
  match s.pop with
  | .idle => none
  | .start => some { s with pop := .headRead s.head }
  | .headRead ch =>
    if s.tail ≠ ch then if ch < C.full then some { s with pop := .load ch } else none
    else some { s with pop := .idle, log := s.log ++ [.empty] }
  | .load ch => some { s with pop := .publish ch (s.items ch) }
  | .publish ch v =>
    some { s with pop := .idle, head := C.next C.headBits ch, log := s.log ++ [.popped v] }

def callPush (v : T) (s : State T) : Option (State T) :=
  match s.push with
  | .idle => some { s with push := .start v }
  | _ => none

def callPop (s : State T) : Option (State T) :=
  match s.pop with
  | .idle => some { s with pop := .start }
  | _ => none

/-- One caller of each side: a call starts when the last one has returned. -/
def step (C : Ring) (s : State T) : Label T → Option (State T)
  | .callPush v => callPush v s
  | .push => stepPush C s
  | .callPop => callPop s
  | .pop => stepPop C s

/-- The value that a call put in, and the one it took out. -/
def Ret.given : Ret T → Option T
  | .pushed v => some v
  | _ => none

def Ret.taken : Ret T → Option T
  | .popped v => some v
  | _ => none

/-- The values of successful pushes, and of successful pops. -/
def State.pushed (s : State T) : List T := s.log.filterMap Ret.given

def State.popped (s : State T) : List T := s.log.filterMap Ret.taken

theorem next_eq (hf : C.full ≤ 2 ^ bits) (hi : i < C.full) : C.next bits i = (i + 1) % C.full := by
  have htwo := C.two
  have hmod : (i + 1) % C.full < C.full := Nat.mod_lt _ (by omega)
  have hmax : 2 ^ bits ≤ 2 ^ max bits 32 := Nat.pow_le_pow_right (by omega) (Nat.le_max_left _ _)
  unfold Ring.next
  by_cases hlt : i + 1 < 2 ^ max bits 32
  · rw [Nat.mod_eq_of_lt hlt, Nat.mod_eq_of_lt (by omega)]
  · -- the last index of a ring as large as the type: the sum wraps to the same 0
    have hwrap : i + 1 = 2 ^ max bits 32 := by omega
    have hlast : i + 1 = C.full := by omega
    rw [← hwrap, Nat.mod_self, hlast, Nat.mod_self]
    simp

/-- Positions less than a round apart lie in different slots. -/
theorem slot_inj {n base a b : Nat} (h : (base + a) % n = (base + b) % n) (hab : a ≤ b)
    (hlt : b < a + n) : a = b := by
  have hmod := Nat.sub_mod_eq_zero_of_mod_eq h.symm
  rw [Nat.add_sub_add_left, Nat.mod_eq_of_lt (by omega)] at hmod
  omega

theorem next_slot {base k : Nat} (hf : C.full ≤ 2 ^ bits) (hi : i = (base + k) % C.full) :
    C.next bits i = (base + (k + 1)) % C.full := by
  have htwo := C.two
  rw [next_eq hf (hi ▸ Nat.mod_lt _ (by omega)), hi, Nat.mod_add_mod, Nat.add_assoc]

/-- What `push` knows where it is. -/
def PushKnows (n : Nat) (s : State T) : Push T → Prop
  | .idle | .start _ => True
  | .tailRead _ ct => ct = s.tail
  | .store _ ct => ct = s.tail ∧ s.pushed.length + 1 < s.popped.length + n
  | .publish v ct =>
    ct = s.tail ∧ s.pushed.length + 1 < s.popped.length + n ∧ s.items ct = v

/-- What `pop` knows where it is. -/
def PopKnows (s : State T) : Pop T → Prop
  | .idle | .start => True
  | .headRead ch => ch = s.head
  | .load ch => ch = s.head ∧ s.popped.length < s.pushed.length
  | .publish ch v => ch = s.head ∧ s.pushed[s.popped.length]? = some v

/-- The slots from head to tail hold the values pushed and not yet popped. -/
structure Inv (C : Ring) (base : Nat) (s : State T) : Prop where
  head : s.head = (base + s.popped.length) % C.full
  tail : s.tail = (base + s.pushed.length) % C.full
  order : s.popped <+: s.pushed
  room : s.pushed.length < s.popped.length + C.full
  kept : ∀ i, s.popped.length ≤ i → i < s.pushed.length →
    s.pushed[i]? = some (s.items ((base + i) % C.full))
  push : PushKnows C.full s s.push
  pop : PopKnows s s.pop

variable {base : Nat}

theorem inv_initial {items : Nat → T} (hi : i < C.full) : Inv C i (.initial i items) := by
  refine ⟨(Nat.mod_eq_of_lt hi).symm, (Nat.mod_eq_of_lt hi).symm, List.prefix_refl _, ?_, ?_,
    trivial, trivial⟩
  · have := C.two
    simp [State.pushed, State.popped, State.initial]
    omega
  · intro j _ hj
    simp [State.pushed, State.initial] at hj

theorem getElem?_of_prefix {l l' : List T} (h : l <+: l') (hi : l[i]? = some v) :
    l'[i]? = some v := by
  obtain ⟨m, rfl⟩ := h
  rw [List.getElem?_append_left (List.getElem?_eq_some_iff.mp hi).1, hi]

/-- A step that changes neither the indices nor the items nor what was pushed and popped. -/
theorem inv_local (h : Inv C base s) (hh : t.head = s.head) (ht : t.tail = s.tail)
    (hpushed : t.pushed = s.pushed) (hpopped : t.popped = s.popped) (hitems : t.items = s.items)
    (hpush : PushKnows C.full t t.push) (hpop : PopKnows t t.pop) : Inv C base t := by
  refine ⟨?_, ?_, ?_, ?_, ?_, hpush, hpop⟩
  · rw [hh, hpopped, h.head]
  · rw [ht, hpushed, h.tail]
  · rw [hpushed, hpopped]
    exact h.order
  · rw [hpushed, hpopped]
    exact h.room
  · rw [hpushed, hpopped, hitems]
    exact h.kept

/-- What a side knows is about the ends it does not move and about room that only grows. -/
theorem pushKnows_mono {p : Push T} (h : PushKnows C.full s p) (ht : t.tail = s.tail)
    (hitems : t.items = s.items) (hpushed : t.pushed = s.pushed)
    (hpopped : s.popped.length ≤ t.popped.length) : PushKnows C.full t p := by
  cases p with
  | idle => trivial
  | start v => trivial
  | tailRead v ct => exact h.trans ht.symm
  | store v ct =>
    obtain ⟨hct, hroom⟩ := h
    refine ⟨hct.trans ht.symm, ?_⟩
    rw [hpushed]
    omega
  | publish v ct =>
    obtain ⟨hct, hroom, hv⟩ := h
    refine ⟨hct.trans ht.symm, ?_, hitems ▸ hv⟩
    rw [hpushed]
    omega

theorem popKnows_mono {p : Pop T} (h : PopKnows s p) (hh : t.head = s.head)
    (hpopped : t.popped = s.popped) (hpushed : s.pushed <+: t.pushed) : PopKnows t p := by
  cases p with
  | idle => trivial
  | start => trivial
  | headRead ch => exact h.trans hh.symm
  | load ch =>
    obtain ⟨hch, hlt⟩ := h
    refine ⟨hch.trans hh.symm, ?_⟩
    rw [hpopped]
    exact hlt.trans_le hpushed.length_le
  | publish ch v =>
    obtain ⟨hch, hv⟩ := h
    refine ⟨hch.trans hh.symm, ?_⟩
    rw [hpopped]
    exact getElem?_of_prefix hpushed hv

theorem inv_stepPush (h : Inv C base s) (hs : stepPush C s = some t) : Inv C base t := by
  have hknow := h.push
  unfold stepPush at hs
  split at hs <;> rename_i hpc <;> rw [hpc] at hknow
  · cases hs
  · cases hs
    exact inv_local h rfl rfl rfl rfl rfl rfl h.pop
  · split at hs
    · rename_i hne
      split at hs
      · cases hs
        refine inv_local h rfl rfl rfl rfl rfl ⟨hknow, ?_⟩ h.pop
        refine Nat.lt_of_le_of_ne h.room fun heq : s.pushed.length + 1 = s.popped.length + _ => ?_
        refine hne ?_
        rw [next_slot C.tail (hknow.trans h.tail), h.head, heq, ← Nat.add_assoc, Nat.add_mod_right]
      · cases hs
    · cases hs
      set t : State T := { s with push := .idle, log := s.log ++ [.full] }
      have hpushed : t.pushed = s.pushed := by simp [t, State.pushed, Ret.given]
      have hpopped : t.popped = s.popped := by simp [t, State.popped, Ret.taken]
      refine inv_local h rfl rfl hpushed hpopped rfl trivial (popKnows_mono h.pop rfl hpopped ?_)
      exact hpushed ▸ List.prefix_refl _
  · rename_i v ct
    cases hs
    obtain ⟨hct, hroom⟩ := hknow
    refine ⟨h.head, h.tail, h.order, h.room, fun i (hlo : s.popped.length ≤ i)
      (hi : i < s.pushed.length) => ?_, ⟨hct, hroom, by simp⟩,
      popKnows_mono h.pop rfl rfl (List.prefix_refl _)⟩
    have hne : (base + i) % C.full ≠ ct := fun he => by
      have := slot_inj (he.trans (hct.trans h.tail)) hi.le (by omega)
      omega
    change s.pushed[i]? = some (Function.update s.items ct v _)
    rw [h.kept i hlo hi, Function.update_of_ne hne]
  · rename_i v ct
    cases hs
    obtain ⟨hct, hroom, hv⟩ := hknow
    set t : State T := { s with
      push := .idle, tail := C.next C.tailBits ct, log := s.log ++ [.pushed v] }
    have hpushed : t.pushed = s.pushed ++ [v] := by simp [t, State.pushed, Ret.given]
    have hpopped : t.popped = s.popped := by simp [t, State.popped, Ret.taken]
    have hlen : t.pushed.length = s.pushed.length + 1 := by simp [hpushed]
    have hpre : s.pushed <+: t.pushed := hpushed ▸ List.prefix_append _ _
    refine ⟨?_, ?_, ?_, ?_, fun i hlo hi => ?_, trivial, popKnows_mono h.pop rfl hpopped hpre⟩
    · rw [hpopped]
      exact h.head
    · rw [hlen]
      exact next_slot C.tail (hct.trans h.tail)
    · rw [hpopped]
      exact h.order.trans hpre
    · rw [hpopped, hlen]
      exact hroom
    · rw [hpopped] at hlo
      rw [hlen] at hi
      obtain hi | rfl := Nat.lt_succ_iff_lt_or_eq.mp hi
      · exact getElem?_of_prefix hpre (h.kept i hlo hi)
      · rw [hpushed, List.getElem?_append_right le_rfl, Nat.sub_self, ← h.tail, ← hct]
        exact congrArg some hv.symm

theorem inv_stepPop (h : Inv C base s) (hs : stepPop C s = some t) : Inv C base t := by
  have hknow := h.pop
  unfold stepPop at hs
  split at hs <;> rename_i hpc <;> rw [hpc] at hknow
  · cases hs
  · cases hs
    exact inv_local h rfl rfl rfl rfl rfl h.push rfl
  · split at hs
    · rename_i hne
      split at hs
      · cases hs
        refine inv_local h rfl rfl rfl rfl rfl h.push ⟨hknow, ?_⟩
        refine Nat.lt_of_le_of_ne h.order.length_le
          fun heq : s.popped.length = s.pushed.length => hne ?_
        rw [h.tail, hknow, h.head, heq]
      · cases hs
    · cases hs
      set t : State T := { s with pop := .idle, log := s.log ++ [.empty] }
      have hpushed : t.pushed = s.pushed := by simp [t, State.pushed, Ret.given]
      have hpopped : t.popped = s.popped := by simp [t, State.popped, Ret.taken]
      exact inv_local h rfl rfl hpushed hpopped rfl
        (pushKnows_mono h.push rfl rfl hpushed (congrArg List.length hpopped).ge) trivial
  · rename_i ch
    cases hs
    obtain ⟨hch, hlt⟩ := hknow
    refine inv_local h rfl rfl rfl rfl rfl h.push ⟨hch, ?_⟩
    have := h.kept s.popped.length le_rfl hlt
    rw [← h.head, ← hch] at this
    exact this
  · rename_i ch v
    cases hs
    obtain ⟨hch, hv⟩ := hknow
    set t : State T := { s with
      pop := .idle, head := C.next C.headBits ch, log := s.log ++ [.popped v] }
    have hpushed : t.pushed = s.pushed := by simp [t, State.pushed, Ret.given]
    have hpopped : t.popped = s.popped ++ [v] := by simp [t, State.popped, Ret.taken]
    have hlen : t.popped.length = s.popped.length + 1 := by simp [hpopped]
    refine ⟨?_, ?_, ?_, ?_, fun i hlo hi => ?_, pushKnows_mono h.push rfl rfl hpushed ?_, trivial⟩
    · rw [hlen]
      exact next_slot C.head (hch.trans h.head)
    · rw [hpushed]
      exact h.tail
    · rw [hpushed, hpopped]
      obtain ⟨m, hm⟩ := h.order
      rw [← hm, List.getElem?_append_right le_rfl, Nat.sub_self] at hv
      obtain ⟨v', m, rfl⟩ := List.exists_cons_of_ne_nil (fun he => by simp [he] at hv : m ≠ [])
      obtain rfl : v' = v := by simpa using hv
      exact ⟨m, by rw [← hm]; simp⟩
    · rw [hpushed, hlen]
      have := h.room
      omega
    · rw [hlen] at hlo
      rw [hpushed] at hi ⊢
      exact h.kept i (by omega) hi
    · rw [hlen]
      omega

theorem inv_step (h : Inv C base s) (hs : step C s l = some t) : Inv C base t := by
  cases l with
  | callPush v =>
    change callPush v s = some t at hs
    unfold callPush at hs
    split at hs
    · cases hs
      exact inv_local h rfl rfl rfl rfl rfl trivial h.pop
    · cases hs
  | push => exact inv_stepPush h hs
  | callPop =>
    change callPop s = some t at hs
    unfold callPop at hs
    split at hs
    · cases hs
      exact inv_local h rfl rfl rfl rfl rfl h.push trivial
    · cases hs
  | pop => exact inv_stepPop h hs

/-- What the two sides may rely on. -/
structure Correct (C : Ring) (s : State T) : Prop where
  /-- Values come out in the order they went in; those not yet out lie from head to tail. -/
  fifo : s.pushed = s.popped ++ (List.range (s.pushed.length - s.popped.length)).map
    fun i => s.items ((s.head + i) % C.full)
  room : s.pushed.length ≤ s.popped.length + (C.full - 1)
  full : ∀ t, stepPush C s = some t → t.log = s.log ++ [.full] →
    s.pushed.length = s.popped.length + (C.full - 1)
  empty : ∀ t, stepPop C s = some t → t.log = s.log ++ [.empty] → s.pushed = s.popped
  range : s.head < C.full ∧ s.tail < C.full
  /-- No slot is read while it is written. -/
  apart : ∀ v ct ch, s.push = .store v ct → s.pop = .load ch → ct ≠ ch
  /-- No contract fails. -/
  expects : (stepPush C s = none → s.push = .idle) ∧ (stepPop C s = none → s.pop = .idle)

theorem fifo_of_inv (h : Inv C base s) : s.pushed = s.popped ++
    (List.range (s.pushed.length - s.popped.length)).map fun i => s.items ((s.head + i) % C.full) := by
  have hkept := h.kept
  obtain ⟨m, hm⟩ := h.order
  rw [← hm] at hkept ⊢
  rw [List.length_append, Nat.add_sub_cancel_left]
  congr 1
  refine List.ext_getElem? fun i => ?_
  by_cases hi : i < m.length
  · have hslot : (s.head + i) % C.full = (base + (s.popped.length + i)) % C.full := by
      rw [h.head, Nat.mod_add_mod, Nat.add_assoc]
    have := hkept (s.popped.length + i) (by omega) (by rw [List.length_append]; omega)
    rw [List.getElem?_append_right (by omega), Nat.add_sub_cancel_left] at this
    rw [this, List.getElem?_map, List.getElem?_range hi, Option.map_some, hslot]
  · rw [List.getElem?_eq_none (by omega), List.getElem?_eq_none (by simp; omega)]

/-- A full ring: the head read is one round behind the next tail. -/
theorem full_of_inv (h : Inv C base s) (hs : stepPush C s = some t)
    (hlog : t.log = s.log ++ [.full]) : s.pushed.length = s.popped.length + (C.full - 1) := by
  have hknow := h.push
  have htwo := C.two
  unfold stepPush at hs
  split at hs <;> rename_i hpc <;> rw [hpc] at hknow
  · cases hs
  · cases hs
    simp at hlog
  · split at hs
    · split at hs
      · cases hs
        simp at hlog
      · cases hs
    · rename_i heq
      rw [not_not, next_slot C.tail (hknow.trans h.tail), h.head] at heq
      have hle := h.order.length_le
      have hroom := h.room
      by_contra hne
      have := slot_inj heq.symm (by omega) (by omega)
      omega
  · cases hs
    simp at hlog
  · cases hs
    simp at hlog

theorem empty_of_inv (h : Inv C base s) (hs : stepPop C s = some t)
    (hlog : t.log = s.log ++ [.empty]) : s.pushed = s.popped := by
  have hknow := h.pop
  unfold stepPop at hs
  split at hs <;> rename_i hpc <;> rw [hpc] at hknow
  · cases hs
  · cases hs
    simp at hlog
  · split at hs
    · split at hs
      · cases hs
        simp at hlog
      · cases hs
    · rename_i heq
      rw [not_not, h.tail, hknow, h.head] at heq
      have hlen := slot_inj heq.symm h.order.length_le h.room
      exact (h.order.eq_of_length hlen).symm
  · cases hs
    simp at hlog
  · cases hs
    simp at hlog

theorem correct_of_inv (h : Inv C base s) : Correct C s := by
  have htwo := C.two
  have hroom := h.room
  have hpos : 0 < C.full := by omega
  have hhead : s.head < C.full := h.head ▸ Nat.mod_lt _ hpos
  have htail : s.tail < C.full := h.tail ▸ Nat.mod_lt _ hpos
  have hpush := h.push
  have hpop := h.pop
  refine ⟨fifo_of_inv h, by omega, fun t => full_of_inv h, fun t => empty_of_inv h,
    ⟨hhead, htail⟩, fun v ct ch hv hch he => ?_, fun hs => ?_, fun hs => ?_⟩
  · rw [hv] at hpush
    rw [hch] at hpop
    obtain ⟨hct, -⟩ := hpush
    obtain ⟨hch, hlt⟩ := hpop
    -- the slots of the two ends differ as long as something is in between
    have hends := slot_inj (h.head.symm.trans ((hch.symm.trans he.symm).trans (hct.trans h.tail)))
      hlt.le (by omega)
    omega
  · unfold stepPush at hs
    split at hs <;> rename_i hpc
    · exact hpc
    · cases hs
    · rw [hpc] at hpush
      rw [if_pos (hpush.trans_lt htail)] at hs
      split at hs <;> cases hs
    · cases hs
    · cases hs
  · unfold stepPop at hs
    split at hs <;> rename_i hpc
    · exact hpc
    · cases hs
    · rw [hpc] at hpop
      rw [if_pos (hpop.trans_lt hhead)] at hs
      split at hs <;> cases hs
    · cases hs
    · cases hs

/-- Any interleaving of any calls, from any slot and any items. -/
theorem correct_run {items : Nat → T} (hi : i < C.full)
    (hrun : Lts.Run (step C) (fun _ _ => True) (.initial i items) s) : Correct C s :=
  correct_of_inv (Lts.run_invariant hrun (inv_initial hi) fun _ _ _ ha _ hs => inv_step ha hs)

def twoSlots : Ring := ⟨2, 8, 8, by decide, by decide, by decide⟩

/-- The second push finds the ring full before the value of the first is out. -/
def overtaken : List (Label Nat) :=
  [.callPush 5, .push, .callPop, .pop, .push, .push, .push, .pop, .callPush 6, .push, .push, .pop,
    .pop]

theorem correct_run_overtaken : ∃ s, Lts.exec (step twoSlots) (.initial 1 fun _ => 0) overtaken =
    some s ∧ Correct twoSlots s := by
  obtain ⟨s, hs⟩ := Option.isSome_iff_exists.mp
    (by decide : (Lts.exec (step twoSlots) (.initial 1 fun _ => 0) overtaken).isSome)
  exact ⟨s, hs, correct_run (by decide) (Lts.run_of_exec (fun _ _ _ => trivial) hs)⟩

example : (Lts.exec (step twoSlots) (.initial 1 fun _ => 0) overtaken).map State.popped = some [5] ∧
    (Lts.exec (step twoSlots) (.initial 1 fun _ => 0) overtaken).map State.pushed = some [5] := by
  decide

end Ublk.Cfq
