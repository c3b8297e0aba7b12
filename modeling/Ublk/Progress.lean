import Ublk.Query
import Mathlib.Data.Finset.Card

/-! How much is left to do for a query: its subqueries in flight and their bytes. -/
namespace Ublk

section Sums

variable {α : Type} {f : α → Nat} {xs : List α} {i : Nat} {a b : α}

theorem sum_eraseIdx (h : xs[i]? = some a) : f a + ((xs.eraseIdx i).map f).sum = (xs.map f).sum := by
  obtain ⟨hlt, rfl⟩ := List.getElem?_eq_some_iff.mp h
  exact ((List.getElem_cons_eraseIdx_perm hlt).map f).sum_nat

theorem sum_set (h : xs[i]? = some a) : ((xs.set i b).map f).sum + f a = (xs.map f).sum + f b := by
  have hlt := (List.getElem?_eq_some_iff.mp h).1
  have hset : (xs.set i b)[i]? = some b := by simp [hlt]
  have hnew := sum_eraseIdx (f := f) hset
  have hold := sum_eraseIdx (f := f) h
  rw [List.eraseIdx_set_eq] at hnew
  omega

end Sums

/-- The bytes of subqueries, and their ends. -/
def cost (ss : List Sub) : Nat := (ss.map fun s => s.len + 1).sum

/-- The bytes that are yet to take effect, and the end. -/
def Op.left (op : Op) : Nat := ((Finset.range op.sub.len).filter fun i => op.took i = false).card + 1

/-- Some of the bytes take effect for the first time. -/
def Op.Gains (op : Op) (hit : Nat → Bool) : Prop :=
  ∃ i < op.sub.len, hit i = true ∧ op.took i = false

theorem Op.left_lt {op : Op} {hit : Nat → Bool} (h : op.Gains hit) :
    Op.left ⟨op.sub, fun i => op.took i || hit i⟩ < op.left := by
  obtain ⟨i, hi, hh, ht⟩ := h
  refine Nat.add_lt_add_right (Finset.card_lt_card (Finset.ssubset_iff_of_subset ?_ |>.mpr
    ⟨i, ?_, ?_⟩)) 1
  · intro j hj
    simp only [Finset.mem_filter, Bool.or_eq_false_iff] at hj ⊢
    exact ⟨hj.1, hj.2.1⟩
  · simp [hi, ht]
  · simp [hh]

namespace Query

/-- What is left to do for the query. -/
def left (q : Query) : Nat := (q.ops.map Op.left).sum

/-- An effect on the `k`-th subquery in flight that changes something. -/
def Gains (q : Query) (k : Nat) (hit : Nat → Bool) : Prop :=
  ∃ op, q.ops[k]? = some op ∧ op.Gains hit

variable {E : Env} {q q' : Query} {s : Sub} {ss : List Sub} {d : Disk} {dev dev' : Addr → Byte}
  {hit : Nat → Bool} {k : Nat} {e : Int}

theorem left_congr (h : q'.ops = q.ops) : q'.left = q.left := by rw [left, left, h]

theorem left_eq_zero (h : q.ops = []) : q.left = 0 := by rw [left, h]; rfl

theorem left_effect (h : q.Gains k hit) (he : q.effect k hit dev = some (q', dev')) :
    q'.left < q.left := by
  obtain ⟨op, hop, rfl, -⟩ := effect_eq he
  obtain ⟨_, ho, hg⟩ := h
  obtain rfl := Option.some.inj (hop.symm.trans ho)
  have hsum := sum_set (f := Op.left) (b := ⟨op.sub, fun i => op.took i || hit i⟩) hop
  have hlt := Op.left_lt hg
  unfold left
  dsimp only
  omega

theorem left_settle (he : q.settle k e = some q') : q'.left < q.left := by
  obtain ⟨op, hop, -, rfl⟩ := settle_eq he
  have hsum := sum_eraseIdx (f := Op.left) hop
  have hpos : 0 < op.left := Nat.succ_pos _
  rw [left, ops_setErr, left]
  dsimp only
  omega

theorem length_effect (he : q.effect k hit dev = some (q', dev')) :
    q'.ops.length = q.ops.length := by
  obtain ⟨op, -, rfl, -⟩ := effect_eq he
  simp

theorem length_settle (he : q.settle k e = some q') : q'.ops.length + 1 = q.ops.length := by
  obtain ⟨op, hop, -, rfl⟩ := settle_eq he
  have hlt := (List.getElem?_eq_some_iff.mp hop).1
  rw [ops_setErr, List.length_eraseIdx_of_lt hlt]
  omega

theorem left_submit : (q.submit E s d).2.1.left ≤ q.left + (s.len + 1) := by
  unfold submit
  split
  · exact Nat.le_add_right _ _
  · simp [left, Op.left]
  · rw [left_congr (q := q) (by simp)]
    omega

theorem left_submitAll : (q.submitAll E ss d).2.1.left ≤ q.left + cost ss := by
  induction ss generalizing q d with
  | nil => exact Nat.le_add_right _ _
  | cons s ss ih =>
    have hone := @left_submit E q s d
    rw [submitAll, cost, List.map_cons, List.sum_cons]
    split
    · have := @ih (q.submit E s d).2.1 (q.submit E s d).2.2
      unfold cost at this
      omega
    · exact hone.trans (by omega)

/-- A subquery in flight can always fail. -/
theorem settle_ne_none (h : q.ops ≠ []) : q.settle 0 5 ≠ none := by
  cases ho : q.ops with
  | nil => exact absurd ho h
  | cons op ops => simp [settle, ho]

end Query
end Ublk
