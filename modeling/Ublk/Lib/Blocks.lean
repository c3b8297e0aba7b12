import Mathlib.Algebra.BigOperators.Group.Finset.Basic
import Mathlib.Algebra.BigOperators.Intervals
import Mathlib.Tactic.Ring

/-!
Ranges cut at block boundaries, sums by position in a block, and bytes under exclusive or.
-/
namespace Blocks

/-- The part of a range that lies in block `id`, `inner` bytes from the block's start. -/
structure Piece where
  id : Nat
  inner : Nat
  pos : Nat
  len : Nat
  deriving DecidableEq

/-- Cut what is left of a range of `size` bytes, from position `pos` on. -/
def pieces (block size : Nat) : Nat → Nat → Nat → Nat → List Piece
  | 0, _, _, _ => []
  | fuel + 1, id, inner, pos =>
    if pos < size then
      let len := min (block - inner) (size - pos)
      ⟨id, inner, pos, len⟩ :: pieces block size fuel (id + 1) 0 (pos + len)
    else []

def cut (block off size : Nat) : List Piece :=
  pieces block size size (off / block) (off % block) 0

variable {block off size fuel id inner pos i : Nat} {p : Piece}

theorem div_block (hi : i < block) : (id * block + i) / block = id := by
  rw [Nat.mul_comm, Nat.mul_add_div (by omega), Nat.div_eq_of_lt hi, Nat.add_zero]

theorem mod_block (hi : i < block) : (id * block + i) % block = i := by
  rw [Nat.mul_comm, Nat.mul_add_mod, Nat.mod_eq_of_lt hi]

theorem mem_pieces (hb : inner < block) (h : p ∈ pieces block size fuel id inner pos) :
    id * block + inner + p.pos = p.id * block + p.inner + pos ∧ pos ≤ p.pos ∧
      p.pos + p.len ≤ size ∧ p.inner + p.len ≤ block ∧ 0 < p.len := by
  induction fuel generalizing id inner pos with
  | zero => cases h
  | succ fuel ih =>
    rw [pieces] at h
    split at h
    · obtain rfl | h := List.mem_cons.mp h
      · refine ⟨rfl, le_rfl, ?_, ?_, ?_⟩ <;> dsimp only <;> omega
      · obtain ⟨he, hpos, hrest⟩ := ih (Nat.zero_lt_of_lt hb) h
        refine ⟨?_, by omega, hrest⟩
        by_cases hl : block - inner ≤ size - pos
        · rw [min_eq_left hl, Nat.add_mul] at he
          omega
        · have := hrest.1
          have := hrest.2.2
          omega
    · cases h

theorem pieces_cover (hb : inner < block) (hf : size - pos ≤ fuel) (hi : pos ≤ i)
    (his : i < size) : ∃ p ∈ pieces block size fuel id inner pos, p.pos ≤ i ∧ i < p.pos + p.len := by
  induction fuel generalizing id inner pos with
  | zero => omega
  | succ fuel ih =>
    rw [pieces, if_pos (by omega)]
    by_cases hl : i < pos + min (block - inner) (size - pos)
    · exact ⟨_, .head _, hi, hl⟩
    · obtain ⟨p, hp, h⟩ := @ih (id + 1) 0 (pos + min (block - inner) (size - pos)) (by omega)
        (by omega) (by omega)
      exact ⟨p, .tail _ hp, h⟩

theorem mem_cut (hb : 0 < block) (h : p ∈ cut block off size) :
    off + p.pos = p.id * block + p.inner ∧ p.pos + p.len ≤ size ∧ p.inner + p.len ≤ block ∧
      0 < p.len := by
  obtain ⟨he, -, h⟩ := mem_pieces (Nat.mod_lt off hb) h
  have := Nat.div_add_mod' off block
  exact ⟨by omega, h⟩

theorem cut_cover (hb : 0 < block) (hi : i < size) :
    ∃ p ∈ cut block off size, p.pos ≤ i ∧ i < p.pos + p.len :=
  pieces_cover (Nat.mod_lt off hb) (by omega) (by omega) hi

/-- Blocks and ranges in whole units are cut at whole units. -/
theorem dvd_of_mem_pieces {d : Nat} (hb : d ∣ block) (hs : d ∣ size) (hi : d ∣ inner)
    (hp : d ∣ pos) (h : p ∈ pieces block size fuel id inner pos) :
    d ∣ p.inner ∧ d ∣ p.pos ∧ d ∣ p.len := by
  induction fuel generalizing id inner pos with
  | zero => cases h
  | succ fuel ih =>
    rw [pieces] at h
    have hlen : d ∣ min (block - inner) (size - pos) := by
      obtain hle | hle := Nat.le_total (block - inner) (size - pos)
      · rw [min_eq_left hle]
        exact Nat.dvd_sub hb hi
      · rw [min_eq_right hle]
        exact Nat.dvd_sub hs hp
    split at h
    · obtain rfl | h := List.mem_cons.mp h
      · exact ⟨hi, hp, hlen⟩
      · exact ih (Nat.dvd_zero d) (Nat.dvd_add hp hlen) h
    · cases h

theorem dvd_of_mem_cut {d : Nat} (hb : d ∣ block) (ho : d ∣ off) (hs : d ∣ size)
    (h : p ∈ cut block off size) : d ∣ p.inner ∧ d ∣ p.pos ∧ d ∣ p.len :=
  dvd_of_mem_pieces hb hs ((Nat.dvd_mod_iff hb).mpr ho) (Nat.dvd_zero d) h

section Sum

variable {α : Type} [AddCommMonoid α]

/-- A sum over the positions that sit at offset `j` of their block runs over the blocks. -/
theorem sum_by_block {z m j : Nat} (hj : j < z) (f : Nat → α) :
    (∑ i ∈ Finset.range (m * z), if i % z = j then f i else 0) =
      ∑ t ∈ Finset.range m, f (t * z + j) := by
  induction m with
  | zero => simp
  | succ m ih =>
    rw [Nat.succ_mul, Finset.sum_range_add, ih, Finset.sum_range_succ]
    congr 1
    rw [Finset.sum_eq_single j]
    · simp [Nat.add_mod, Nat.mod_eq_of_lt hj]
    · intro i hi hne
      rw [Finset.mem_range] at hi
      simp [Nat.add_mod, Nat.mod_eq_of_lt hi, hne]
    · simp [hj]

end Sum
end Blocks

structure Byte where
  bits : BitVec 8
  deriving DecidableEq

namespace Byte

variable {a b c : Byte}

instance : XorOp Byte := ⟨fun a b => ⟨a.bits ^^^ b.bits⟩⟩

instance : Zero Byte := ⟨⟨0⟩⟩

instance : Inhabited Byte := ⟨0⟩

@[ext] theorem ext (h : a.bits = b.bits) : a = b := by
  cases a; cases b; simp_all

@[simp] theorem bits_xor : (a ^^^ b).bits = a.bits ^^^ b.bits := rfl
@[simp] theorem bits_zero : (0 : Byte).bits = 0 := rfl

instance : Add Byte := ⟨fun a b => a ^^^ b⟩

instance : Neg Byte := ⟨fun a => a⟩

/-- Bytes form a group under exclusive or; sums of bytes are parities. -/
instance : AddCommGroup Byte where
  nsmul := nsmulRec
  zsmul := zsmulRec
  add_assoc a b c := ext (BitVec.xor_assoc a.bits b.bits c.bits)
  zero_add a := ext BitVec.zero_xor
  add_zero a := ext BitVec.xor_zero
  neg_add_cancel a := ext BitVec.xor_self
  add_comm a b := ext (BitVec.xor_comm a.bits b.bits)

theorem xor_eq_add : a ^^^ b = a + b := rfl

@[simp] theorem add_self : a + a = 0 := neg_add_cancel a

theorem add_eq_zero : a + b = 0 ↔ a = b := by
  constructor
  · intro h
    calc a = a + b + b := by rw [add_assoc, add_self, add_zero]
      _ = b := by rw [h, zero_add]
  · rintro rfl
    exact add_self

end Byte
