import Mathlib.Algebra.Group.Nat.Defs
import Mathlib.Data.Nat.Basic

/-! Unsigned arithmetic of 64 bits, and checks where the program stops if they fail. -/
namespace Words

variable {x y : Nat} {p : Prop} [Decidable p] {α : Type}

def wrap (x : Nat) : Nat := x % 2 ^ 64

def sub (x y : Nat) : Nat := (x + 2 ^ 64 - y) % 2 ^ 64

/-- A precondition or a postcondition. -/
def expects (p : Prop) [Decidable p] : Option Unit := if p then some () else none

/-- `is_multiple_of`, by a mask. -/
def MultipleOf (x y : Nat) : Prop := x &&& (y - 1) = 0

instance : Decidable (MultipleOf x y) := inferInstanceAs (Decidable (_ = _))

theorem wrap_of_lt (h : x < 2 ^ 64) : wrap x = x := Nat.mod_eq_of_lt h

theorem sub_of_le (h : y ≤ x) (hx : x < 2 ^ 64) : sub x y = x - y := by
  unfold sub
  omega

theorem expects_bind (h : p) (f : Unit → Option α) : (expects p >>= f) = f () := by
  simp [expects, h]

theorem bind_expects (h : p) (f : Unit → Option α) : (expects p).bind f = f () :=
  expects_bind h f

theorem expects_of (h : p) : expects p = some () := if_pos h

theorem multipleOf_two_pow {n : Nat} : MultipleOf x (2 ^ n) ↔ 2 ^ n ∣ x := by
  rw [MultipleOf, Nat.and_two_pow_sub_one_eq_mod, Nat.dvd_iff_mod_eq_zero]

end Words
