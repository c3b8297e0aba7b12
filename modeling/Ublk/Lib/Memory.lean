import Ublk.Lib.Blocks

/-!
Memory as bytes, read and written in words of some number of bytes, the lowest byte first. What is
done word by word with an operation on bytes is done byte by byte.
-/
namespace Memory

/-- The word of `n` bytes at `a`. -/
def word (m : Nat → Byte) : (n a : Nat) → BitVec (8 * n)
  | 0, _ => 0
  | n + 1, a => word m n (a + 1) ++ (m a).bits

variable {n k a b x src dst : Nat} {m : Nat → Byte}

def byteOf (w : BitVec (8 * n)) (k : Nat) : Byte := ⟨w.extractLsb' (8 * k) 8⟩

def storeWord (a : Nat) (w : BitVec (8 * n)) (m : Nat → Byte) : Nat → Byte :=
  fun x => if a ≤ x ∧ x < a + n then byteOf w (x - a) else m x

/-- Each of the first `k` words at `dst` becomes `op` of itself and of the word at `src`. -/
def transform (op : BitVec (8 * n) → BitVec (8 * n) → BitVec (8 * n)) (src dst : Nat) :
    Nat → (Nat → Byte) → Nat → Byte
  | 0, m => m
  | k + 1, m =>
    let m := transform op src dst k m
    storeWord (dst + n * k) (op (word m n (dst + n * k)) (word m n (src + n * k))) m

/-- The operation on words does `g` to each pair of bytes. -/
def Bytewise (op : BitVec (8 * n) → BitVec (8 * n) → BitVec (8 * n)) (g : Byte → Byte → Byte) :
    Prop :=
  ∀ w v k, k < n → byteOf (op w v) k = g (byteOf w k) (byteOf v k)

theorem byteOf_word (hk : k < n) : byteOf (word m n a) k = m (a + k) := by
  induction n generalizing a k with
  | zero => omega
  | succ n ih =>
    have hcons : word m (n + 1) a = word m n (a + 1) ++ (m a).bits := rfl
    apply Byte.ext
    rcases k with _ | k
    · apply BitVec.eq_of_getLsbD_eq
      intro i hi
      simp [byteOf, hcons, BitVec.getLsbD_append, hi]
    · have hrest : byteOf (word m n (a + 1)) k = m (a + 1 + k) := ih (by omega)
      rw [show a + (k + 1) = a + 1 + k by omega, ← hrest]
      apply BitVec.eq_of_getLsbD_eq
      intro i hi
      have hlow : ¬ 8 * (k + 1) + i < 8 := by omega
      have hidx : 8 * (k + 1) + i - 8 = 8 * k + i := by omega
      simp [byteOf, hcons, BitVec.getLsbD_append, hi, hlow, hidx]

theorem storeWord_of_mem {w : BitVec (8 * n)} (hk : k < n) :
    storeWord a w m (a + k) = byteOf w k := by
  rw [storeWord, if_pos ⟨by omega, by omega⟩, Nat.add_sub_cancel_left]

theorem storeWord_of_not_mem {w : BitVec (8 * n)} (h : ¬ (a ≤ x ∧ x < a + n)) :
    storeWord a w m x = m x := if_neg h

theorem bytewise_xor : Bytewise (n := n) (fun w v => w ^^^ v) fun a b => a ^^^ b := by
  intro w v k hk
  apply Byte.ext
  simp [byteOf, BitVec.extractLsb'_xor]

theorem bytewise_zero : Bytewise (n := n) (fun _ _ => 0) fun _ _ => 0 := by
  intro w v k hk
  apply Byte.ext
  simp [byteOf]

theorem bytewise_snd : Bytewise (n := n) (fun _ v => v) fun _ b => b := fun _ _ _ _ => rfl

variable {op : BitVec (8 * n) → BitVec (8 * n) → BitVec (8 * n)} {g : Byte → Byte → Byte}

/-- Words of two places that do not meet. -/
theorem transform_apply (hg : Bytewise op g) (hd : src + n * k ≤ dst ∨ dst + n * k ≤ src) :
    transform op src dst k m x =
      if dst ≤ x ∧ x < dst + n * k then g (m x) (m (src + (x - dst))) else m x := by
  induction k generalizing x with
  | zero =>
    rw [if_neg (by omega)]
    rfl
  | succ k ih =>
    rw [Nat.mul_succ] at hd ⊢
    have ih := fun y => @ih y (by omega)
    rw [transform]
    by_cases hx : dst + n * k ≤ x ∧ x < dst + n * k + n
    · obtain ⟨i, rfl⟩ := Nat.exists_eq_add_of_le hx.1
      have hi : i < n := by omega
      rw [storeWord_of_mem hi, hg _ _ _ hi, byteOf_word hi, byteOf_word hi, ih, ih,
        if_neg (by omega), if_neg (by omega), if_pos (by omega)]
      congr 2
      omega
    · rw [storeWord_of_not_mem hx, ih]
      by_cases hin : dst ≤ x ∧ x < dst + n * k
      · rw [if_pos hin, if_pos (by omega)]
      · rw [if_neg hin, if_neg (by omega)]

end Memory
