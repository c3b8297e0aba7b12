import Mathlib.Tactic.Abel
import Ublk.Raidsp.Geometry

/-!
The parity of a buffer, as the code computes it (64-bit words are combined byte by byte)
and as a sum, and the two ways a write renews it.
-/
namespace Ublk.Raidsp

/-- `math::xor_to`: `len` bytes of `src` into `dst` from `start` on. -/
def xorTo (src dst : Nat → Byte) (start len : Nat) : Nat → Byte :=
  fun i => if start ≤ i ∧ i < start + len then dst i ^^^ src (i - start) else dst i

/-- The loop over whole parity lengths and the rest behind it. -/
def parityRounds (plen : Nat) : Nat → (Nat → Byte) → Nat → (Nat → Byte) → (Nat → Byte)
  | fuel + 1, data, dlen, parity =>
    if plen ≤ dlen then
      parityRounds plen fuel (fun i => data (plen + i)) (dlen - plen) (xorTo data parity 0 plen)
    else xorTo data parity 0 dlen
  | 0, data, dlen, parity => xorTo data parity 0 dlen

def parityTo (data : Nat → Byte) (dlen : Nat) (parity : Nat → Byte) (plen start : Nat) :
    Nat → Byte :=
  let start := start % plen
  let chunk := if start = 0 then 0 else min dlen (plen - start)
  parityRounds plen dlen (fun i => data (chunk + i)) (dlen - chunk) (xorTo data parity start chunk)

def parityRenew (data : Nat → Byte) (dlen : Nat) (plen : Nat) : Nat → Byte :=
  parityTo data dlen (fun _ => 0) plen 0

/-- What `len` bytes of data that begin at `start` add to parity byte `j`. -/
def share (plen start : Nat) (data : Nat → Byte) (len j : Nat) : Byte :=
  ∑ i ∈ Finset.range len, if (start + i) % plen = j then data i else 0

variable {data old src parity : Nat → Byte} {plen start dlen len len' off size j i D z m : Nat}

theorem xorTo_eq (plen : Nat) (hs : start + len ≤ plen) :
    xorTo data parity start len j = parity j + share plen start data len j := by
  unfold xorTo share
  split
  · rw [Finset.sum_eq_single (j - start)]
    · rw [if_pos (by rw [Nat.mod_eq_of_lt (by omega)]; omega), Byte.xor_eq_add]
    · intro i hi hne
      rw [Finset.mem_range] at hi
      rw [Nat.mod_eq_of_lt (by omega), if_neg (by omega)]
    · simp only [Finset.mem_range]
      omega
  · rw [Finset.sum_eq_zero, add_zero]
    intro i hi
    rw [Finset.mem_range] at hi
    rw [Nat.mod_eq_of_lt (by omega), if_neg (by omega)]

theorem share_append : share plen start data (len + len') j =
    share plen start data len j + share plen (start + len) (fun i => data (len + i)) len' j := by
  simp only [share, Finset.sum_range_add, Nat.add_assoc]

theorem share_mod : share plen (start % plen) data len j = share plen start data len j := by
  simp [share]

theorem share_self : share plen plen data len j = share plen 0 data len j := by
  simp [share]

theorem share_add : share plen start (fun i => data i + old i) len j =
    share plen start data len j + share plen start old len j := by
  simp only [share, ← Finset.sum_add_distrib]
  refine Finset.sum_congr rfl fun i _ => ?_
  split <;> simp

theorem share_congr (h : ∀ i < len, data i = old i) :
    share plen start data len j = share plen start old len j :=
  Finset.sum_congr rfl fun i hi => by rw [h i (Finset.mem_range.mp hi)]

theorem parityRounds_eq {fuel : Nat} (hp : 0 < plen) (hf : dlen ≤ fuel) (hj : j < plen) :
    parityRounds plen fuel data dlen parity j = parity j + share plen 0 data dlen j := by
  induction fuel generalizing data dlen parity with
  | zero => exact xorTo_eq plen (by omega)
  | succ fuel ih =>
    rw [parityRounds]
    split
    · rename_i hle
      rw [ih (by omega), xorTo_eq plen (by omega), add_assoc]
      congr 1
      conv_rhs => rw [← Nat.add_sub_cancel' hle, share_append, Nat.zero_add, share_self]
    · exact xorTo_eq plen (by omega)

/-- `parity_to` adds to each parity byte the data bytes that fall on it. -/
theorem parityTo_eq (hp : 0 < plen) (hj : j < plen) :
    parityTo data dlen parity plen start j = parity j + share plen start data dlen j := by
  have hlt := Nat.mod_lt start hp
  have hstart : share plen start data dlen j = share plen (start % plen) data dlen j :=
    share_mod.symm
  rw [parityTo, parityRounds_eq hp (by omega) hj, hstart]
  generalize start % plen = start at *
  split
  · rename_i h₀
    rw [xorTo_eq plen (by omega), h₀]
    simp [share]
  · rw [xorTo_eq plen (by omega), add_assoc]
    congr 1
    by_cases hle : dlen ≤ plen - start
    · rw [min_eq_left hle, Nat.sub_self]
      simp [share]
    · rw [min_eq_right (by omega)]
      conv_rhs => rw [← Nat.add_sub_cancel' (show plen - start ≤ dlen by omega),
        share_append, Nat.add_sub_cancel' hlt.le, share_self]

theorem parityRenew_eq (hp : 0 < plen) (hj : j < plen) :
    parityRenew data dlen plen j = share plen 0 data dlen j := by
  rw [parityRenew, parityTo_eq hp hj, zero_add]

/-- Laying new bytes over old ones changes the parity by what the two differ in. -/
theorem share_overlay (h : off + size ≤ D) :
    share z 0 (overlay old off size src) D j =
      share z 0 old D j + share z off (fun i => src i + old (off + i)) size j := by
  obtain ⟨rest, rfl⟩ := Nat.exists_eq_add_of_le h
  have h₁ : share z 0 (overlay old off size src) off j = share z 0 old off j :=
    share_congr fun i hi => if_neg (by omega)
  have h₂ : share z off (fun i => overlay old off size src (off + i)) size j =
      share z off src size j :=
    share_congr fun i hi => by
      rw [overlay, if_pos (by omega), Nat.add_sub_cancel_left]
  have h₃ : share z (off + size) (fun i => overlay old off size src (off + size + i)) rest j =
      share z (off + size) (fun i => old (off + size + i)) rest j :=
    share_congr fun i hi => if_neg (by omega)
  rw [share_append, share_append, share_append, share_append, share_add, Nat.zero_add, Nat.zero_add,
    h₁, h₂, h₃]
  generalize share z 0 old off j = a
  generalize share z off src size j = b
  generalize share z (off + size) (fun i => old (off + size + i)) rest j = c
  generalize share z off (fun i => old (off + i)) size j = e
  calc a + b + c = a + (e + e) + b + c := by rw [Byte.add_self, add_zero]
    _ = a + e + c + (b + e) := by abel

/-- The parity byte of a stripe is the sum of the bytes at the same place of its data strips. -/
theorem share_stripe (hj : j < z) :
    share z 0 data (z * m) j = ∑ t ∈ Finset.range m, data (t * z + j) := by
  rw [Nat.mul_comm, ← Blocks.sum_by_block hj]
  simp [share]

/-- A sum over all strips of a stripe is its parity strip and its data strips. -/
theorem sum_strips (G : Geometry) (k : Nat) (f : Nat → Byte) :
    ∑ h ∈ Finset.range G.n, f h =
      f (G.parityId k) + ∑ t ∈ Finset.range (G.n - 1), f (G.dataDev k t) := by
  have hlt := G.parity_lt k
  obtain ⟨rest, hrest⟩ := Nat.exists_eq_add_of_lt hlt
  have h₁ : ∀ t ∈ Finset.range (G.parityId k), f (G.dataDev k t) = f t := fun t ht => by
    rw [Geometry.dataDev, if_pos (Finset.mem_range.mp ht)]
  have h₂ : ∀ t ∈ Finset.range rest,
      f (G.dataDev k (G.parityId k + t)) = f (G.parityId k + 1 + t) := fun t _ => by
    rw [Geometry.dataDev, if_neg (by omega)]
    congr 1
    omega
  rw [hrest, show G.parityId k + rest + 1 - 1 = G.parityId k + rest by omega,
    show G.parityId k + rest + 1 = G.parityId k + 1 + rest by omega, Finset.sum_range_add,
    Finset.sum_range_succ, Finset.sum_range_add, Finset.sum_congr rfl h₁, Finset.sum_congr rfl h₂]
  abel

end Ublk.Raidsp
