import Ublk.Lib.Memory
import Ublk.Span

/-!
The copy of one span to another, in the widest words that both addresses and both lengths are
multiples of.
-/
namespace Ublk

open Words Memory

namespace Span

/-- The bytes of a span. -/
def Has (v : Span) (a : Nat) : Prop := v.addr ≤ a ∧ a < v.addr + v.len

/-- `std::ranges::copy` of two spans taken for numbers of `n` bytes. -/
def copyWords (n : Nat) (v u : Span) (m : Nat → Byte) : Option (Nat → Byte) := do
  v.toSpanOf n
  u.toSpanOf n
  return transform (n := n) (fun _ w => w) v.addr u.addr (v.len / n) m

def copyBytes (v u : Span) (m : Nat → Byte) : Nat → Byte :=
  transform (n := 1) (fun _ w => w) v.addr u.addr v.len m

/-- `copy_stl` of bytes. -/
def copyStl (v u : Span) (m : Nat → Byte) : Option (Nat → Byte) := do
  expects (¬ v.len > u.len)
  if MultipleOf v.addr 8 ∧ MultipleOf v.len 8 ∧ MultipleOf u.addr 8 ∧ MultipleOf u.len 8 then
    copyWords 8 v u m
  else if MultipleOf v.addr 4 ∧ MultipleOf v.len 4 ∧ MultipleOf u.addr 4 ∧ MultipleOf u.len 4 then
    copyWords 4 v u m
  else if MultipleOf v.addr 2 ∧ MultipleOf v.len 2 ∧ MultipleOf u.addr 2 ∧ MultipleOf u.len 2 then
    copyWords 2 v u m
  else some (copyBytes v u m)

/-- Memory with the bytes of `v` at the front of `u`. -/
def moved (v u : Span) (m : Nat → Byte) : Nat → Byte :=
  fun a => if u.addr ≤ a ∧ a < u.addr + v.len then m (v.addr + (a - u.addr)) else m a

variable {v u : Span} {m : Nat → Byte} {n e : Nat}

/-- Where no byte is one of both spans, what is read lies behind or in front of what is written. -/
theorem apart_of_disjoint (hlen : v.len ≤ u.len) (hd : ∀ a, v.Has a → ¬ u.Has a) :
    v.addr + v.len ≤ u.addr ∨ u.addr + v.len ≤ v.addr := by
  by_contra hn
  have hn := not_or.mp hn
  refine hd (max v.addr u.addr) ⟨by omega, by omega⟩ ⟨by omega, by omega⟩

/-- Words copied in order are bytes copied in order. -/
theorem transform_eq_moved (hlen : v.len ≤ u.len) (hd : ∀ a, v.Has a → ¬ u.Has a) (hn : n ∣ v.len) :
    transform (n := n) (fun _ w => w) v.addr u.addr (v.len / n) m = moved v u m := by
  have hmul : n * (v.len / n) = v.len := Nat.mul_div_cancel' hn
  funext a
  rw [transform_apply bytewise_snd (by rw [hmul]; exact apart_of_disjoint hlen hd), hmul]
  rfl

/-- What is asked of the spans to be taken for numbers of `n` bytes. -/
def Suits (n : Nat) (v u : Span) : Prop :=
  MultipleOf v.addr n ∧ MultipleOf v.len n ∧ MultipleOf u.addr n ∧ MultipleOf u.len n

theorem copyWords_of_suits (h : Suits n v u) : copyWords n v u m =
    some (transform (n := n) (fun _ w => w) v.addr u.addr (v.len / n) m) := by
  obtain ⟨hva, hvl, hua, hul⟩ := h
  rw [copyWords, toSpanOf_of hva hvl, toSpanOf_of hua hul]
  rfl

theorem copyWords_eq (hlen : v.len ≤ u.len) (hd : ∀ a, v.Has a → ¬ u.Has a)
    (h : Suits (2 ^ e) v u) : copyWords (2 ^ e) v u m = some (moved v u m) := by
  have hdvd : 2 ^ e ∣ v.len := multipleOf_two_pow.mp h.2.1
  rw [copyWords_of_suits h, transform_eq_moved hlen hd hdvd]

theorem copyBytes_eq (hlen : v.len ≤ u.len) (hd : ∀ a, v.Has a → ¬ u.Has a) :
    copyBytes v u m = moved v u m := by
  have h := transform_eq_moved (m := m) hlen hd (Nat.one_dvd v.len)
  rwa [Nat.div_one] at h

/-- Whatever the width, the copy is the one byte by byte, and nothing is asked of the spans that
they are not. -/
theorem copyStl_eq (hlen : v.len ≤ u.len) (hd : ∀ a, v.Has a → ¬ u.Has a) :
    copyStl v u m = some (moved v u m) := by
  rw [copyStl, expects_bind (by omega)]
  split
  · rename_i h
    exact copyWords_eq (e := 3) hlen hd h
  · split
    · rename_i h
      exact copyWords_eq (e := 2) hlen hd h
    · split
      · rename_i h
        exact copyWords_eq (e := 1) hlen hd h
      · exact congrArg some (copyBytes_eq hlen hd)

/-- The copy ends at the check of the lengths or not at all, as `copy` says. -/
theorem copyStl_map : (copyStl v u m).map (fun _ => ()) = copy v u := by
  by_cases hlen : v.len ≤ u.len
  · rw [copy_eq hlen, copyStl, expects_bind (by omega)]
    split
    · rename_i h
      rw [copyWords_of_suits h]
      rfl
    · split
      · rename_i h
        rw [copyWords_of_suits h]
        rfl
      · split
        · rename_i h
          rw [copyWords_of_suits h]
          rfl
        · rfl
  · have hstop : expects (¬ v.len > u.len) = none := if_neg (by omega)
    rw [copyStl, copy, hstop]
    rfl

/-- The bytes of `v` are in order at the front of `u`, and all others are as before. -/
theorem copyStl_bytes (hlen : v.len ≤ u.len) (hd : ∀ a, v.Has a → ¬ u.Has a) :
    ∃ m', copyStl v u m = some m' ∧ (∀ i < v.len, m' (u.addr + i) = m (v.addr + i)) ∧
      ∀ a, ¬ (u.addr ≤ a ∧ a < u.addr + v.len) → m' a = m a := by
  refine ⟨moved v u m, copyStl_eq hlen hd, fun i hi => ?_, fun a ha => if_neg ha⟩
  rw [moved, if_pos ⟨by omega, by omega⟩, Nat.add_sub_cancel_left]

/-- Three bytes between odd addresses, and a word to the front of two. -/
theorem copyStl_bytes_two :
    (∃ m', copyStl ⟨1, 3⟩ ⟨5, 4⟩ (fun a => ⟨BitVec.ofNat 8 a⟩) = some m' ∧
      (∀ i < 3, m' (5 + i) = ⟨BitVec.ofNat 8 (1 + i)⟩) ∧
      ∀ a, ¬ (5 ≤ a ∧ a < 5 + 3) → m' a = ⟨BitVec.ofNat 8 a⟩) ∧
    ∃ m', copyStl ⟨0, 8⟩ ⟨8, 16⟩ (fun a => ⟨BitVec.ofNat 8 a⟩) = some m' ∧
      (∀ i < 8, m' (8 + i) = ⟨BitVec.ofNat 8 (0 + i)⟩) ∧
      ∀ a, ¬ (8 ≤ a ∧ a < 8 + 8) → m' a = ⟨BitVec.ofNat 8 a⟩ :=
  ⟨copyStl_bytes (by decide) (by unfold Has; dsimp only; omega),
    copyStl_bytes (by decide) (by unfold Has; dsimp only; omega)⟩

end Span

end Ublk
