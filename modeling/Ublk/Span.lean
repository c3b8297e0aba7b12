import Ublk.Lib.Words

/-! Spans of memory, and the checks queries and byte algorithms make of them. -/
namespace Ublk

open Words

/-- Where a span lies and how long it is. -/
structure Span where
  addr : Nat
  len : Nat

/-- `div_round_up` of 64-bit numbers. -/
def divRoundUp64 (x y : Nat) : Option Nat := do
  expects (0 ≠ y)
  return sub (wrap (x + y)) 1 / y

namespace Span

/-- `std::span::subspan`, with what it asks of the caller. -/
def subspan (v : Span) (off len : Nat) : Option Span := do
  expects (off ≤ v.len ∧ len ≤ v.len - off)
  return ⟨v.addr + off, len⟩

/-- The constructor of a query. -/
def create (v : Span) : Option Span := do
  expects (v.len ≠ 0)
  return v

def subquery (v : Span) (off len : Nat) : Option Span := do
  expects (0 ≠ len)
  expects (¬ wrap (off + len) > v.len)
  let v ← v.subspan off len
  v.create

/-- `to_span_of`: a span of numbers of `n` bytes. -/
def toSpanOf (v : Span) (n : Nat) : Option Unit := do
  expects (MultipleOf v.addr n)
  expects (MultipleOf v.len n)

/-- What `parity_to` asks of its arguments. -/
def parityTo (data parity : Span) (start : Nat) : Option Unit := do
  expects (MultipleOf start 8)
  data.toSpanOf 8
  parity.toSpanOf 8

def parityRenew (data parity : Span) : Option Unit := do
  parity.toSpanOf 8
  parityTo data parity 0

/-- The widest numbers both spans can be taken for. -/
def width (v u : Span) : Nat :=
  if MultipleOf v.addr 8 ∧ MultipleOf v.len 8 ∧ MultipleOf u.addr 8 ∧ MultipleOf u.len 8 then 8
  else if MultipleOf v.addr 4 ∧ MultipleOf v.len 4 ∧ MultipleOf u.addr 4 ∧ MultipleOf u.len 4 then 4
  else if MultipleOf v.addr 2 ∧ MultipleOf v.len 2 ∧ MultipleOf u.addr 2 ∧ MultipleOf u.len 2 then 2
  else 1

/-- What `algo::copy` asks of its arguments. -/
def copy (v u : Span) : Option Unit := do
  expects (¬ v.len > u.len)
  v.toSpanOf (width v u)
  u.toSpanOf (width v u)

variable {v u : Span} {off len start n x y : Nat}

theorem subspan_eq (h : off + len ≤ v.len) : v.subspan off len = some ⟨v.addr + off, len⟩ := by
  rw [subspan, expects_bind (by omega)]
  rfl

theorem create_eq (h : v.len ≠ 0) : v.create = some v := by
  rw [create, expects_bind h]
  rfl

theorem subquery_eq (hlen : 0 < len) (h : off + len ≤ v.len) (hv : v.len < 2 ^ 64) :
    v.subquery off len = some ⟨v.addr + off, len⟩ := by
  have hwrap : wrap (off + len) = off + len := wrap_of_lt (by omega)
  rw [subquery, expects_bind (by omega), expects_bind (by omega), subspan_eq h]
  exact create_eq (by dsimp only; omega)

/-- The whole of a span. -/
theorem eq_of_subquery (h : v.subquery 0 v.len = some u) : u = v := by
  rw [subquery] at h
  obtain ⟨_, -, h⟩ := Option.bind_eq_some_iff.mp h
  obtain ⟨_, -, h⟩ := Option.bind_eq_some_iff.mp h
  obtain ⟨y, hy, h⟩ := Option.bind_eq_some_iff.mp h
  rw [subspan_eq (by omega)] at hy
  cases hy
  obtain ⟨_, -, h⟩ := Option.bind_eq_some_iff.mp h
  cases h
  rfl

theorem toSpanOf_eq (ha : 2 ^ n ∣ v.addr) (hl : 2 ^ n ∣ v.len) :
    v.toSpanOf (2 ^ n) = some () := by
  rw [toSpanOf, expects_bind (multipleOf_two_pow.mpr ha), expects_of (multipleOf_two_pow.mpr hl)]

/-- Addresses and lengths that are multiples of a word. -/
def Word (v : Span) : Prop := 8 ∣ v.addr ∧ 8 ∣ v.len

theorem parityTo_eq (hs : 8 ∣ start) (hv : v.Word) (hu : u.Word) :
    parityTo v u start = some () := by
  have hv' : v.toSpanOf 8 = some () := toSpanOf_eq (n := 3) hv.1 hv.2
  have hu' : u.toSpanOf 8 = some () := toSpanOf_eq (n := 3) hu.1 hu.2
  have hs' : MultipleOf start 8 := multipleOf_two_pow (n := 3).mpr hs
  rw [parityTo, expects_bind hs', hv', hu']
  rfl

theorem parityRenew_eq (hv : v.Word) (hu : u.Word) : parityRenew v u = some () := by
  have hu' : u.toSpanOf 8 = some () := toSpanOf_eq (n := 3) hu.1 hu.2
  rw [parityRenew, hu', parityTo_eq (Nat.dvd_zero 8) hv hu]
  rfl

theorem toSpanOf_of (ha : MultipleOf v.addr n) (hl : MultipleOf v.len n) :
    v.toSpanOf n = some () := by
  rw [toSpanOf, expects_bind ha, expects_of hl]

theorem multipleOf_one : MultipleOf x 1 := Nat.and_zero x

/-- `copy` takes the spans for nothing they are not. -/
theorem copy_eq (h : v.len ≤ u.len) : copy v u = some () := by
  have hw : (MultipleOf v.addr (width v u) ∧ MultipleOf v.len (width v u)) ∧
      MultipleOf u.addr (width v u) ∧ MultipleOf u.len (width v u) := by
    unfold width
    split
    · rename_i h; exact ⟨⟨h.1, h.2.1⟩, h.2.2⟩
    · split
      · rename_i h; exact ⟨⟨h.1, h.2.1⟩, h.2.2⟩
      · split
        · rename_i h; exact ⟨⟨h.1, h.2.1⟩, h.2.2⟩
        · exact ⟨⟨multipleOf_one, multipleOf_one⟩, multipleOf_one, multipleOf_one⟩
  rw [copy, expects_bind (by omega), toSpanOf_of hw.1.1 hw.1.2, toSpanOf_of hw.2.1 hw.2.2]
  rfl

end Span

theorem divRoundUp64_of_le {x y : Nat} (hx : 0 < x) (hy : 0 < y) (h : x + y ≤ 2 ^ 64) :
    divRoundUp64 x y = some ((x + y - 1) / y) := by
  have hsub : sub (wrap (x + y)) 1 = x + y - 1 := by
    unfold sub wrap
    omega
  rw [divRoundUp64, expects_bind (by omega), hsub]
  rfl

theorem divRoundUp64_eq {x y : Nat} (hy : 0 < y) (h : x + y < 2 ^ 64) :
    divRoundUp64 x y = some ((x + y - 1) / y) := by
  rw [divRoundUp64, expects_bind (by omega), wrap_of_lt h, sub_of_le (by omega) h]
  rfl

end Ublk
