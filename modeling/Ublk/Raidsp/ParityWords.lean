import Ublk.Lib.Memory
import Ublk.Raidsp.Parity
import Ublk.Span

/-!
The parity of a buffer as the code computes it, in words of 64 bits: a piece up to the end of the
parity, pieces of the parity's length, and a rest.
-/
namespace Ublk.Raidsp

open Words Memory

/-- A span of words. -/
structure U64Span where
  addr : Nat
  size : Nat

def toU64 (v : Span) : Option U64Span := (v.toSpanOf 8).map fun _ => ⟨v.addr, v.len / 8⟩

def U64Span.subspan (v : U64Span) (off size : Nat) : Option U64Span :=
  (expects (off ≤ v.size ∧ size ≤ v.size - off)).map fun _ => ⟨v.addr + 8 * off, size⟩

/-- `math::xor_to`, word by word. -/
def xorWords (src dst : U64Span) (m : Nat → Byte) : Nat → Byte :=
  transform (n := 8) (fun w v => w ^^^ v) src.addr dst.addr src.size m

/-- `algo::fill` with 0. -/
def fillZero (v : U64Span) (m : Nat → Byte) : Nat → Byte :=
  transform (n := 8) (fun _ _ => 0) (v.addr + 8 * v.size) v.addr v.size m

/-- The loop over whole parity lengths and the rest behind it. -/
def parityWordRounds (parity : U64Span) : Nat → U64Span → (Nat → Byte) → Option (Nat → Byte)
  | 0, _, _ => none
  | fuel + 1, data, m =>
    if ¬ data.size < parity.size then
      (data.subspan 0 parity.size).bind fun head =>
        (data.subspan parity.size (data.size - parity.size)).bind fun rest =>
          parityWordRounds parity fuel rest (xorWords head parity m)
    else if data.size ≠ 0 then
      (parity.subspan 0 data.size).map fun chunk => xorWords data chunk m
    else some m

/-- The piece up to the end of the parity, from word `off` of it, and the loop. -/
def parityWordsFrom (data parity : U64Span) (off : Nat) (m : Nat → Byte) : Option (Nat → Byte) :=
  if off ≠ 0 then
    (parity.subspan off (min data.size (parity.size - off))).bind fun parityChunk =>
      (data.subspan 0 parityChunk.size).bind fun dataChunk =>
        (data.subspan dataChunk.size (data.size - dataChunk.size)).bind fun rest =>
          parityWordRounds parity (rest.size + 1) rest (xorWords dataChunk parityChunk m)
  else parityWordRounds parity (data.size + 1) data m

/-- `parity_to`. It stops where a check of its arguments or of a span fails. -/
def parityWordsTo (data parity : Span) (start : Nat) (m : Nat → Byte) : Option (Nat → Byte) :=
  (expects (MultipleOf start 8)).bind fun _ =>
    (toU64 data).bind fun data64 =>
      (toU64 parity).bind fun parity64 =>
        -- the remainder is taken of a size that is not 0
        (expects (parity.len ≠ 0)).bind fun _ =>
          parityWordsFrom data64 parity64 (start % parity.len / 8) m

/-- `parity_renew`. -/
def parityWordsRenew (data parity : Span) (m : Nat → Byte) : Option (Nat → Byte) :=
  (toU64 parity).bind fun parity64 => parityWordsTo data parity 0 (fillZero parity64 m)

/-- No byte of the first span is one of the second. -/
def Apart (v u : Span) : Prop :=
  v.len = 0 ∨ v.addr + v.len ≤ u.addr ∨ u.addr + u.len ≤ v.addr

/-- `len` bytes at `src` have been added to the parity from byte `start` of it on, and nothing else
has changed. -/
structure Adds (parity : Span) (src start len : Nat) (m m' : Nat → Byte) : Prop where
  inside : ∀ j < parity.len, m' (parity.addr + j) =
    m (parity.addr + j) + share parity.len start (fun i => m (src + i)) len j
  outside : ∀ a, a < parity.addr ∨ parity.addr + parity.len ≤ a → m' a = m a

variable {v u data parity : Span} {d p c : U64Span} {m m' m'' : Nat → Byte}
  {src start len len' off fuel size : Nat}

theorem toU64_eq (h : v.Word) : toU64 v = some ⟨v.addr, v.len / 8⟩ := by
  have hspan : v.toSpanOf 8 = some () := Span.toSpanOf_eq (n := 3) h.1 h.2
  rw [toU64, hspan]
  rfl

theorem u64_subspan (h : off + size ≤ d.size) :
    d.subspan off size = some ⟨d.addr + 8 * off, size⟩ := by
  rw [U64Span.subspan, expects_of ⟨by omega, by omega⟩]
  rfl

theorem adds_nil : Adds parity src start 0 m m :=
  ⟨fun j _ => by simp [share], fun _ _ => rfl⟩

theorem adds_mod (h : Adds parity src (start % parity.len) len m m') :
    Adds parity src start len m m' :=
  ⟨fun j hj => by rw [h.inside j hj, share_mod], h.outside⟩

/-- A range after the range in front of it. -/
theorem adds_append (hsrc : Apart ⟨src, len + len'⟩ parity) (h : Adds parity src start len m m')
    (h' : Adds parity (src + len) (start + len) len' m' m'') :
    Adds parity src start (len + len') m m'' := by
  refine ⟨fun j hj => ?_, fun a ha => (h'.outside a ha).trans (h.outside a ha)⟩
  have hrest : share parity.len (start + len) (fun i => m' (src + len + i)) len' j =
      share parity.len (start + len) (fun i => m (src + (len + i))) len' j := by
    apply share_congr
    intro i hi
    rw [h.outside _ ?_, Nat.add_assoc]
    simp only [Apart] at hsrc
    omega
  rw [h'.inside j hj, h.inside j hj, hrest, share_append, add_assoc]

/-- Words that are combined into a part of the parity. -/
theorem adds_xorWords (hd : Apart ⟨d.addr, 8 * d.size⟩ parity)
    (hc : c.addr = parity.addr + start) (hlen : start + 8 * d.size ≤ parity.len) :
    Adds parity d.addr start (8 * d.size) m (xorWords d c m) := by
  have happly : ∀ x, xorWords d c m x = if c.addr ≤ x ∧ x < c.addr + 8 * d.size then
      m x ^^^ m (d.addr + (x - c.addr)) else m x :=
    fun x => transform_apply bytewise_xor (by simp only [Apart] at hd; omega)
  refine ⟨fun j hj => ?_, fun a ha => ?_⟩
  · have hbyte := @xorTo_eq (fun i => m (d.addr + i)) (fun i => m (parity.addr + i)) start
      (8 * d.size) j parity.len hlen
    rw [← hbyte, happly, xorTo]
    by_cases hin : start ≤ j ∧ j < start + 8 * d.size
    · rw [if_pos hin, if_pos (by omega), hc, Nat.add_sub_add_left]
    · rw [if_neg hin, if_neg (by omega)]
  · rw [happly, if_neg (by omega)]

theorem parityWordRounds_adds (hd : Apart ⟨d.addr, 8 * d.size⟩ parity) (hpos : 0 < p.size)
    (haddr : p.addr = parity.addr) (hlen : 8 * p.size = parity.len) (hf : d.size < fuel) :
    ∃ m', parityWordRounds p fuel d m = some m' ∧ Adds parity d.addr 0 (8 * d.size) m m' := by
  induction fuel generalizing d m with
  | zero => omega
  | succ fuel ih =>
    rw [parityWordRounds]
    by_cases hlt : d.size < p.size
    · rw [if_neg (not_not.mpr hlt)]
      by_cases h0 : d.size = 0
      · rw [if_neg (not_not.mpr h0), h0]
        exact ⟨m, rfl, adds_nil⟩
      · rw [if_pos h0, u64_subspan (by omega)]
        refine ⟨_, rfl, adds_xorWords hd ?_ (by omega)⟩
        simp [haddr]
    · rw [if_pos hlt, u64_subspan (by omega), u64_subspan (by omega)]
      have hd' := hd
      simp only [Apart] at hd'
      have hhead : Adds parity d.addr 0 (8 * p.size) m (xorWords ⟨d.addr, p.size⟩ p m) :=
        adds_xorWords (d := ⟨d.addr, p.size⟩) (by simp only [Apart]; omega) (by simp [haddr])
          (by dsimp only; omega)
      obtain ⟨m', hm', hrest⟩ := @ih ⟨d.addr + 8 * p.size, d.size - p.size⟩
        (xorWords ⟨d.addr, p.size⟩ p m) (by simp only [Apart]; omega) (by dsimp only; omega)
      refine ⟨m', hm', ?_⟩
      have hsum : 8 * d.size = 8 * p.size + 8 * (d.size - p.size) := by omega
      rw [hsum] at hd ⊢
      refine adds_append hd hhead (adds_mod ?_)
      -- whole rounds end where the parity begins
      rw [Nat.zero_add, hlen, Nat.mod_self]
      exact hlen ▸ hrest

theorem parityWordsFrom_adds (hd : Apart ⟨d.addr, 8 * d.size⟩ parity) (hpos : 0 < p.size)
    (haddr : p.addr = parity.addr) (hlen : 8 * p.size = parity.len) (hoff : off < p.size) :
    ∃ m', parityWordsFrom d p off m = some m' ∧ Adds parity d.addr (8 * off) (8 * d.size) m m' := by
  have hd' := hd
  simp only [Apart] at hd'
  rw [parityWordsFrom]
  by_cases h0 : off = 0
  · rw [if_neg (not_not.mpr h0), h0]
    exact parityWordRounds_adds hd hpos haddr hlen (Nat.lt_succ_self _)
  · rw [if_pos h0, u64_subspan (by omega)]
    simp only [Option.bind_some]
    rw [u64_subspan (by omega)]
    simp only [Option.bind_some]
    rw [u64_subspan (by omega)]
    simp only [Option.bind_some]
    generalize hk : min d.size (p.size - off) = k
    have hhead : Adds parity d.addr (8 * off) (8 * k) m
        (xorWords ⟨d.addr, k⟩ ⟨p.addr + 8 * off, k⟩ m) :=
      adds_xorWords (d := ⟨d.addr, k⟩) (by simp only [Apart]; omega) (by simp [haddr])
        (by dsimp only; omega)
    obtain ⟨m', hm', hrest⟩ := @parityWordRounds_adds parity ⟨d.addr + 8 * k, d.size - k⟩ p
      (xorWords ⟨d.addr, k⟩ ⟨p.addr + 8 * off, k⟩ m) (d.size - k + 1)
      (by simp only [Apart]; omega) hpos haddr hlen (Nat.lt_succ_self _)
    refine ⟨m', hm', ?_⟩
    have hsum : 8 * d.size = 8 * k + 8 * (d.size - k) := by omega
    rw [hsum] at hd ⊢
    apply adds_append hd hhead
    by_cases hend : d.size ≤ p.size - off
    · have hnone : d.size - k = 0 := by omega
      simp only [hnone] at hrest ⊢
      exact ⟨fun j hj => by simpa [share] using hrest.inside j hj, hrest.outside⟩
    · apply adds_mod
      -- the piece in front reaches the end of the parity
      rw [show 8 * off + 8 * k = parity.len by omega, Nat.mod_self]
      exact hrest

/-- Memory in which the parity is what the data adds to it. -/
theorem parityWordsTo_adds (hs : 8 ∣ start) (hv : data.Word) (hu : parity.Word)
    (hpos : 0 < parity.len) (ha : Apart data parity) :
    ∃ m', parityWordsTo data parity start m = some m' ∧
      Adds parity data.addr start data.len m m' := by
  obtain ⟨k, hk⟩ := hv.2
  obtain ⟨l, hl⟩ := hu.2
  have hmult : MultipleOf start 8 := multipleOf_two_pow (n := 3).mpr hs
  have hmod : start % parity.len = 8 * (start % parity.len / 8) := by
    have hdvd : 8 ∣ start % parity.len := (Nat.dvd_mod_iff hu.2).mpr hs
    omega
  have hlt := Nat.mod_lt start hpos
  obtain ⟨m', hm', hadds⟩ := @parityWordsFrom_adds parity ⟨data.addr, data.len / 8⟩
    ⟨parity.addr, parity.len / 8⟩ m (start % parity.len / 8)
    (by rw [hk, Nat.mul_div_cancel_left _ (by decide), ← hk]; exact ha) (by dsimp only; omega) rfl
    (by dsimp only; omega) (by dsimp only; omega)
  refine ⟨m', ?_, adds_mod ?_⟩
  · rw [parityWordsTo, bind_expects hmult, toU64_eq hv, Option.bind_some, toU64_eq hu,
      Option.bind_some, bind_expects (Nat.ne_of_gt hpos)]
    exact hm'
  · rw [hmod]
    have hbytes : 8 * (data.len / 8) = data.len := by omega
    simpa only [hbytes] using hadds

/-- The word-wise computation is the one of `parityTo`, byte by byte. -/
theorem parityWordsTo_eq (hs : 8 ∣ start) (hv : data.Word) (hu : parity.Word)
    (hpos : 0 < parity.len) (ha : Apart data parity) :
    ∃ m', parityWordsTo data parity start m = some m' ∧ ∀ j < parity.len,
      m' (parity.addr + j) = parityTo (fun i => m (data.addr + i)) data.len
        (fun j => m (parity.addr + j)) parity.len start j := by
  obtain ⟨m', hm', hadds⟩ := @parityWordsTo_adds data parity m start hs hv hu hpos ha
  refine ⟨m', hm', fun j hj => ?_⟩
  rw [hadds.inside j hj, parityTo_eq hpos hj]

theorem fillZero_apply {a : Nat} : fillZero d m a =
    if d.addr ≤ a ∧ a < d.addr + 8 * d.size then 0 else m a :=
  transform_apply bytewise_zero (.inr le_rfl)

/-- `parity_to` adds to each parity byte the data bytes that fall on it, and `parity_renew` leaves
their sum; nothing else is touched. -/
theorem parity_bytewise (hv : data.Word) (hu : parity.Word) (hpos : 0 < parity.len)
    (ha : Apart data parity) (hs : 8 ∣ start) :
    (∃ m', parityWordsTo data parity start m = some m' ∧
      (∀ j < parity.len, m' (parity.addr + j) = m (parity.addr + j) +
        ∑ i ∈ Finset.range data.len,
          if (start + i) % parity.len = j then m (data.addr + i) else 0) ∧
      ∀ a, a < parity.addr ∨ parity.addr + parity.len ≤ a → m' a = m a) ∧
    ∃ m', parityWordsRenew data parity m = some m' ∧
      (∀ j < parity.len, m' (parity.addr + j) =
        ∑ i ∈ Finset.range data.len, if i % parity.len = j then m (data.addr + i) else 0) ∧
      ∀ a, a < parity.addr ∨ parity.addr + parity.len ≤ a → m' a = m a := by
  constructor
  · obtain ⟨m', hm', hadds⟩ := @parityWordsTo_adds data parity m start hs hv hu hpos ha
    exact ⟨m', hm', hadds.inside, hadds.outside⟩
  · have hbytes : 8 * (parity.len / 8) = parity.len := by
      have := hu.2
      omega
    obtain ⟨m', hm', hadds⟩ := @parityWordsTo_adds data parity
      (fillZero ⟨parity.addr, parity.len / 8⟩ m) 0 (Nat.dvd_zero 8) hv hu hpos ha
    have hkeep : ∀ a, a < parity.addr ∨ parity.addr + parity.len ≤ a →
        fillZero ⟨parity.addr, parity.len / 8⟩ m a = m a := by
      intro a hout
      rw [fillZero_apply, if_neg (by dsimp only; omega)]
    refine ⟨m', ?_, fun j hj => ?_, fun a hout => ?_⟩
    · rw [parityWordsRenew, toU64_eq hu]
      exact hm'
    · rw [hadds.inside j hj, fillZero_apply, if_pos (by dsimp only; omega), zero_add, share]
      apply Finset.sum_congr rfl
      intro i hi
      have hi := Finset.mem_range.mp hi
      rw [Nat.zero_add, hkeep]
      unfold Apart at ha
      omega
    · rw [hadds.outside a hout, hkeep a hout]

/-- Three words of data on a parity of two, from its second word on. -/
theorem parity_bytewise_wrapped : ∃ m', parityWordsTo ⟨0, 24⟩ ⟨32, 16⟩ 8
    (fun a => ⟨BitVec.ofNat 8 a⟩) = some m' ∧ m' 40 = ⟨40 ^^^ 0 ^^^ 16⟩ ∧ m' 32 = ⟨32 ^^^ 8⟩ := by
  obtain ⟨⟨m', hm', hin, -⟩, -⟩ := @parity_bytewise ⟨0, 24⟩ ⟨32, 16⟩
    (fun a => ⟨BitVec.ofNat 8 a⟩) 8 ⟨by decide, by decide⟩ ⟨by decide, by decide⟩ (by decide)
    (.inr (.inl (by decide))) (by decide)
  refine ⟨m', hm', ?_, ?_⟩
  · rw [hin 8 (by decide)]
    decide
  · rw [hin 0 (by decide)]
    decide

end Ublk.Raidsp
