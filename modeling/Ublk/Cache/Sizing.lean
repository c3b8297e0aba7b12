import Ublk.Cache.RWHandler

/-!
How large the cache of a handler is. The sizes of an item are tried from the largest on, and each
is the largest that goes into the bytes asked for unless the number of items came out as 0.
-/
namespace Ublk.Cache

open Words

variable {β : Type} {b x y n fuel i j : Nat} {c : FlatLru Nat β}

/-- A cache for `b` bytes as it should be. -/
structure Sized (b : Nat) (c : FlatLru Nat β) : Prop where
  pow : ∃ e, 9 ≤ e ∧ e ≤ 20 ∧ c.itemSz = 2 ^ e
  fits : c.itemSz ≤ b
  largest : ∀ e, 9 ≤ e → e ≤ 20 → 2 ^ e ≤ b → 2 ^ e ≤ c.itemSz
  covers : b ≤ c.lenMax * c.itemSz
  tight : c.lenMax * c.itemSz < b + c.itemSz

theorem create_eq_some (h : FlatLru.create x y = some c) :
    c.lenMax = x ∧ c.itemSz = y ∧ c.cache = [] := by
  unfold FlatLru.create at h
  split at h
  · obtain rfl := Option.some.inj h
    exact ⟨rfl, rfl, rfl⟩
  · cases h

theorem exists_create (hx : 0 < x) (hy : 0 < y) :
    ∃ c : FlatLru Nat β, FlatLru.create x y = some c := by
  rw [FlatLru.create, dif_pos ⟨hx, hy⟩]
  exact ⟨_, rfl⟩

theorem kSectorSz_le : kSectorSz ≤ 2 ^ j ↔ 9 ≤ j := Nat.pow_le_pow_iff_right (by decide)

/-- One turn of the loop. -/
theorem makeCacheLoop_succ :
    (makeCacheLoop b (fuel + 1) (2 ^ j) : Option (FlatLru Nat β)) =
      if j < 9 then none
      else (if 2 ^ j ≤ b then (divRoundUp64 b (2 ^ j)).bind fun len => FlatLru.create len (2 ^ j)
        else none) <|> makeCacheLoop b fuel (2 ^ (j - 1)) := by
  have hstop : 2 ^ j < kSectorSz ↔ j < 9 := by rw [← not_le, kSectorSz_le, not_le]
  have hdiv : b / 2 ^ j ≠ 0 ↔ 2 ^ j ≤ b := by
    rw [Nat.ne_zero_iff_zero_lt, Nat.div_pos_iff]
    exact and_iff_right (Nat.two_pow_pos j)
  rw [makeCacheLoop]
  by_cases hj : j < 9
  · rw [if_pos (hstop.mpr hj), if_pos hj]
  · have hhalf : 2 ^ j / 2 = 2 ^ (j - 1) := by
      rw [← Nat.pow_sub_one (by decide) (by omega)]
    rw [if_neg (mt hstop.mp hj), if_neg hj, hhalf]
    simp only [hdiv]

/-- What is known of the size of an item that the loop made a cache with: every larger one was too
large, or the number of its items came out as 0. -/
structure Chosen (b j i : Nat) (c : FlatLru Nat β) : Prop where
  range : 9 ≤ i ∧ i ≤ j
  itemSz : c.itemSz = 2 ^ i
  fits : 2 ^ i ≤ b
  lenMax : divRoundUp64 b (2 ^ i) = some c.lenMax
  skipped : ∀ e, i < e → e ≤ j → 2 ^ e ≤ b → divRoundUp64 b (2 ^ e) = some 0
  empty : c.cache = []

/-- A turn of the loop that made no cache. -/
theorem Chosen.up (h : Chosen b (j - 1) i c) (hs : 2 ^ j ≤ b → divRoundUp64 b (2 ^ j) = some 0) :
    Chosen b j i c := by
  obtain ⟨⟨hlo, hhi⟩, hsz, hfits, hlen, hskip, hempty⟩ := h
  refine ⟨⟨hlo, by omega⟩, hsz, hfits, hlen, fun e hie hej he => ?_, hempty⟩
  by_cases hlast : e = j
  · subst hlast
    exact hs he
  · exact hskip e hie (by omega) he

theorem divRoundUp64_pow : ∃ len, divRoundUp64 b (2 ^ j) = some len := by
  have h := Nat.two_pow_pos j
  rw [divRoundUp64, expects_bind (by omega)]
  exact ⟨_, rfl⟩

theorem chosen_of_loop (h : makeCacheLoop b fuel (2 ^ j) = some c) : ∃ i, Chosen b j i c := by
  induction fuel generalizing j with
  | zero => cases h
  | succ fuel ih =>
    rw [makeCacheLoop_succ] at h
    by_cases hj : j < 9
    · rw [if_pos hj] at h
      cases h
    rw [if_neg hj] at h
    obtain ⟨len, hlen⟩ := divRoundUp64_pow (b := b) (j := j)
    by_cases hb : 2 ^ j ≤ b
    · rw [if_pos hb, hlen, Option.bind_some] at h
      by_cases hl : len = 0
      · -- the number of items has wrapped, and a smaller size is tried
        subst hl
        have hnone : (FlatLru.create 0 (2 ^ j) : Option (FlatLru Nat β)) = none :=
          dif_neg fun h => absurd h.1 (Nat.lt_irrefl 0)
        rw [hnone] at h
        obtain ⟨i, hi⟩ := ih h
        exact ⟨i, hi.up fun _ => hlen⟩
      · obtain ⟨c', hc'⟩ := exists_create (β := β) (Nat.pos_of_ne_zero hl) (Nat.two_pow_pos j)
        rw [hc'] at h
        obtain rfl := Option.some.inj h
        obtain ⟨hmax, hsz, hempty⟩ := create_eq_some hc'
        exact ⟨j, ⟨by omega, le_rfl⟩, hsz, hb, hmax ▸ hlen, fun e h1 h2 => by omega, hempty⟩
    · rw [if_neg hb] at h
      obtain ⟨i, hi⟩ := ih h
      exact ⟨i, hi.up fun h => absurd h hb⟩

/-- Where nothing wraps, the first size that goes into the bytes makes a cache. -/
theorem exists_loop (hj : 9 ≤ j) (hf : j < fuel + 9) (hb : 2 ^ 9 ≤ b) (hw : b + 2 ^ j ≤ 2 ^ 64) :
    ∃ c : FlatLru Nat β, makeCacheLoop b fuel (2 ^ j) = some c := by
  induction fuel generalizing j with
  | zero => omega
  | succ fuel ih =>
    rw [makeCacheLoop_succ, if_neg (by omega)]
    have hpos := Nat.two_pow_pos j
    by_cases hle : 2 ^ j ≤ b
    · have hlen : 0 < (b + 2 ^ j - 1) / 2 ^ j := Nat.div_pos (by omega) hpos
      obtain ⟨c, hc⟩ := exists_create (β := β) hlen hpos
      rw [if_pos hle, divRoundUp64_of_le (by omega) hpos hw, Option.bind_some, hc]
      exact ⟨c, rfl⟩
    · rw [if_neg hle]
      have hne : j ≠ 9 := by
        rintro rfl
        exact hle hb
      have hhalf : 2 ^ (j - 1) ≤ 2 ^ j := Nat.pow_le_pow_right (by decide) (by omega)
      exact ih (by omega) (by omega) (by omega)

/-- The number of items comes out as 0 where the sum wraps. -/
theorem divRoundUp64_wraps (hx : x < 2 ^ 64) (hy : y ≤ 2 ^ 64) (h : 2 ^ 64 < x + y) :
    divRoundUp64 x y = some 0 := by
  have hsub : sub (wrap (x + y)) 1 = x + y - 2 ^ 64 - 1 := by
    unfold sub wrap
    omega
  rw [divRoundUp64, expects_bind (by omega), hsub]
  exact congrArg some (Nat.div_eq_of_lt (by omega))

theorem divRoundUp64_mul_lt {len : Nat} (h : divRoundUp64 x y = some len) : len * y < 2 ^ 64 := by
  rw [divRoundUp64] at h
  obtain ⟨_, -, h⟩ := Option.bind_eq_some_iff.mp h
  obtain rfl := Option.some.inj h
  have hle := Nat.div_mul_le_self (sub (wrap (x + y)) 1) y
  have hlt : sub (wrap (x + y)) 1 < 2 ^ 64 := by
    unfold sub
    omega
  exact hle.trans_lt hlt

theorem Chosen.sized (h : Chosen b 20 i c) (hw : b + 2 ^ 20 ≤ 2 ^ 64) : Sized b c := by
  obtain ⟨⟨hlo, hhi⟩, hsz, hfits, hlen, hskip, -⟩ := h
  have hpos := Nat.two_pow_pos i
  have hpow : ∀ e ≤ 20, b + 2 ^ e ≤ 2 ^ 64 := by
    intro e he
    have hle : 2 ^ e ≤ 2 ^ 20 := Nat.pow_le_pow_right (by decide) he
    omega
  have hmax : (b + 2 ^ i - 1) / 2 ^ i = c.lenMax := by
    rw [divRoundUp64_of_le (by omega) hpos (hpow i hhi)] at hlen
    exact Option.some.inj hlen
  refine ⟨⟨i, hlo, hhi, hsz⟩, hsz ▸ hfits, fun e _ hhi' he => ?_, ?_, ?_⟩
  · -- a larger size that goes into the bytes would have been taken
    rw [hsz]
    by_contra hlt
    have hie : i < e := (Nat.pow_lt_pow_iff_right (by decide)).mp (not_le.mp hlt)
    have hzero := hskip e hie hhi' he
    have hpos' := Nat.two_pow_pos e
    rw [divRoundUp64_of_le (by omega) hpos' (hpow e hhi')] at hzero
    have hnz : 0 < (b + 2 ^ e - 1) / 2 ^ e := Nat.div_pos (by omega) hpos'
    have hz := Option.some.inj hzero
    omega
  · have hlt := Nat.lt_div_mul_add (a := b + 2 ^ i - 1) hpos
    rw [hsz, ← hmax]
    omega
  · have hle := Nat.div_mul_le_self (b + 2 ^ i - 1) (2 ^ i)
    rw [hsz, ← hmax]
    omega

/-- Up to one item of the largest size below 2^64 the cache is as it should be, and not above. -/
theorem makeCache_sized_iff (hlo : 2 ^ 9 ≤ b) (hhi : b < 2 ^ 64) :
    (∃ c : FlatLru Nat β, makeCache b = some c ∧ Sized b c) ↔ b + 2 ^ 20 ≤ 2 ^ 64 := by
  rw [makeCache, if_pos (by omega)]
  constructor
  · rintro ⟨c, hc, hs⟩
    obtain ⟨i, hi⟩ := chosen_of_loop hc
    by_contra hw
    have hlarge := hs.largest 20 (by decide) le_rfl (by omega)
    rw [hi.itemSz] at hlarge
    have hi20 : 20 ≤ i := (Nat.pow_le_pow_iff_right (by decide)).mp hlarge
    obtain rfl : i = 20 := le_antisymm hi.range.2 hi20
    have hlen := hi.lenMax
    rw [divRoundUp64_wraps hhi (by decide) (by omega)] at hlen
    exact absurd (Option.some.inj hlen) c.lenPos.ne
  · intro hw
    have hloop : ∃ c : FlatLru Nat β, makeCacheLoop b 64 (2 ^ 20) = some c :=
      exists_loop (by decide) (by decide) hlo hw
    obtain ⟨c, hc⟩ := hloop
    obtain ⟨i, hi⟩ := chosen_of_loop hc
    exact ⟨c, hc, hi.sized hw⟩

namespace RWHandler

/-- A handler comes up with a cache as it should be unless the bytes asked for, and one item of the
largest size, do not go below 2^64. -/
theorem create_sized_iff {disk : Disk} {wt : Bool} (hpos : 0 < n) :
    (∃ h, create n disk wt = some h ∧ Sized (n * 512) h.cache) ↔ n * 512 + 2 ^ 20 ≤ 2 ^ 64 := by
  constructor
  · rintro ⟨h, hc, hs⟩
    obtain ⟨c, hc', rfl⟩ := Option.map_eq_some_iff.mp hc
    have hloop := hc'
    rw [makeCache] at hloop
    split at hloop
    · obtain ⟨i, hi⟩ := chosen_of_loop hloop
      have hlt := divRoundUp64_mul_lt hi.lenMax
      have hcov := hs.covers
      dsimp only at hcov
      rw [hi.itemSz] at hcov
      have hbytes : sectorsToBytes n = n * 512 := wrap_of_lt (hcov.trans_lt hlt)
      rw [hbytes] at hc'
      exact (makeCache_sized_iff (by omega) (hcov.trans_lt hlt)).mp ⟨c, hc', hs⟩
    · cases hloop
  · intro hw
    have hbytes : sectorsToBytes n = n * 512 := wrap_of_lt (by unfold kSectorShift; omega)
    obtain ⟨c, hc, hs⟩ := (makeCache_sized_iff (β := Nat → Byte) (by omega) (by omega)).mpr hw
    have hmake : create n disk wt = some ⟨wt, disk, c, fun _ => 0, .empty⟩ := by
      rw [create, hbytes, hc]
      rfl
    exact ⟨_, hmake, hs⟩

theorem create_sized_iff_three :
    ∃ h, create 3 ⟨fun _ => 0, 0⟩ true = some h ∧ Sized (3 * 512) h.cache :=
  (create_sized_iff (by decide)).mpr (by decide)

/-- The shift leaves nothing of 2^55 sectors, and the constructor ends. -/
theorem create_wrapped :
    ¬ ∀ (n : Nat) (disk : Disk) (wt : Bool), 1 ≤ n → n ≤ 2 ^ 64 - 1 →
      ∃ h, create n disk wt = some h ∧ Sized (n * 512) h.cache := by
  intro hall
  obtain ⟨h, hc, -⟩ := hall (2 ^ 55) ⟨fun _ => 0, 0⟩ true (by decide) (by decide)
  have hzero : sectorsToBytes (2 ^ 55) = 0 := by decide
  rw [create, hzero] at hc
  cases hc

end RWHandler

end Ublk.Cache
