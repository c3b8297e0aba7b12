import Ublk.Query

/-!
Placement of data and parity. Logical byte `i` of a stripe and byte `j` of its parity
have one address each; all requests are cut along these addresses.
-/
namespace Ublk.Raidsp

/-- The static configuration a backend accepts. -/
structure Geometry where
  stripSz : Nat
  n : Nat
  parityId : Nat → Nat
  pow2 : ∃ e, stripSz = 2 ^ e
  sector : 512 ∣ stripSz
  three : 3 ≤ n
  parity_lt : ∀ k, parityId k < n

def divRoundUp (x y : Nat) : Nat := (x + y - 1) / y

namespace Geometry

variable (G : Geometry)

def stripeDataSz : Nat := G.stripSz * (G.n - 1)

def stripeSz : Nat := G.stripeDataSz + G.stripSz

/-- The handlers but `skip`, from `first` on, `nr` of them. -/
def handlersDataView (skip first nr : Nat) : List Nat :=
  (((List.range G.n).take skip ++ (List.range G.n).drop (skip + 1)).drop first).take nr

/-- One subquery for each handler in turn, until `rest` bytes are given out. -/
def strips (base : Nat) : List Nat → Nat → Nat → Nat → List Sub
  | [], _, _, _ => []
  | h :: hs, stripOff, pos, rest =>
    let sz := min (G.stripSz - stripOff) rest
    ⟨h, base + stripOff, pos, sz⟩ :: strips base hs 0 (pos + sz) (rest - sz)

/-- The strips of stripe `k` that `len` bytes from `off` on lie in. -/
def stripSubs (k off pos len : Nat) : List Sub :=
  let first := off / G.stripSz
  let last := divRoundUp (off + len) G.stripSz
  G.strips (k * G.stripSz) (G.handlersDataView (G.parityId k) first (last - first))
    (off % G.stripSz) pos len

def dataRead (k off size : Nat) : List Sub :=
  (Blocks.pieces G.stripeDataSz size size k off 0).flatMap fun p =>
    G.stripSubs p.id p.inner p.pos p.len

def parityRead (k size : Nat) : List Sub :=
  [⟨G.parityId k, k * G.stripSz, 0, min G.stripSz size⟩]

/-- The data part of `backend::stripe_write`. -/
def dataWrite (k off size : Nat) : List Sub := G.stripSubs k off 0 size

/-- The parity part of `backend::stripe_write`. -/
def parityWrite (k off size : Nat) : List Sub :=
  [⟨G.parityId k, k * G.stripSz + off, 0, size⟩]

/-- The device that holds data strip `t` of stripe `k`. -/
def dataDev (k t : Nat) : Nat := if t < G.parityId k then t else t + 1

/-- Where logical byte `i` of stripe `k` is. -/
def loc (k i : Nat) : Addr := (G.dataDev k (i / G.stripSz), k * G.stripSz + i % G.stripSz)

/-- Where byte `j` of the parity of stripe `k` is. -/
def parityLoc (k j : Nat) : Addr := (G.parityId k, k * G.stripSz + j)

end Geometry

def raid4 (stripSz n : Nat) (pow2 : ∃ e, stripSz = 2 ^ e) (sector : 512 ∣ stripSz) (three : 3 ≤ n) :
    Geometry where
  stripSz := stripSz
  n := n
  parityId _ := n - 1
  pow2 := pow2
  sector := sector
  three := three
  parity_lt _ := by omega

def raid5 (stripSz n : Nat) (pow2 : ∃ e, stripSz = 2 ^ e) (sector : 512 ∣ stripSz) (three : 3 ≤ n) :
    Geometry where
  stripSz := stripSz
  n := n
  parityId k := n - k % n - 1
  pow2 := pow2
  sector := sector
  three := three
  parity_lt k := by omega

namespace Geometry

variable {G : Geometry} {k k' i j t off size pos len first nr p : Nat} {s : Sub}

theorem stripSz_pos (G : Geometry) : 0 < G.stripSz := by
  obtain ⟨e, he⟩ := G.pow2
  rw [he]
  exact Nat.two_pow_pos e

theorem stripeDataSz_pos (G : Geometry) : 0 < G.stripeDataSz :=
  Nat.mul_pos G.stripSz_pos (by have := G.three; omega)

theorem dataDev_ne_parityId : G.dataDev k t ≠ G.parityId k := by
  unfold dataDev; split <;> omega

theorem dataDev_injective (h : G.dataDev k i = G.dataDev k j) : i = j := by
  unfold dataDev at h
  split at h <;> split at h <;> omega

theorem loc_injective (h : G.loc k i = G.loc k j) : i = j := by
  obtain ⟨hd, ho⟩ := Prod.mk.inj h
  have hq := dataDev_injective hd
  have hr : i % G.stripSz = j % G.stripSz := by omega
  rw [← Nat.div_add_mod i G.stripSz, ← Nat.div_add_mod j G.stripSz, hq, hr]

theorem loc_ne_parityLoc : G.loc k i ≠ G.parityLoc k' j ∨ k ≠ k' := by
  by_cases hk : k = k'
  · subst hk
    exact .inl fun h => dataDev_ne_parityId (Prod.mk.inj h).1
  · exact .inr hk

theorem row_loc : (G.loc k i).2 / G.stripSz = k := by
  exact Blocks.div_block (Nat.mod_lt _ G.stripSz_pos)

theorem row_parityLoc (hj : j < G.stripSz) : (G.parityLoc k j).2 / G.stripSz = k := by
  exact Blocks.div_block hj

/-- Leaving out one handler renumbers the ones behind it. -/
theorem view_eq (hk : G.parityId k < G.n) :
    (List.range G.n).take (G.parityId k) ++ (List.range G.n).drop (G.parityId k + 1) =
      (List.range (G.n - 1)).map (G.dataDev k) := by
  refine List.ext_getElem (by simp; omega) fun i h₁ h₂ => ?_
  rw [List.getElem_append, List.getElem_map, List.getElem_range]
  simp only [List.length_take, List.length_range, List.getElem_take, List.getElem_range,
    List.getElem_drop, dataDev]
  split <;> split <;> omega

theorem handlersDataView_eq (h : first + nr < G.n) :
    G.handlersDataView (G.parityId k) first nr = (List.range' first nr).map (G.dataDev k) := by
  rw [handlersDataView, view_eq (G.parity_lt k), ← List.map_drop, ← List.map_take,
    List.range_eq_range', List.drop_range', List.take_range'_of_length_ge (by omega)]
  simp

theorem mem_strips {ss : List Sub} {stripOff rest : Nat}
    (hss : ss = G.strips (k * G.stripSz) ((List.range' t nr).map (G.dataDev k)) stripOff pos rest)
    (ho : stripOff < G.stripSz) (hs : s ∈ ss) (hp : s.Covers p) :
    pos ≤ p ∧ p < pos + rest ∧ s.addr p = G.loc k (t * G.stripSz + stripOff + (p - pos)) := by
  subst hss
  induction nr generalizing t stripOff pos rest with
  | zero => simp [strips] at hs
  | succ nr ih =>
    rw [List.range'_succ, List.map_cons, strips] at hs
    obtain rfl | hs := List.mem_cons.mp hs
    · obtain ⟨h₁, h₂⟩ := hp
      dsimp only at h₁ h₂
      have hlt : stripOff + (p - pos) < G.stripSz := by omega
      refine ⟨h₁, by omega, ?_⟩
      rw [Sub.addr, loc, Nat.add_assoc (t * _), Blocks.div_block hlt, Blocks.mod_block hlt,
        Nat.add_assoc]
    · obtain ⟨h₁, h₂, h₃⟩ := ih G.stripSz_pos hs
      refine ⟨by omega, by omega, h₃.trans ?_⟩
      congr 1
      rw [Nat.add_mul]
      omega

theorem strips_cover {stripOff rest : Nat} (ho : stripOff < G.stripSz)
    (hnr : stripOff + rest ≤ nr * G.stripSz) (hp : pos ≤ p) (hpr : p < pos + rest) :
    ∃ s ∈ G.strips (k * G.stripSz) ((List.range' t nr).map (G.dataDev k)) stripOff pos rest,
      s.Covers p := by
  induction nr generalizing t stripOff pos rest with
  | zero => omega
  | succ nr ih =>
    rw [List.range'_succ, List.map_cons, strips]
    by_cases hl : p < pos + min (G.stripSz - stripOff) rest
    · exact ⟨_, .head _, hp, hl⟩
    · rw [Nat.add_mul] at hnr
      obtain ⟨s, hs, hc⟩ := @ih (t + 1) (pos + min (G.stripSz - stripOff) rest) 0
        (rest - min (G.stripSz - stripOff) rest) G.stripSz_pos (by omega) (by omega) (by omega)
      exact ⟨s, .tail _ hs, hc⟩

/-- The strips a range of a stripe lies in are as many as the handlers asked for. -/
theorem divRoundUp_le (h : off + len ≤ G.stripeDataSz) :
    divRoundUp (off + len) G.stripSz ≤ G.n - 1 := by
  have hz := G.stripSz_pos
  rw [divRoundUp]
  refine Nat.le_of_lt_succ (Nat.div_lt_of_lt_mul ?_)
  rw [stripeDataSz] at h
  rw [Nat.mul_succ]
  omega

theorem le_divRoundUp (hz : 0 < t) : off ≤ divRoundUp off t * t := by
  rw [divRoundUp]
  have := Nat.lt_div_mul_add (a := off + t - 1) hz
  omega

theorem stripSubs_eq (h : off + len ≤ G.stripeDataSz) :
    G.stripSubs k off pos len = G.strips (k * G.stripSz)
      ((List.range' (off / G.stripSz)
        (divRoundUp (off + len) G.stripSz - off / G.stripSz)).map (G.dataDev k))
      (off % G.stripSz) pos len := by
  have h₁ := divRoundUp_le h
  have h₂ : off / G.stripSz ≤ G.n - 1 :=
    Nat.div_le_of_le_mul (by rw [stripeDataSz] at h; omega)
  have := G.three
  rw [stripSubs, handlersDataView_eq (by omega)]

/-- A part of a stripe is moved byte by byte between the buffer and the addresses of the part. -/
theorem mem_stripSubs (h : off + len ≤ G.stripeDataSz) (hs : s ∈ G.stripSubs k off pos len)
    (hp : s.Covers p) :
    pos ≤ p ∧ p < pos + len ∧ s.addr p = G.loc k (off + (p - pos)) := by
  obtain ⟨h₁, h₂, h₃⟩ := mem_strips (stripSubs_eq h) (Nat.mod_lt _ G.stripSz_pos) hs hp
  refine ⟨h₁, h₂, h₃.trans ?_⟩
  rw [Nat.div_add_mod']

theorem stripSubs_cover (h : off + len ≤ G.stripeDataSz) (hp : pos ≤ p) (hpl : p < pos + len) :
    ∃ s ∈ G.stripSubs k off pos len, s.Covers p := by
  rw [stripSubs_eq h]
  refine strips_cover (Nat.mod_lt _ G.stripSz_pos) ?_ hp hpl
  have : off + len ≤ _ := le_divRoundUp G.stripSz_pos
  have := Nat.div_add_mod' off G.stripSz
  rw [Nat.sub_mul]
  omega

theorem dataWrite_fits (h : off + size ≤ G.stripeDataSz) (hs : s ∈ G.dataWrite k off size) :
    s.Fits (fun p => G.loc k (off + p)) size := by
  intro p hp
  obtain ⟨-, h₁, h₂⟩ := mem_stripSubs h hs hp
  exact ⟨by omega, by simpa using h₂⟩

theorem dataWrite_cover (h : off + size ≤ G.stripeDataSz) (hp : p < size) :
    ∃ s ∈ G.dataWrite k off size, s.Covers p :=
  stripSubs_cover h (Nat.zero_le p) (by omega)

theorem parityWrite_fits_from (hs : s ∈ G.parityWrite k off size) :
    s.Fits (fun p => G.parityLoc k (off + p)) size := by
  intro p hp
  cases List.mem_singleton.mp hs
  exact ⟨by simpa using hp.2, by simp [Sub.addr, parityLoc, Nat.add_assoc]⟩

theorem parityWrite_fits (hs : s ∈ G.parityWrite k 0 size) : s.Fits (G.parityLoc k) size := by
  simpa only [Nat.zero_add] using parityWrite_fits_from hs

theorem parityWrite_cover (hp : p < size) : ∃ s ∈ G.parityWrite k off size, s.Covers p :=
  ⟨_, .head _, by simpa [Sub.Covers] using hp⟩

theorem parityRead_fits (h : size ≤ G.stripSz) (hs : s ∈ G.parityRead k size) :
    s.Fits (G.parityLoc k) size := by
  intro p hp
  cases List.mem_singleton.mp hs
  have hlt := hp.2
  dsimp only at hlt
  exact ⟨by omega, by simp [Sub.addr, parityLoc]⟩

theorem parityRead_cover (h : size ≤ G.stripSz) (hp : p < size) :
    ∃ s ∈ G.parityRead k size, s.Covers p :=
  ⟨_, .head _, Nat.zero_le p, by dsimp only; omega⟩

variable (G) in
/-- Where logical byte `x` of the whole array is. -/
def flatLoc (x : Nat) : Addr := G.loc (x / G.stripeDataSz) (x % G.stripeDataSz)

theorem flatLoc_eq (hi : i < G.stripeDataSz) : G.flatLoc (k * G.stripeDataSz + i) = G.loc k i := by
  rw [flatLoc, Blocks.div_block hi, Blocks.mod_block hi]

theorem flatLoc_injective {x y : Nat} (h : G.flatLoc x = G.flatLoc y) : x = y := by
  have hrow : x / G.stripeDataSz = y / G.stripeDataSz :=
    row_loc.symm.trans ((congrArg (fun a : Addr => a.2 / G.stripSz) h).trans row_loc)
  rw [flatLoc, flatLoc, hrow] at h
  have hmod := loc_injective h
  rw [← Nat.div_add_mod x G.stripeDataSz, ← Nat.div_add_mod y G.stripeDataSz, hrow, hmod]

theorem dataRead_fits (ho : off < G.stripeDataSz) (hs : s ∈ G.dataRead k off size) :
    s.Fits (fun p => G.flatLoc (k * G.stripeDataSz + off + p)) size := by
  intro p hp
  obtain ⟨c, hc, hs⟩ := List.mem_flatMap.mp hs
  obtain ⟨h₁, -, h₂, h₃, -⟩ := Blocks.mem_pieces ho hc
  obtain ⟨h₄, h₅, h₆⟩ := mem_stripSubs h₃ hs hp
  refine ⟨by omega, h₆.trans ?_⟩
  rw [← flatLoc_eq (by omega)]
  congr 1
  omega

theorem dataRead_cover (ho : off < G.stripeDataSz) (hp : p < size) :
    ∃ s ∈ G.dataRead k off size, s.Covers p := by
  obtain ⟨c, hc, h₁, h₂⟩ := @Blocks.pieces_cover _ _ _ k _ _ _ ho (by omega : size - 0 ≤ size)
    (Nat.zero_le p) hp
  obtain ⟨s, hs, hcov⟩ := stripSubs_cover (G := G) (k := c.id) (Blocks.mem_pieces ho hc).2.2.2.1 h₁ h₂
  exact ⟨s, List.mem_flatMap.mpr ⟨c, hc, hs⟩, hcov⟩

end Geometry
end Ublk.Raidsp
