import Ublk.Device
import Ublk.Failstop.Target

/-!
Striping without redundancy. A request is cut at strip boundaries; strip `i` is strip `i / n` of
handler `i % n`.
-/
namespace Ublk.Raid0

open Words

/-- The configuration a backend accepts: strips of a power of two and at least one handler. -/
structure Config where
  stripSz : Nat
  n : Nat
  pow2 : ∃ e, stripSz = 2 ^ e
  word : stripSz < 2 ^ 64
  one : 1 ≤ n

variable {C : Config} {off i j fuel id inner done x : Nat} {q : Span}

/-- `countr_zero` of the strip size. -/
def Config.stripShift (C : Config) : Nat := C.stripSz.log2

/-- The loop of `do_op`; `done` bytes are submitted. -/
def strips (C : Config) (q : Span) : Nat → Nat → Nat → Nat → Option (List Sub)
  | 0, _, _, _ => none
  | fuel + 1, id, inner, done =>
    if done < q.len then do
      let off := wrap (inner + wrap ((id / C.n) <<< C.stripShift))
      let sz := min (sub C.stripSz inner) (sub q.len done)
      let _ ← q.subquery done sz
      let rest ← strips C q fuel (wrap (id + 1)) 0 (wrap (done + sz))
      return ⟨id % C.n, off, done, sz⟩ :: rest
    else some []

/-- `do_op`: the subqueries, in the order they are submitted. -/
def doOp (C : Config) (off : Nat) (q : Span) : Option (List Sub) := do
  expects (q.len ≠ 0)
  strips C q (q.len + 1) (off >>> C.stripShift) (off &&& (C.stripSz - 1)) 0

/-- The backend in front of which a target stands. It has no state. -/
abbrev backend (C : Config) : Failstop.Backend :=
  ⟨Unit, (), fun _ _ off q => (doOp C off q).map fun ss => ss.map fun s => (s, ())⟩

/-- Where logical byte `x` is. -/
def loc (C : Config) (x : Nat) : Addr :=
  (x / C.stripSz % C.n, x % C.stripSz + x / C.stripSz / C.n * C.stripSz)

def sub (C : Config) (p : Blocks.Piece) : Sub :=
  ⟨p.id % C.n, p.inner + p.id / C.n * C.stripSz, p.pos, p.len⟩

theorem stripSz_pos : 0 < C.stripSz := by
  obtain ⟨e, he⟩ := C.pow2
  rw [he]
  exact Nat.two_pow_pos e

theorem two_pow_stripShift : 2 ^ C.stripShift = C.stripSz := by
  obtain ⟨e, he⟩ := C.pow2
  rw [Config.stripShift, he, Nat.log2_two_pow]

/-- Shift and mask divide by the strip size. -/
theorem shift_mask (x : Nat) : x >>> C.stripShift = x / C.stripSz ∧
    x &&& (C.stripSz - 1) = x % C.stripSz := by
  rw [Nat.shiftRight_eq_div_pow, two_pow_stripShift]
  obtain ⟨e, he⟩ := C.pow2
  rw [he, Nat.and_two_pow_sub_one_eq_mod]
  exact ⟨rfl, rfl⟩

theorem strips_eq (hlen : q.len < 2 ^ 64) (hinner : inner < C.stripSz) (hdone : done ≤ q.len)
    (hfuel : q.len - done ≤ fuel)
    (hend : done < q.len → id * C.stripSz + inner + (q.len - done) < 2 ^ 64) :
    strips C q (fuel + 1) id inner done =
      some ((Blocks.pieces C.stripSz q.len fuel id inner done).map (Raid0.sub C)) := by
  induction fuel generalizing id inner done with
  | zero =>
    rw [strips, if_neg (by omega)]
    rfl
  | succ fuel ih =>
    rw [strips, Blocks.pieces]
    split
    · rename_i hbusy
      have hend := hend hbusy
      have hword := C.word
      have hstripe : id / C.n * C.stripSz ≤ id * C.stripSz :=
        Nat.mul_le_mul_right _ (Nat.div_le_self _ _)
      have hid : id ≤ id * C.stripSz := Nat.le_mul_of_pos_right _ stripSz_pos
      have hshift : wrap ((id / C.n) <<< C.stripShift) = id / C.n * C.stripSz := by
        rw [Nat.shiftLeft_eq, two_pow_stripShift]
        exact wrap_of_lt (by omega)
      rw [hshift, wrap_of_lt (by omega), sub_of_le hinner.le hword, sub_of_le hdone hlen]
      dsimp only
      rw [Span.subquery_eq (by omega) (by omega) hlen]
      simp only [Option.bind_eq_bind, Option.bind_some]
      rw [wrap_of_lt (by omega : id + 1 < 2 ^ 64), wrap_of_lt (by omega),
        ih stripSz_pos (by omega) (by omega) fun hmore => ?_]
      · rfl
      · rw [Nat.add_mul]
        omega
    · rfl

theorem doOp_eq (h : Sized off q) : doOp C off q =
    some ((Blocks.cut C.stripSz off q.len).map (Raid0.sub C)) := by
  have hroom := h.room
  have hdiv := Nat.div_add_mod' off C.stripSz
  rw [doOp, expects_bind h.pos, (shift_mask off).1, (shift_mask off).2,
    strips_eq (by omega) (Nat.mod_lt _ stripSz_pos) (Nat.zero_le _) (by omega) fun _ => by omega]
  rfl

theorem digits_inj {z a b a' b' : Nat} (ha : a < z) (ha' : a' < z) (h : a + b * z = a' + b' * z) :
    a = a' ∧ b = b' := by
  have hmod := congrArg (· % z) h
  have hdiv := congrArg (· / z) h
  simp only [Nat.add_mul_mod_self_right, Nat.mod_eq_of_lt ha, Nat.mod_eq_of_lt ha'] at hmod
  have hz : 0 < z := by omega
  simp only [Nat.add_mul_div_right _ _ hz, Nat.div_eq_of_lt ha, Nat.div_eq_of_lt ha',
    Nat.zero_add] at hdiv
  exact ⟨hmod, hdiv⟩

theorem loc_injective : Function.Injective (loc C) := by
  intro x y h
  have hpos := stripSz_pos (C := C)
  obtain ⟨hhid, hoff⟩ := Prod.mk.inj h
  obtain ⟨hin, hrow⟩ := digits_inj (Nat.mod_lt x hpos) (Nat.mod_lt y hpos) hoff
  have hid : x / C.stripSz = y / C.stripSz := by
    rw [← Nat.div_add_mod (x / C.stripSz) C.n, ← Nat.div_add_mod (y / C.stripSz) C.n, hhid, hrow]
  rw [← Nat.div_add_mod x C.stripSz, ← Nat.div_add_mod y C.stripSz, hid, hin]

theorem loc_eq {h r o : Nat} (hh : h < C.n) (ho : o < C.stripSz) :
    loc C ((r * C.n + h) * C.stripSz + o) = (h, o + r * C.stripSz) := by
  have hdiv : ((r * C.n + h) * C.stripSz + o) / C.stripSz = r * C.n + h := Blocks.div_block ho
  have hmod : ((r * C.n + h) * C.stripSz + o) % C.stripSz = o := Blocks.mod_block ho
  have hrow : (r * C.n + h) / C.n = r := Blocks.div_block hh
  have hhid : (r * C.n + h) % C.n = h := Blocks.mod_block hh
  rw [loc, hdiv, hmod, hrow, hhid]

/-- Each logical byte has a place of its own, and each place is that of a logical byte. -/
theorem loc_bijOn : Set.BijOn (loc C) Set.univ {a | a.1 < C.n} := by
  have hpos := stripSz_pos (C := C)
  refine ⟨fun x _ => Nat.mod_lt _ C.one, loc_injective.injOn, fun a ha => ?_⟩
  refine ⟨(a.2 / C.stripSz * C.n + a.1) * C.stripSz + a.2 % C.stripSz, trivial, ?_⟩
  rw [loc_eq ha (Nat.mod_lt _ hpos), Nat.mod_add_div']

theorem consecutive_pieces {size : Nat} (hinner : inner < C.stripSz) (hf : size - done ≤ fuel)
    (hdone : done ≤ size) :
    Consecutive done ((Blocks.pieces C.stripSz size fuel id inner done).map (Raid0.sub C)) size := by
  induction fuel generalizing id inner done with
  | zero =>
    change done = size
    omega
  | succ fuel ih =>
    rw [Blocks.pieces]
    split
    · refine ⟨rfl, ?_, ih stripSz_pos ?_ ?_⟩
      · change 0 < min (C.stripSz - inner) (size - done)
        omega
      · change size - (done + min (C.stripSz - inner) (size - done)) ≤ fuel
        omega
      · change done + min (C.stripSz - inner) (size - done) ≤ size
        omega
    · change done = size
      omega

/-- The subqueries of a request of `size` bytes at `off`. -/
structure Tiles (C : Config) (off size : Nat) (ss : List Sub) : Prop where
  consecutive : Consecutive 0 ss size
  /-- Each lies inside one strip of one handler. -/
  inside : ∀ s ∈ ss, s.hid < C.n ∧ s.off % C.stripSz + s.len ≤ C.stripSz
  /-- Each moves the bytes it stands for. -/
  placed : ∀ s ∈ ss, ∀ i, s.Covers i → s.addr i = loc C (off + i)

theorem tiles_cut {size : Nat} :
    Tiles C off size ((Blocks.cut C.stripSz off size).map (Raid0.sub C)) := by
  have hpos := stripSz_pos (C := C)
  refine ⟨consecutive_pieces (Nat.mod_lt _ hpos) (by omega) (Nat.zero_le _), fun s hs => ?_,
    fun s hs i hi => ?_⟩
  all_goals
    obtain ⟨p, hp, rfl⟩ := List.mem_map.mp hs
    obtain ⟨he, hsize, hfits, hlen⟩ := Blocks.mem_cut hpos hp
  · refine ⟨Nat.mod_lt _ C.one, ?_⟩
    change (p.inner + p.id / C.n * C.stripSz) % C.stripSz + p.len ≤ C.stripSz
    rw [Nat.add_mul_mod_self_right, Nat.mod_eq_of_lt (by omega)]
    exact hfits
  · obtain ⟨hlo, hhi⟩ := hi
    change p.pos ≤ i at hlo
    change i < p.pos + p.len at hhi
    have hx : off + i = (p.id / C.n * C.n + p.id % C.n) * C.stripSz + (p.inner + (i - p.pos)) := by
      rw [Nat.div_add_mod']
      omega
    rw [hx, loc_eq (Nat.mod_lt _ C.one) (by omega)]
    change (p.id % C.n, p.inner + p.id / C.n * C.stripSz + (i - p.pos)) = _
    congr 1
    omega

end Ublk.Raid0
