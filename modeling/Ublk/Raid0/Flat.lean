import Ublk.Raid0.Backend

/-! A target over handlers that each stand for a flat run of bytes stands for one itself. -/
namespace Ublk.Raid0

/-- A handler for each place in the stripe. -/
abbrev Handlers (C : Config) : Type 1 := Fin C.n → Device

/-- The states of all the handlers. -/
abbrev Handlers.State {C : Config} (hs : Handlers C) : Type := ∀ h, (hs h).State

variable {C : Config} {hs : Handlers C} {s t : hs.State} {off pos size x : Nat} {v : Span}
  {h : Fin C.n} {u : (hs h).State} {p : Sub} {ss : List Sub} {buf got src : Nat → Byte}

/-- The bytes of the stripes, by logical offset. -/
def logical (hs : Handlers C) (s : hs.State) (x : Nat) : Byte :=
  (hs ⟨x / C.stripSz % C.n, Nat.mod_lt _ C.one⟩).bytes (s _) (loc C x).2

/-- Read the parts one after the other. -/
def readAll (hs : Handlers C) (v : Span) : List Sub → hs.State → (Nat → Byte) →
    Option ((Nat → Byte) × hs.State)
  | [], s, buf => some (buf, s)
  | p :: ss, s, buf =>
    if h : p.hid < C.n then do
      let (got, u) ← (hs ⟨p.hid, h⟩).read (s _) p.off ⟨v.addr + p.pos, p.len⟩
      readAll hs v ss (Function.update s _ u) (overlay buf p.pos p.len got)
    else none

/-- Write the parts one after the other. -/
def writeAll (hs : Handlers C) (v : Span) (src : Nat → Byte) : List Sub → hs.State →
    Option hs.State
  | [], s => some s
  | p :: ss, s =>
    if h : p.hid < C.n then do
      let u ← (hs ⟨p.hid, h⟩).write (s _) p.off ⟨v.addr + p.pos, p.len⟩ fun i => src (p.pos + i)
      writeAll hs v src ss (Function.update s _ u)
    else none

theorem logical_update (hu : (hs h).bytes u = (hs h).bytes (s h)) :
    logical hs (Function.update s h u) = logical hs s := by
  funext x
  unfold logical
  by_cases hx : (⟨x / C.stripSz % C.n, Nat.mod_lt _ C.one⟩ : Fin C.n) = h
  · subst hx
    rw [Function.update_self, hu]
  · rw [Function.update_of_ne hx]

theorem logical_eq {o : Nat} (hx : loc C x = (h.val, o)) : logical hs s x = (hs h).bytes (s h) o := by
  obtain ⟨h, hh⟩ := h
  obtain ⟨rfl, rfl⟩ := Prod.mk.inj hx
  rfl

/-- A byte that lies in no part keeps its place. -/
theorem logical_update_of_ne (hx : (loc C x).1 ≠ h.val) :
    logical hs (Function.update s h u) x = logical hs s x := by
  unfold logical
  rw [Function.update_of_ne fun he => hx (congrArg Fin.val he)]

/-- What a part of a request at `off` is. -/
structure Part (C : Config) (off size : Nat) (p : Sub) : Prop where
  hid : p.hid < C.n
  len : 0 < p.len
  ends : p.pos + p.len ≤ size
  placed : ∀ i, p.Covers i → p.addr i = loc C (off + i)

theorem sized_of_part (hp : Part C off size p) (hroom : off + size < 2 ^ 64) :
    Sized p.off ⟨v.addr + p.pos, p.len⟩ := by
  have hlen := hp.len
  have hends := hp.ends
  have hlast := hp.placed (p.pos + (p.len - 1)) ⟨by omega, by omega⟩
  have hoff := congrArg Prod.snd hlast
  have hle : (loc C (off + (p.pos + (p.len - 1)))).2 ≤ off + (p.pos + (p.len - 1)) := by
    change _ % _ + _ / _ / _ * _ ≤ _
    generalize off + (p.pos + (p.len - 1)) = y
    have hdiv : y / C.stripSz / C.n * C.stripSz ≤ y / C.stripSz * C.stripSz :=
      Nat.mul_le_mul_right _ (Nat.div_le_self _ _)
    have := Nat.div_add_mod' y C.stripSz
    omega
  rw [← hoff] at hle
  change p.off + (p.pos + (p.len - 1) - p.pos) ≤ _ at hle
  constructor
  · exact fun h => absurd h (Nat.ne_of_gt hlen)
  · change p.off + p.len < _
    omega

/-- Where a part is written, the byte is the part's. -/
theorem covers_of_loc (hp : Part C off size p) {o : Nat} (hx : loc C x = (p.hid, o))
    (hlo : p.off ≤ o) (hhi : o < p.off + p.len) : x = off + (p.pos + (o - p.off)) := by
  refine loc_injective (hx.trans ?_)
  rw [← hp.placed (p.pos + (o - p.off)) ⟨by omega, by omega⟩]
  change (p.hid, o) = (p.hid, p.off + (p.pos + (o - p.off) - p.pos))
  congr 1
  omega

theorem loc_part (hp : Part C off size p) (hlo : off + p.pos ≤ x) (hhi : x < off + (p.pos + p.len)) :
    loc C x = (p.hid, p.off + (x - off - p.pos)) := by
  have hx := hp.placed (x - off) ⟨by omega, by omega⟩
  rw [Nat.add_sub_cancel' (by omega)] at hx
  exact hx.symm

/-- One part is written. -/
theorem logical_write (hp : Part C off size p) (hh : h.val = p.hid)
    (hu : (hs h).bytes u =
      overlay ((hs h).bytes (s h)) p.off p.len fun i => src (p.pos + i)) :
    logical hs (Function.update s h u) =
      overlay (logical hs s) (off + p.pos) p.len fun i => src (p.pos + i) := by
  funext x
  by_cases hx : off + p.pos ≤ x ∧ x < off + p.pos + p.len
  · have hloc := loc_part hp hx.1 (by omega)
    rw [← hh] at hloc
    rw [logical_eq hloc, Function.update_self, hu, overlay, overlay, if_pos hx, if_pos (by omega)]
    congr 1
    omega
  · rw [overlay, if_neg hx]
    by_cases he : (loc C x).1 = h.val
    · have hloc : loc C x = (h.val, (loc C x).2) := Prod.ext he rfl
      rw [logical_eq hloc, logical_eq hloc, Function.update_self, hu, overlay, if_neg]
      rintro ⟨hlo, hhi⟩
      have := covers_of_loc hp (hh ▸ hloc) hlo hhi
      omega
    · exact logical_update_of_ne he

theorem part_of_tiles (ht : Tiles C off size ss) (hp : p ∈ ss) : Part C off size p where
  hid := (ht.inside p hp).1
  len := ((bounds_of_consecutive ht.consecutive).2 p hp).1
  ends := ((bounds_of_consecutive ht.consecutive).2 p hp).2
  placed := ht.placed p hp

theorem readAll_eq (hroom : off + v.len < 2 ^ 64) (hparts : ∀ p ∈ ss, Part C off v.len p)
    (hc : Consecutive pos ss v.len) (hr : readAll hs v ss s buf = some (got, t)) :
    logical hs t = logical hs s ∧
      ∀ i < v.len, got i = if i < pos then buf i else logical hs s (off + i) := by
  induction ss generalizing pos s buf with
  | nil =>
    cases hr
    exact ⟨rfl, fun i hi => (if_pos (hc ▸ hi)).symm⟩
  | cons p ss ih =>
    have hp := hparts p (.head _)
    obtain ⟨rfl, hlen, hc⟩ := hc
    rw [readAll, dif_pos hp.hid] at hr
    obtain ⟨⟨piece, u⟩, hread, hr⟩ := Option.bind_eq_some_iff.mp hr
    obtain ⟨hpiece, hu⟩ := (hs _).read_bytes _ _ _ _ _ (sized_of_part hp hroom) hread
    obtain ⟨hbytes, hgot⟩ := ih (fun q hq => hparts q (.tail _ hq)) hc hr
    rw [logical_update hu] at hbytes hgot
    refine ⟨hbytes, fun i hi => ?_⟩
    rw [hgot i hi]
    by_cases hlo : i < p.pos
    · rw [if_pos hlo, if_pos (by omega), overlay, if_neg (by omega)]
    · rw [if_neg hlo]
      by_cases hhi : i < p.pos + p.len
      · have hloc : loc C (off + i) = (p.hid, p.off + (i - p.pos)) := by
          rw [loc_part hp (by omega) (by omega), Nat.add_sub_cancel_left]
        rw [if_pos hhi, overlay, if_pos ⟨by omega, hhi⟩]
        rw [@logical_eq C hs s _ ⟨p.hid, hp.hid⟩ _ hloc]
        exact hpiece (i - p.pos) (by change i - p.pos < p.len; omega)
      · exact if_neg hhi

theorem writeAll_eq (hroom : off + v.len < 2 ^ 64) (hparts : ∀ p ∈ ss, Part C off v.len p)
    (hc : Consecutive pos ss v.len) (hw : writeAll hs v src ss s = some t) :
    logical hs t =
      overlay (logical hs s) (off + pos) (v.len - pos) fun i => src (pos + i) := by
  induction ss generalizing pos s with
  | nil =>
    cases hw
    funext x
    have hpos : pos = v.len := hc
    rw [overlay, if_neg (by omega)]
  | cons p ss ih =>
    have hp := hparts p (.head _)
    obtain ⟨rfl, hlen, hc⟩ := hc
    rw [writeAll, dif_pos hp.hid] at hw
    obtain ⟨u, hwrite, hw⟩ := Option.bind_eq_some_iff.mp hw
    have hu := (hs _).write_bytes _ _ _ _ _ (sized_of_part hp hroom) hwrite
    have hends := hp.ends
    rw [ih (fun q hq => hparts q (.tail _ hq)) hc hw, logical_write hp rfl hu]
    funext x
    simp only [overlay]
    by_cases hlo : off + p.pos ≤ x
    · by_cases hmid : x < off + p.pos + p.len
      · rw [if_neg (by omega), if_pos ⟨hlo, hmid⟩, if_pos (by omega)]
      · by_cases hhi : x < off + v.len
        · rw [if_pos (by omega), if_pos (by omega)]
          congr 1
          omega
        · rw [if_neg (by omega), if_neg (by omega), if_neg (by omega)]
    · rw [if_neg (by omega), if_neg (by omega), if_neg (by omega)]

/-- The target, a handler itself. -/
def target (C : Config) (hs : Handlers C) : Device where
  State := hs.State
  bytes := logical hs
  read s off v := do
    let ss ← doOp C off v
    readAll hs v ss s fun _ => 0
  write s off v src := do
    let ss ← doOp C off v
    writeAll hs v src ss s
  read_bytes s off v got t hv h := by
    rw [doOp_eq hv] at h
    have ht : Tiles C off v.len _ := tiles_cut
    obtain ⟨hbytes, hgot⟩ := readAll_eq hv.room (fun _ => part_of_tiles ht) ht.consecutive h
    exact ⟨fun i hi => (hgot i hi).trans (if_neg (Nat.not_lt_zero i)), hbytes⟩
  write_bytes s off v src t hv h := by
    rw [doOp_eq hv] at h
    have ht : Tiles C off v.len _ := tiles_cut
    rw [writeAll_eq hv.room (fun _ => part_of_tiles ht) ht.consecutive h]
    simp only [Nat.add_zero, Nat.sub_zero, Nat.zero_add]

/-- Every request is cut into parts that follow each other in its buffer, each inside one strip;
bytes and their places correspond one to one; and successful requests, one after the other, give
what they give on one flat array. -/
theorem refines (C : Config) (hs : Handlers C) :
    (∀ off v, Sized off v → ∃ ss, doOp C off v = some ss ∧ Tiles C off v.len ss) ∧
      Set.BijOn (loc C) Set.univ {a | a.1 < C.n} ∧
      ∀ s reqs outs t, (∀ r ∈ reqs, r.Sized) → (target C hs).serve s reqs = some (outs, t) →
        outs = (Device.flat (logical hs s) reqs).1 ∧
          logical hs t = (Device.flat (logical hs s) reqs).2 :=
  ⟨fun _ _ hv => ⟨_, doOp_eq hv, tiles_cut⟩, loc_bijOn,
    fun _ _ _ _ hsized h => Device.flat_of_serve hsized h⟩

/-- Three handlers, each a target over two more. -/
def trio : Config := ⟨4, 3, ⟨2, rfl⟩, by decide, by decide⟩

def pair : Config := ⟨2, 2, ⟨1, rfl⟩, by decide, by decide⟩

def nested : Handlers trio := fun _ => target pair fun _ => Device.memory

def filled : Transfer := .write 3 ⟨0, 7⟩ fun i => ⟨BitVec.ofNat 8 (i + 1)⟩

def zeros : nested.State := fun _ _ _ => 0

/-- Seven bytes written across three strips are read back from the handlers below. -/
theorem refines_nested : ∃ outs t,
    (target trio nested).serve zeros [filled, .read 2 ⟨0, 9⟩] = some (outs, t) ∧
      outs = [[0, 1, 2, 3, 4, 5, 6, 7, 0].map fun i => ⟨BitVec.ofNat 8 i⟩] := by
  obtain ⟨⟨outs, t⟩, h⟩ : ∃ r, (target trio nested).serve zeros [filled, .read 2 ⟨0, 9⟩] = some r :=
    Option.isSome_iff_exists.mp rfl
  have hsized : ∀ r ∈ [filled, .read 2 ⟨0, 9⟩], r.Sized := by
    simp only [List.forall_mem_cons, filled]
    exact ⟨⟨by decide, by decide⟩, ⟨by decide, by decide⟩, by simp⟩
  refine ⟨outs, t, h, ?_⟩
  rw [((refines trio nested).2.2 zeros _ outs t hsized h).1]
  rfl

end Ublk.Raid0
