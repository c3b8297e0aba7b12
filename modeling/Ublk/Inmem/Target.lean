import Ublk.Device

/-!
A target in memory. Its one check adds an offset and a size in 64 bits, so the sum of a request that
ends beyond the last offset may be small again.
-/
namespace Ublk.Inmem

open Words

def EINVAL : Int := 22

structure Target where
  /-- Where `mem_` lies. -/
  addr : Nat
  memSz : Nat
  word : memSz < 2 ^ 64

structure State where
  /-- The byte at each offset of 64 bits from `mem_`, also at those outside. -/
  mem : Nat → Byte
  /-- History: the offsets accessed. -/
  touched : List Nat

namespace Target

variable (T : Target)

/-- `inmem::Target::process` of a read: what it returns, and the bytes it copies to the buffer. -/
def read (off : Nat) (v : Span) (s : State) : Option ((Int × List Byte) × State) :=
  (expects (v.len ≠ 0)).bind fun _ =>
    if T.memSz < wrap (off + v.len) then some ((EINVAL, []), s)
    else (Span.copy ⟨wrap (T.addr + off), v.len⟩ v).map fun _ =>
      ((0, (offsets off v.len).map s.mem), { s with touched := s.touched ++ offsets off v.len })

/-- `inmem::Target::process` of a write. -/
def write (off : Nat) (v : Span) (src : Nat → Byte) (s : State) :
    Option ((Int × List Byte) × State) :=
  (expects (v.len ≠ 0)).bind fun _ =>
    if T.memSz < wrap (off + v.len) then some ((EINVAL, []), s)
    else (Span.copy v ⟨wrap (T.addr + off), v.len⟩).map fun _ =>
      ((0, []), ⟨store s.mem off v.len src, s.touched ++ offsets off v.len⟩)

def process : Transfer → State → Option ((Int × List Byte) × State)
  | .read off v => T.read off v
  | .write off v src => T.write off v src

/-- Requests one after the other, and what each returned and copied. -/
def serve (s : State) : List Transfer → Option (List (Int × List Byte) × State)
  | [] => some ([], s)
  | r :: reqs => (T.process r s).bind fun x =>
      (serve x.2 reqs).map fun y => (x.1 :: y.1, y.2)

/-- A flat array of `n` bytes: a request inside of it is served, any other one is refused. -/
def flat (n : Nat) (mem : Nat → Byte) : Transfer → (Int × List Byte) × (Nat → Byte)
  | .read off v =>
    if off + v.len ≤ n then ((0, (List.range v.len).map fun i => mem (off + i)), mem)
    else ((EINVAL, []), mem)
  | .write off v src =>
    if off + v.len ≤ n then ((0, []), overlay mem off v.len src) else ((EINVAL, []), mem)

def flatAll (n : Nat) (mem : Nat → Byte) : List Transfer → List (Int × List Byte) × (Nat → Byte)
  | [] => ([], mem)
  | r :: reqs =>
    ((flat n mem r).1 :: (flatAll n (flat n mem r).2 reqs).1, (flatAll n (flat n mem r).2 reqs).2)

end Target

/-- The offset and the buffer of a request. -/
def range : Transfer → Nat × Span
  | .read off v => (off, v)
  | .write off v _ => (off, v)

/-- The request ends within the offsets of 64 bits, or so far beyond that the sum is still too
large. -/
def Bounded (n : Nat) (r : Transfer) : Prop :=
  (range r).1 + (range r).2.len < 2 ^ 64 ∨ n + 2 ^ 64 < (range r).1 + (range r).2.len

instance (n : Nat) (r : Transfer) : Decidable (Bounded n r) := inferInstanceAs (Decidable (_ ∨ _))

variable {T : Target} {s t : State} {r : Transfer} {reqs : List Transfer} {off len n i : Nat}
  {v : Span} {mem src : Nat → Byte} {out : Int × List Byte} {outs : List (Int × List Byte)}

/-- The check says what is inside unless the sum has wrapped. -/
theorem check_iff (hf : Fits off v) (hn : n < 2 ^ 64)
    (hb : off + v.len < 2 ^ 64 ∨ n + 2 ^ 64 < off + v.len) :
    n < wrap (off + v.len) ↔ ¬ off + v.len ≤ n := by
  have h₁ := hf.off
  have h₂ := hf.len
  unfold wrap
  rcases hb with hb | hb
  · rw [Nat.mod_eq_of_lt hb]
    omega
  · have hwrap : (off + v.len) % 2 ^ 64 = off + v.len - 2 ^ 64 := by omega
    omega

/-- A wrapped sum that is small enough passes. -/
theorem check_wrapped (hf : Fits off v)
    (hb : ¬ (off + v.len < 2 ^ 64 ∨ n + 2 ^ 64 < off + v.len)) : ¬ n < wrap (off + v.len) := by
  have h₁ := hf.off
  have h₂ := hf.len
  have hwrap : wrap (off + v.len) = off + v.len - 2 ^ 64 := by
    unfold wrap
    omega
  omega

/-- What a request that passes the check copies, and the state it leaves. -/
def moved : Transfer → State → List Byte × State
  | .read off v, s =>
    ((offsets off v.len).map s.mem, { s with touched := s.touched ++ offsets off v.len })
  | .write off v src, s => ([], ⟨store s.mem off v.len src, s.touched ++ offsets off v.len⟩)

theorem touched_moved : (moved r s).2.touched =
    s.touched ++ offsets (range r).1 (range r).2.len := by
  cases r <;> rfl

theorem process_pass (hv : (range r).2.len ≠ 0)
    (hc : ¬ T.memSz < wrap ((range r).1 + (range r).2.len)) :
    T.process r s = some ((0, (moved r s).1), (moved r s).2) := by
  cases r with
  | read off v =>
    have hcopy : Span.copy ⟨wrap (T.addr + off), v.len⟩ v = some () := Span.copy_eq le_rfl
    exact (bind_expects hv _).trans ((if_neg hc).trans (hcopy ▸ rfl))
  | write off v src =>
    have hcopy : Span.copy v ⟨wrap (T.addr + off), v.len⟩ = some () := Span.copy_eq le_rfl
    exact (bind_expects hv _).trans ((if_neg hc).trans (hcopy ▸ rfl))

theorem process_refuse (hv : (range r).2.len ≠ 0)
    (hc : T.memSz < wrap ((range r).1 + (range r).2.len)) :
    T.process r s = some ((EINVAL, []), s) := by
  cases r <;> exact (bind_expects hv _).trans (if_pos hc)

theorem flat_inside (h : (range r).1 + (range r).2.len ≤ n) (hn : n < 2 ^ 64) :
    Target.flat n s.mem r = ((0, (moved r s).1), (moved r s).2.mem) := by
  cases r with
  | read off v =>
    have h : off + v.len ≤ n := h
    simp [Target.flat, moved, if_pos h, offsets_eq (show off + v.len ≤ 2 ^ 64 by omega),
      Function.comp_def]
  | write off v src =>
    have h : off + v.len ≤ n := h
    simp [Target.flat, moved, if_pos h, store_eq h hn]

theorem flat_outside (h : ¬ (range r).1 + (range r).2.len ≤ n) :
    Target.flat n mem r = ((EINVAL, []), mem) := by
  cases r <;> exact if_neg h

/-- A bounded request does what the flat array does, and stays inside. -/
theorem process_bounded (hf : Fits (range r).1 (range r).2) (hb : Bounded T.memSz r) :
    ∃ t, T.process r s = some ((Target.flat T.memSz s.mem r).1, t) ∧
      t.mem = (Target.flat T.memSz s.mem r).2 ∧ s.touched ⊆ t.touched ∧
      ∀ a ∈ t.touched, a ∈ s.touched ∨ a < T.memSz := by
  have hpos : (range r).2.len ≠ 0 := Nat.ne_of_gt hf.pos
  have hword := T.word
  have hcheck := check_iff hf hword hb
  by_cases hin : (range r).1 + (range r).2.len ≤ T.memSz
  · have hflat := @flat_inside s r T.memSz hin hword
    refine ⟨(moved r s).2, ?_, ?_, ?_, ?_⟩
    · rw [hflat]
      exact process_pass hpos fun hc => hcheck.mp hc hin
    · rw [hflat]
    · rw [touched_moved]
      exact List.subset_append_left _ _
    · intro a ha
      rw [touched_moved, offsets_eq (by omega)] at ha
      rcases List.mem_append.mp ha with ha | ha
      · exact .inl ha
      · obtain ⟨i, hi, rfl⟩ := List.mem_map.mp ha
        have := List.mem_range.mp hi
        exact .inr (by omega)
  · have hflat := @flat_outside r T.memSz s.mem hin
    refine ⟨s, ?_, ?_, List.Subset.refl _, fun _ => .inl⟩
    · rw [hflat]
      exact process_refuse hpos (hcheck.mpr hin)
    · rw [hflat]

/-- One that is not returns 0 although it is not inside. -/
theorem process_unbounded (hf : Fits (range r).1 (range r).2) (hb : ¬ Bounded T.memSz r) :
    T.process r s = some ((0, (moved r s).1), (moved r s).2) ∧
      Target.flat T.memSz mem r = ((EINVAL, []), mem) := by
  refine ⟨process_pass (Nat.ne_of_gt hf.pos) (check_wrapped hf hb), flat_outside ?_⟩
  have hword := T.word
  unfold Bounded at hb
  omega

/-- Requests get what they get of the flat array, and nothing outside is accessed. -/
structure Target.Serves (T : Target) (s : State) (reqs : List Transfer) (t : State)
    (outs : List (Int × List Byte)) : Prop where
  run : T.serve s reqs = some (outs, t)
  outs : outs = (flatAll T.memSz s.mem reqs).1
  mem : t.mem = (flatAll T.memSz s.mem reqs).2
  inside : ∀ a ∈ t.touched, a ∈ s.touched ∨ a < T.memSz

theorem serves_of_bounded (hf : ∀ r ∈ reqs, Fits (range r).1 (range r).2)
    (hb : ∀ r ∈ reqs, Bounded T.memSz r) : ∃ t outs, T.Serves s reqs t outs := by
  induction reqs generalizing s with
  | nil => exact ⟨s, [], ⟨rfl, rfl, rfl, fun _ => .inl⟩⟩
  | cons r reqs ih =>
    obtain ⟨u, hr, hmem, -, hin⟩ := @process_bounded T s r (hf r (.head _)) (hb r (.head _))
    obtain ⟨t, outs, hrest⟩ := @ih u (fun r hr => hf r (.tail _ hr)) fun r hr => hb r (.tail _ hr)
    refine ⟨t, (Target.flat T.memSz s.mem r).1 :: outs, ⟨?_, ?_, ?_, ?_⟩⟩
    · rw [Target.serve, hr, Option.bind_some, hrest.run]
      rfl
    · rw [Target.flatAll, hrest.outs, hmem]
    · rw [Target.flatAll, hrest.mem, hmem]
    · intro a ha
      rcases hrest.inside a ha with ha | ha
      · exact hin a ha
      · exact .inr ha

theorem bounded_of_serves (hf : ∀ r ∈ reqs, Fits (range r).1 (range r).2)
    (h : T.Serves s reqs t outs) : ∀ r ∈ reqs, Bounded T.memSz r := by
  induction reqs generalizing s outs with
  | nil => simp
  | cons r reqs ih =>
    obtain ⟨hrun, houts, hend, hin⟩ := h
    have hr : Bounded T.memSz r := by
      by_contra hn
      obtain ⟨hp, hflat⟩ := @process_unbounded T s r s.mem (hf r (.head _)) hn
      rw [Target.serve, hp, Option.bind_some] at hrun
      obtain ⟨rest, -, he⟩ := Option.map_eq_some_iff.mp hrun
      cases he
      -- the code returned 0 where the array refuses
      rw [Target.flatAll, hflat] at houts
      cases houts
    obtain ⟨u, hp, hmem, hsub, -⟩ := @process_bounded T s r (hf r (.head _)) hr
    rw [Target.serve, hp, Option.bind_some] at hrun
    obtain ⟨rest, hrest, he⟩ := Option.map_eq_some_iff.mp hrun
    cases he
    have hrestServes : T.Serves u reqs rest.2 rest.1 := by
      refine ⟨hrest, ?_, ?_, fun a ha => (hin a ha).imp_left fun hs => hsub hs⟩
      · rw [hmem]
        exact (List.cons.inj houts).2
      · rw [hmem]
        exact hend
    intro r' hr'
    rcases List.mem_cons.mp hr' with rfl | hr'
    · exact hr
    · exact ih (fun r hr => hf r (.tail _ hr)) hrestServes r' hr'

/-- Requests are served as by a flat array exactly if none of them ends beyond the offsets with a
sum that has become small. -/
theorem serves_iff (hf : ∀ r ∈ reqs, Fits (range r).1 (range r).2) :
    (∃ t outs, T.Serves s reqs t outs) ↔ ∀ r ∈ reqs, Bounded T.memSz r := by
  constructor
  · rintro ⟨t, outs, h⟩
    exact bounded_of_serves hf h
  · exact serves_of_bounded hf

/-- A sector at the start, one behind the end, and one that ends far beyond the offsets. -/
def threeReads : List Transfer :=
  [.read 0 ⟨4096, 512⟩, .read 512 ⟨4096, 512⟩, .read (2 ^ 64 - 1) ⟨4096, 1024⟩]

def sector : Target := ⟨8192, 512, by decide⟩

theorem serves_iff_threeReads :
    ∃ t outs, sector.Serves ⟨fun _ => ⟨7⟩, []⟩ threeReads t outs := by
  refine (serves_iff ?_).mpr ?_
  · intro r hr
    have hall : ∀ r ∈ threeReads, (range r).1 < 2 ^ 64 ∧ 0 < (range r).2.len ∧
        (range r).2.len < 2 ^ 64 := by decide
    exact ⟨(hall r hr).1, (hall r hr).2.1, (hall r hr).2.2⟩
  · decide

/-- The last 512 offsets: the sum is 0, and what lies in front of the memory is read. -/
def lastSector : Transfer := .read (2 ^ 64 - 512) ⟨4096, 512⟩

theorem not_serves : Fits (range lastSector).1 (range lastSector).2 ∧
    sector.process lastSector ⟨fun _ => ⟨7⟩, []⟩ =
      some ((0, (offsets (2 ^ 64 - 512) 512).map fun _ => ⟨7⟩),
        ⟨fun _ => ⟨7⟩, offsets (2 ^ 64 - 512) 512⟩) ∧
    (∀ a ∈ offsets (2 ^ 64 - 512) 512, ¬ a < sector.memSz) ∧
    ¬ ∃ t outs, sector.Serves ⟨fun _ => ⟨7⟩, []⟩ [lastSector] t outs := by
  have hf : Fits (range lastSector).1 (range lastSector).2 :=
    ⟨by decide, by decide, by decide⟩
  have hc : ¬ sector.memSz < wrap ((range lastSector).1 + (range lastSector).2.len) := by decide
  refine ⟨hf, ?_, ?_, ?_⟩
  · rw [process_pass (Nat.ne_of_gt hf.pos) hc]
    simp only [moved, lastSector, List.nil_append]
  · intro a ha
    rw [offsets_eq (by decide)] at ha
    obtain ⟨i, -, rfl⟩ := List.mem_map.mp ha
    simp only [sector]
    omega
  · rintro ⟨t, outs, h⟩
    have hb := bounded_of_serves (by simpa using hf) h lastSector (.head _)
    revert hb
    decide

end Ublk.Inmem
