import Ublk.Query
import Ublk.Span

/-! Handlers that behave as one flat run of bytes, and requests made of them one after the other. -/
namespace Ublk

open Words

/-- A request a handler may get: its offset and its buffer end below `2 ^ 64`. -/
structure Sized (off : Nat) (v : Span) : Prop where
  pos : v.len ≠ 0
  room : off + v.len < 2 ^ 64

/-- A handler with the bytes it stands for. Of a request that it turns down or that fails nothing is
said; otherwise a read returns the bytes, and a write changes its own range alone. -/
structure Device where
  State : Type
  bytes : State → Nat → Byte
  read : State → Nat → Span → Option ((Nat → Byte) × State)
  write : State → Nat → Span → (Nat → Byte) → Option State
  read_bytes : ∀ s off v got t, Sized off v → read s off v = some (got, t) →
    (∀ i < v.len, got i = bytes s (off + i)) ∧ bytes t = bytes s
  write_bytes : ∀ s off v src t, Sized off v → write s off v src = some t →
    bytes t = overlay (bytes s) off v.len src

/-- Memory. -/
def Device.memory : Device where
  State := Nat → Byte
  bytes s := s
  read s off _ := some (fun i => s (off + i), s)
  write s off v src := some (overlay s off v.len src)
  read_bytes _ _ _ _ _ _ h := by cases h; exact ⟨fun _ _ => rfl, rfl⟩
  write_bytes _ _ _ _ _ _ h := by cases h; rfl

/-- A client's request: an offset and a buffer, and what the buffer of a write holds. -/
inductive Transfer
  | read (off : Nat) (v : Span)
  | write (off : Nat) (v : Span) (src : Nat → Byte)

def Transfer.Sized : Transfer → Prop
  | .read off v => Ublk.Sized off v
  | .write off v _ => Ublk.Sized off v

section Offsets

variable {off len n : Nat} {v : Span} {mem src : Nat → Byte}

/-- A request that fits its types: a nonempty buffer and an offset of 64 bits. -/
structure Fits (off : Nat) (v : Span) : Prop where
  off : off < 2 ^ 64
  pos : 0 < v.len
  len : v.len < 2 ^ 64

/-- The offsets of 64 bits that `len` bytes from `off` on are at. -/
def offsets (off len : Nat) : List Nat := (List.range len).map fun i => wrap (off + i)

/-- What is at each offset of 64 bits once `len` bytes of `src` are stored from `off` on. -/
def store (mem : Nat → Byte) (off len : Nat) (src : Nat → Byte) : Nat → Byte :=
  fun a => if a < 2 ^ 64 ∧ sub a off < len then src (sub a off) else mem a

theorem offsets_eq (h : off + len ≤ 2 ^ 64) :
    offsets off len = (List.range len).map fun i => off + i := by
  apply List.map_congr_left
  intro i hi
  have hi := List.mem_range.mp hi
  exact wrap_of_lt (by omega)

theorem store_eq (h : off + len ≤ n) (hn : n < 2 ^ 64) :
    store mem off len src = overlay mem off len src := by
  funext a
  unfold store overlay
  by_cases ha : off ≤ a ∧ a < off + len
  · have hsub : sub a off = a - off := sub_of_le ha.1 (by omega)
    rw [if_pos ha, if_pos ⟨by omega, by omega⟩, hsub]
  · rw [if_neg ha, if_neg]
    rintro ⟨hlt, hsub⟩
    unfold sub at hsub
    omega

end Offsets

namespace Device

variable {D : Device} {s t : D.State} {reqs : List Transfer} {outs : List (List Byte)}

/-- Requests one after the other as long as they succeed, and what the reads return. -/
def serve (D : Device) (s : D.State) : List Transfer → Option (List (List Byte) × D.State)
  | [] => some ([], s)
  | .read off v :: reqs => do
    let (got, t) ← D.read s off v
    let (outs, u) ← D.serve t reqs
    return ((List.range v.len).map got :: outs, u)
  | .write off v src :: reqs => do
    let t ← D.write s off v src
    D.serve t reqs

/-- What one flat array makes of requests. -/
def flat (a : Nat → Byte) : List Transfer → List (List Byte) × (Nat → Byte)
  | [] => ([], a)
  | .read off v :: reqs =>
    ((List.range v.len).map (fun i => a (off + i)) :: (flat a reqs).1, (flat a reqs).2)
  | .write off v src :: reqs => flat (overlay a off v.len src) reqs

theorem flat_of_serve (hsized : ∀ r ∈ reqs, r.Sized) (h : D.serve s reqs = some (outs, t)) :
    outs = (flat (D.bytes s) reqs).1 ∧ D.bytes t = (flat (D.bytes s) reqs).2 := by
  induction reqs generalizing s outs with
  | nil =>
    cases h
    exact ⟨rfl, rfl⟩
  | cons r reqs ih =>
    have hr := hsized r (.head _)
    have ih := fun s outs => @ih s outs fun r hr => hsized r (.tail _ hr)
    cases r with
    | read off v =>
      obtain ⟨⟨got, u⟩, hread, h⟩ := Option.bind_eq_some_iff.mp h
      obtain ⟨⟨rest, u'⟩, hrest, h⟩ := Option.bind_eq_some_iff.mp h
      cases h
      obtain ⟨hgot, hbytes⟩ := D.read_bytes s off v got u hr hread
      obtain ⟨hout, ht⟩ := ih u rest hrest
      rw [hbytes] at hout ht
      refine ⟨?_, ht⟩
      rw [flat, hout, List.map_congr_left fun i hi => hgot i (List.mem_range.mp hi)]
    | write off v src =>
      obtain ⟨u, hwrite, h⟩ := Option.bind_eq_some_iff.mp h
      obtain ⟨hout, ht⟩ := ih u outs h
      rw [D.write_bytes s off v src u hr hwrite] at hout ht
      exact ⟨hout, ht⟩

end Device

end Ublk
