import Ublk.Raid0.Flat

/-! Requests of whole sectors, and handlers that serve all of them below some offset. -/
namespace Ublk

/-- Whole sectors among the first `lim` bytes, and a buffer at whole words. -/
structure Whole (lim off : Nat) (v : Span) : Prop where
  pos : 0 < v.len
  sectorOff : 512 ∣ off
  sectorSize : 512 ∣ v.len
  addr : 8 ∣ v.addr
  room : off + v.len ≤ lim

def Transfer.Whole (lim : Nat) : Transfer → Prop
  | .read off v => Ublk.Whole lim off v
  | .write off v _ => Ublk.Whole lim off v

/-- Zeros from `lim` on. -/
def ZeroFrom (lim : Nat) (a : Nat → Byte) : Prop := ∀ x, lim ≤ x → a x = 0

variable {lim off : Nat} {v : Span}

theorem sized_of_whole (hlim : lim < 2 ^ 64) (h : Whole lim off v) : Sized off v :=
  ⟨Nat.ne_of_gt h.pos, Nat.lt_of_le_of_lt h.room hlim⟩

namespace Device

/-- Every request of whole sectors below `lim` is served, whatever bytes the handler holds; and it
may hold any bytes there, with zeros behind them. -/
structure Serves (D : Device) (lim : Nat) : Prop where
  word : lim < 2 ^ 64
  holds : ∀ a, ZeroFrom lim a → ∃ s, D.bytes s = a
  read : ∀ s off v, Whole lim off v → ∃ r, D.read s off v = some r
  write : ∀ s off v src, Whole lim off v → ∃ t, D.write s off v src = some t

variable {D : Device} {s : D.State} {reqs : List Transfer}

end Device

namespace Raid0

variable {C : Config} {hs : Handlers C} {ss : List Sub}

/-- A handler's share of the bytes. -/
def share (C : Config) (a : Nat → Byte) (h : Fin C.n) (o : Nat) : Byte :=
  a ((o / C.stripSz * C.n + h) * C.stripSz + o % C.stripSz)

theorem readAll_total (hD : ∀ h, (hs h).Serves lim) {s : hs.State} {buf : Nat → Byte}
    (hp : ∀ p ∈ ss, p.hid < C.n ∧ Whole lim p.off ⟨v.addr + p.pos, p.len⟩) :
    ∃ r, readAll hs v ss s buf = some r := by
  induction ss generalizing s buf with
  | nil => exact ⟨_, rfl⟩
  | cons p ss ih =>
    obtain ⟨hhid, hwhole⟩ := hp p (.head _)
    obtain ⟨⟨got, u⟩, hread⟩ := (hD ⟨p.hid, hhid⟩).read (s _) _ _ hwhole
    rw [readAll, dif_pos hhid, hread]
    exact ih fun q hq => hp q (.tail _ hq)

theorem writeAll_total (hD : ∀ h, (hs h).Serves lim) {s : hs.State} {src : Nat → Byte}
    (hp : ∀ p ∈ ss, p.hid < C.n ∧ Whole lim p.off ⟨v.addr + p.pos, p.len⟩) :
    ∃ t, writeAll hs v src ss s = some t := by
  induction ss generalizing s with
  | nil => exact ⟨_, rfl⟩
  | cons p ss ih =>
    obtain ⟨hhid, hwhole⟩ := hp p (.head _)
    obtain ⟨u, hwrite⟩ := (hD ⟨p.hid, hhid⟩).write (s _) _ _ (fun i => src (p.pos + i)) hwhole
    rw [writeAll, dif_pos hhid, hwrite]
    exact ih fun q hq => hp q (.tail _ hq)

end Raid0
end Ublk
