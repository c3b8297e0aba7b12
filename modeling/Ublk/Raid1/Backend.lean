import Ublk.Device
import Ublk.Failstop.Target

/-!
Mirrors. A read goes round the handlers by chunks; a write goes to all of them.
-/
namespace Ublk.Raid1

open Words

/-- The configuration a backend accepts. A chunk size of 0 is replaced by the largest one before. -/
structure Config where
  readStripSz : Nat
  n : Nat
  sectors : 512 ∣ readStripSz
  pos : 0 < readStripSz
  word : readStripSz < 2 ^ 64
  two : 2 ≤ n

variable {C : Config} {off fuel rb : Nat} {v : Span} {hid : Fin C.n} {ss : List (Sub × Fin C.n)}

theorem Config.n_pos (C : Config) : 0 < C.n := Nat.zero_lt_of_lt C.two

/-- `(next_hid_ + 1) % hs_.size()` -/
def Config.next (C : Config) (hid : Fin C.n) : Fin C.n :=
  ⟨(hid.val + 1) % C.n, Nat.mod_lt _ (Nat.zero_lt_of_lt C.two)⟩

/-- The loop of a read; `rb` bytes are submitted. Each chunk comes with `next_hid_` after it. -/
def chunks (C : Config) (off : Nat) (v : Span) : Nat → Nat → Fin C.n →
    Option (List (Sub × Fin C.n))
  | 0, _, _ => none
  | fuel + 1, rb, hid =>
    if rb < v.len then do
      let chunkSz := min C.readStripSz (sub v.len rb)
      let _ ← v.subquery rb chunkSz
      let rest ← chunks C off v fuel (wrap (rb + chunkSz)) (C.next hid)
      return (⟨hid, wrap (off + rb), rb, chunkSz⟩, C.next hid) :: rest
    else some []

/-- A write is one query that all the handlers share. -/
def copies (C : Config) (off : Nat) (v : Span) (hid : Fin C.n) : List (Sub × Fin C.n) :=
  (List.range C.n).map fun h => (⟨h, off, 0, v.len⟩, hid)

def route (C : Config) (hid : Fin C.n) (write : Bool) (off : Nat) (v : Span) :
    Option (List (Sub × Fin C.n)) :=
  if write then some (copies C off v hid) else chunks C off v (v.len + 1) 0 hid

/-- The backend in front of which a target stands. -/
abbrev backend (C : Config) : Failstop.Backend :=
  ⟨Fin C.n, ⟨0, Nat.zero_lt_of_lt C.two⟩, route C⟩

/-- The chunks follow each other in the buffer, and each reads where it belongs. -/
theorem chunks_total (hroom : off + v.len < 2 ^ 64) (hrb : rb ≤ v.len) (hfuel : v.len - rb < fuel) :
    ∃ ss, chunks C off v fuel rb hid = some ss ∧ Consecutive rb (ss.map Prod.fst) v.len ∧
      ∀ s ∈ ss, s.1.hid < C.n ∧ s.1.off = off + s.1.pos := by
  induction fuel generalizing rb hid with
  | zero => omega
  | succ fuel ih =>
    rw [chunks]
    split
    · have hpos := C.pos
      rw [sub_of_le hrb (by omega)]
      have hsub : ∃ v', v.subquery rb (min C.readStripSz (v.len - rb)) = some v' :=
        ⟨_, Span.subquery_eq (by omega) (by omega) (by omega)⟩
      obtain ⟨v', hsub⟩ := hsub
      obtain ⟨ss, hss, hc, hall⟩ :=
        @ih (rb + min C.readStripSz (v.len - rb)) (C.next hid) (by omega) (by omega)
      dsimp only
      rw [hsub, wrap_of_lt (by omega : rb + _ < 2 ^ 64), hss, wrap_of_lt (by omega)]
      refine ⟨_, rfl, ⟨rfl, ?_, hc⟩, fun s hs => ?_⟩
      · change 0 < min C.readStripSz (v.len - rb)
        omega
      · obtain rfl | hs := List.mem_cons.mp hs
        · exact ⟨hid.isLt, rfl⟩
        · exact hall s hs
    · refine ⟨[], rfl, ?_, by simp⟩
      change rb = v.len
      omega

theorem route_total (C : Config) (hid : Fin C.n) (write : Bool) (h : Sized off v) :
    ∃ ss, route C hid write off v = some ss := by
  cases write with
  | true => exact ⟨_, rfl⟩
  | false =>
    obtain ⟨ss, hss, -⟩ := @chunks_total C off _ 0 v hid h.room (Nat.zero_le _)
      (show v.len - 0 < v.len + 1 by omega)
    exact ⟨ss, hss⟩

end Ublk.Raid1
