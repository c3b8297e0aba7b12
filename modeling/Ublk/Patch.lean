import Ublk.Query

/-! Bytes laid over others, one range after another: a place has what the last range over it brings. -/
namespace Ublk

variable {P : Type} {off size : P → Nat} {src : P → Nat → Byte} {old : Nat → Byte} {p : P}
  {ps qs : List P} {i : Nat}

/-- The ranges of a list, each laid over what those before it left. -/
def overlays (off size : P → Nat) (src : P → Nat → Byte) (old : Nat → Byte) (ps : List P) :
    Nat → Byte :=
  ps.foldl (fun bytes p => overlay bytes (off p) (size p) (src p)) old

theorem overlays_append : overlays off size src old (ps ++ qs) =
    overlays off size src (overlays off size src old ps) qs := List.foldl_append

theorem overlays_of_none (h : ∀ q ∈ qs, ¬ (off q ≤ i ∧ i < off q + size q)) :
    overlays off size src old qs i = old i := by
  induction qs generalizing old with
  | nil => rfl
  | cons q qs ih =>
    calc overlays off size src old (q :: qs) i
        = overlay old (off q) (size q) (src q) i := ih fun r hr => h r (.tail _ hr)
      _ = old i := if_neg (h q (.head _))

/-- A place in some range has what one of the ranges over it brings. -/
theorem overlays_of_mem (h : ∃ q ∈ qs, off q ≤ i ∧ i < off q + size q) :
    ∃ q ∈ qs, (off q ≤ i ∧ i < off q + size q) ∧
      overlays off size src old qs i = src q (i - off q) := by
  induction qs generalizing old with
  | nil => simp at h
  | cons q qs ih =>
    by_cases hrest : ∃ r ∈ qs, off r ≤ i ∧ i < off r + size r
    · obtain ⟨r, hr, hin, he⟩ := @ih (overlay old (off q) (size q) (src q)) hrest
      exact ⟨r, .tail _ hr, hin, he⟩
    · obtain ⟨r, hr, hin⟩ := h
      obtain rfl | hr := List.mem_cons.mp hr
      · refine ⟨r, .head _, hin, ?_⟩
        calc overlays off size src old (r :: qs) i
            = overlay old (off r) (size r) (src r) i :=
              overlays_of_none fun p hp hc => hrest ⟨p, hp, hc⟩
          _ = src r (i - off r) := if_pos hin
      · exact absurd ⟨r, hr, hin⟩ hrest

theorem overlays_of_last (h : off p ≤ i ∧ i < off p + size p)
    (hlast : ∀ q ∈ qs, ¬ (off q ≤ i ∧ i < off q + size q)) :
    overlays off size src old (ps ++ p :: qs) i = src p (i - off p) := by
  rw [overlays_append]
  exact (overlays_of_none hlast).trans (if_pos h)

end Ublk
