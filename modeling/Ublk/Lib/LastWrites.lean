import Mathlib.Data.List.Induction

/-!
A cell written over and over, when some writes may have failed half way. It has what one of them
left, none of those known to have arrived having come later.
-/
namespace LastWrites

variable {W V : Type} {covers solid : W → Prop} {value : W → V} {old v : V} {w : W}
  {ws as bs : List W}

/-- What the cell may hold after the writes `ws`, the last one last. `covers` are those that write
the cell, `solid` those known to have arrived. -/
def Left (covers solid : W → Prop) (value : W → V) (old : V) (ws : List W) (v : V) : Prop :=
  (v = old ∧ ∀ w ∈ ws, covers w → ¬ solid w) ∨
    ∃ as w bs, ws = as ++ w :: bs ∧ covers w ∧ v = value w ∧ ∀ u ∈ bs, covers u → ¬ solid u

theorem left_nil : Left covers solid value old [] v ↔ v = old := by
  constructor
  · rintro (⟨h, -⟩ | ⟨as, w, bs, h, -⟩)
    · exact h
    · simp at h
  · exact fun h => .inl ⟨h, by simp⟩

/-- One more write to the cell may be what it holds. -/
theorem left_of_last (hc : covers w) (hv : v = value w) :
    Left covers solid value old (ws ++ [w]) v := .inr ⟨ws, w, [], rfl, hc, hv, by simp⟩

/-- One more write may have come to nothing, unless it is known to have arrived. -/
theorem left_of_lost (h : Left covers solid value old ws v) (hw : covers w → ¬ solid w) :
    Left covers solid value old (ws ++ [w]) v := by
  have hall : ∀ {us : List W}, (∀ u ∈ us, covers u → ¬ solid u) →
      ∀ u ∈ us ++ [w], covers u → ¬ solid u := by
    intro us hus u hu
    obtain hu | hu := List.mem_append.mp hu
    · exact hus u hu
    · exact List.mem_singleton.mp hu ▸ hw
  obtain ⟨hv, hn⟩ | ⟨as, u, bs, rfl, hc, hv, hn⟩ := h
  · exact .inl ⟨hv, hall hn⟩
  · exact .inr ⟨as, u, bs ++ [w], by simp, hc, hv, hall hn⟩

theorem left_concat (h : Left covers solid value old (ws ++ [w]) v) :
    covers w ∧ v = value w ∨ Left covers solid value old ws v ∧ (covers w → ¬ solid w) := by
  obtain ⟨hv, hn⟩ | ⟨as, u, bs, he, hc, hv, hn⟩ := h
  · exact .inr ⟨.inl ⟨hv, fun u hu => hn u (by simp [hu])⟩, hn w (by simp)⟩
  · obtain rfl | ⟨bs, z, rfl⟩ := bs.eq_nil_or_concat
    · obtain ⟨-, hwu⟩ := List.append_inj' he rfl
      cases hwu
      exact .inl ⟨hc, hv⟩
    · rw [List.concat_eq_append, ← List.cons_append, ← List.append_assoc] at he
      obtain ⟨rfl, hwz⟩ := List.append_inj' he rfl
      cases hwz
      exact .inr ⟨.inr ⟨as, u, bs, rfl, hc, hv, fun y hy => hn y (by simp [hy])⟩,
        hn w (by simp)⟩

/-- What the cell holds was there after the first writes or comes from one of the others. -/
theorem left_append (h : Left covers solid value old (as ++ bs) v) :
    Left covers solid value old as v ∨ ∃ w ∈ bs, covers w ∧ v = value w := by
  induction bs using List.reverseRecOn with
  | nil => exact .inl (by simpa using h)
  | append_singleton bs w ih =>
    rw [← List.append_assoc] at h
    obtain ⟨hc, hv⟩ | ⟨h, -⟩ := left_concat h
    · exact .inr ⟨w, by simp, hc, hv⟩
    · obtain h | ⟨u, hu, hc⟩ := ih h
      · exact .inl h
      · exact .inr ⟨u, by simp [hu], hc⟩

/-- Writes that may all have come to nothing. -/
theorem left_of_all_lost (h : Left covers solid value old as v)
    (hb : ∀ w ∈ bs, covers w → ¬ solid w) : Left covers solid value old (as ++ bs) v := by
  induction bs using List.reverseRecOn with
  | nil => simpa using h
  | append_singleton bs w ih =>
    rw [← List.append_assoc]
    exact left_of_lost (ih fun u hu => hb u (by simp [hu])) (hb w (by simp))

/-- More writes to what the first ones left. -/
theorem left_trans {u : V} (h : Left covers solid value old as u)
    (h' : Left covers solid value u bs v) : Left covers solid value old (as ++ bs) v := by
  obtain ⟨rfl, hn⟩ | ⟨cs, w, ds, rfl, hc, hv, hn⟩ := h'
  · exact left_of_all_lost h hn
  · exact .inr ⟨as ++ cs, w, ds, by simp, hc, hv, hn⟩

/-- A write that arrived is seen as long as no later one is for the cell. -/
theorem eq_of_solid (h : Left covers solid value old (as ++ w :: bs) v) (hc : covers w)
    (hs : solid w) (hb : ∀ u ∈ bs, ¬ covers u) : v = value w := by
  rw [← List.singleton_append, ← List.append_assoc] at h
  obtain h | ⟨u, hu, hcov, -⟩ := left_append h
  · obtain ⟨-, hv⟩ | ⟨-, hn⟩ := left_concat h
    · exact hv
    · exact absurd hs (hn hc)
  · exact absurd hcov (hb u hu)

/-- A cell that no write is for keeps what it had. -/
theorem eq_of_none (h : Left covers solid value old ws v) (hn : ∀ w ∈ ws, ¬ covers w) : v = old := by
  obtain ⟨hv, -⟩ | ⟨as, w, bs, rfl, hc, -⟩ := h
  · exact hv
  · exact absurd hc (hn w (by simp))

end LastWrites
