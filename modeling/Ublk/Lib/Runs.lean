import Mathlib.Logic.Function.Basic

/-! Finite runs of a deterministic labelled step function. -/
namespace Lts

variable {S L : Type} {step : S → L → Option S} {ok ok' : S → L → Prop} {s t u : S}

/-- A finite run from `s` every step of which meets `ok`. -/
inductive Run (step : S → L → Option S) (ok : S → L → Prop) (s : S) : S → Prop
  | refl : Run step ok s s
  | tail {t u : S} {l : L} : Run step ok s t → ok t l → step t l = some u → Run step ok s u

/-- Labels carried out one after the other. -/
def exec (step : S → L → Option S) : S → List L → Option S
  | s, [] => some s
  | s, l :: ls => (step s l).bind fun t => exec step t ls

/-- Each step meets `ok` when labels are carried out one after the other. -/
def Along (step : S → L → Option S) (ok : S → L → Prop) : S → List L → Prop
  | _, [] => True
  | s, l :: ls => ok s l ∧ ∀ t, step s l = some t → Along step ok t ls

instance decidableAlong [∀ s l, Decidable (ok s l)] :
    (s : S) → (ls : List L) → Decidable (Along step ok s ls)
  | _, [] => isTrue trivial
  | s, l :: ls =>
    match hs : step s l with
    | none => decidable_of_iff (ok s l) (by simp [Along, hs])
    | some t =>
      have := decidableAlong t ls
      decidable_of_iff (ok s l ∧ Along step ok t ls) (by simp [Along, hs])

theorem run_trans (h₁ : Run step ok s t) (h₂ : Run step ok t u) : Run step ok s u := by
  induction h₂ with
  | refl => exact h₁
  | tail _ ho hs ih => exact .tail ih ho hs

theorem run_mono (hok : ∀ s l, ok s l → ok' s l) (h : Run step ok s t) : Run step ok' s t := by
  induction h with
  | refl => exact .refl
  | tail _ ho hs ih => exact .tail ih (hok _ _ ho) hs

/-- What holds at the start and survives each step holds wherever a run leads. -/
theorem run_invariant {I : S → Prop} (h : Run step ok s t) (h₀ : I s)
    (hstep : ∀ a l b, I a → ok a l → step a l = some b → I b) : I t := by
  induction h with
  | refl => exact h₀
  | tail _ ho hs ih => exact hstep _ _ _ ih ho hs

/-- What the steps of a run recorded is on record where the run leads. -/
theorem run_recorded {W : Type} {record : S → List W} {mark : L → Option W}
    (hstep : ∀ s l t, step s l = some t → (∀ w ∈ record s, w ∈ record t) ∧
      ∀ w, mark l = some w → w ∈ record t) (h : Run step ok s t) :
    Run step (fun _ l => ∀ w, mark l = some w → w ∈ record t) s t := by
  suffices hall : ∀ ws, (∀ w ∈ record t, w ∈ ws) →
      Run step (fun _ l => ∀ w, mark l = some w → w ∈ ws) s t from hall _ fun _ => id
  induction h with
  | refl => exact fun _ _ => .refl
  | tail _ _ hs ih =>
    intro ws hws
    obtain ⟨hold, hnew⟩ := hstep _ _ _ hs
    exact .tail (ih ws fun w hw => hws w (hold w hw)) (fun w hw => hws w (hnew w hw)) hs

theorem run_of_along {ls : List L} (hok : Along step ok s ls) (h : exec step s ls = some t) :
    Run step ok s t := by
  induction ls generalizing s with
  | nil => cases h; exact .refl
  | cons l ls ih =>
    obtain ⟨u, hu, hrest⟩ := Option.bind_eq_some_iff.mp h
    exact run_trans (.tail .refl hok.1 hu) (ih (hok.2 u hu) hrest)

theorem along_of_mem {ls : List L} (hok : ∀ l ∈ ls, ∀ s, ok s l) (h : Along step ok' s ls) :
    Along step (fun s l => ok s l ∧ ok' s l) s ls := by
  induction ls generalizing s with
  | nil => trivial
  | cons l ls ih =>
    exact ⟨⟨hok l (.head _) s, h.1⟩, fun t ht => ih (fun l hl => hok l (.tail _ hl)) (h.2 t ht)⟩

theorem exec_append {ls ls' : List L} :
    exec step s (ls ++ ls') = (exec step s ls).bind fun t => exec step t ls' := by
  induction ls generalizing s with
  | nil => rfl
  | cons l ls ih =>
    rw [List.cons_append, exec, exec, Option.bind_assoc]
    exact congrArg _ (funext fun t => ih)

theorem run_of_exec {ls : List L} (hok : ∀ l ∈ ls, ∀ s, ok s l) (h : exec step s ls = some t) :
    Run step ok s t := by
  induction ls generalizing s with
  | nil => cases h; exact .refl
  | cons l ls ih =>
    obtain ⟨a, ha, ht⟩ := Option.bind_eq_some_iff.mp h
    exact run_trans (.tail .refl (hok l (.head _) s) ha) (ih (fun l hl => hok l (.tail _ hl)) ht)

/-- However steps that meet `ok` are chosen from here on, there is an end to them, and where no
further one can be taken `P` holds. -/
inductive Ends (step : S → L → Option S) (ok : S → L → Prop) (P : S → Prop) : S → Prop
  | intro (s : S) (next : ∀ l t, ok s l → step s l = some t → Ends step ok P t)
      (stop : (∀ l, ok s l → step s l = none) → P s) : Ends step ok P s

/-- A measure that every step lowers brings an end. -/
theorem ends_of_measure {α : Type} {r : α → α → Prop} (hr : WellFounded r) (μ : S → α)
    {I P : S → Prop}
    (hstep : ∀ s l t, I s → ok s l → step s l = some t → I t ∧ r (μ t) (μ s))
    (hstop : ∀ s, I s → (∀ l, ok s l → step s l = none) → P s) (h : I s) :
    Ends step ok P s := by
  induction hm : μ s using hr.induction generalizing s with
  | h a ih =>
    refine .intro s (fun l t hl ht => ?_) (hstop s h)
    obtain ⟨hi, hlt⟩ := hstep s l t h hl ht
    exact ih (μ t) (hm ▸ hlt) hi rfl

/-- One of the ranks gets lower, and none of those before it gets higher. -/
inductive Lowers : List (S → Nat) → S → S → Prop
  | here {f : S → Nat} {fs : List (S → Nat)} {t s : S} (h : f t < f s) : Lowers (f :: fs) t s
  | there {f : S → Nat} {fs : List (S → Nat)} {t s : S} (h : f t ≤ f s) (hs : Lowers fs t s) :
      Lowers (f :: fs) t s

theorem wf_lowers (fs : List (S → Nat)) : WellFounded (Lowers fs) := by
  induction fs with
  | nil => exact ⟨fun s => ⟨s, fun t h => by cases h⟩⟩
  | cons f fs ih =>
    refine ⟨fun s => ?_⟩
    induction hn : f s using Nat.strongRecOn generalizing s with
    | _ n ihn =>
      subst hn
      induction s using ih.induction with
      | _ s ihs =>
        refine ⟨s, fun t h => ?_⟩
        cases h with
        | here hlt => exact ihn (f t) hlt t rfl
        | there hle hs =>
          rcases Nat.lt_or_eq_of_le hle with hlt | heq
          · exact ihn (f t) hlt t rfl
          · exact ihs t hs fun m hm => ihn m (heq ▸ hm)

/-- Steps that lower a rank without raising those before it come to an end. -/
theorem ends_of_ranks (fs : List (S → Nat)) {I P : S → Prop}
    (hstep : ∀ s l t, I s → ok s l → step s l = some t → I t ∧ Lowers fs t s)
    (hstop : ∀ s, I s → (∀ l, ok s l → step s l = none) → P s) (h : I s) : Ends step ok P s :=
  ends_of_measure (wf_lowers fs) id hstep hstop h

/-- There is a way to the end. -/
theorem reaches_of_ends {P : S → Prop} (h : Ends step ok P s) : ∃ t, Run step ok s t ∧ P t := by
  induction h with
  | @intro s next stop ih =>
    by_cases hs : ∀ l, ok s l → step s l = none
    · exact ⟨s, .refl, stop hs⟩
    · simp only [not_forall] at hs
      obtain ⟨l, hl, hs⟩ := hs
      obtain ⟨t, ht⟩ := Option.ne_none_iff_exists'.mp hs
      obtain ⟨u, hu, hp⟩ := ih l t hl ht
      exact ⟨u, run_trans (.tail .refl hl ht) hu, hp⟩

end Lts
