import Mathlib.Logic.Function.Basic

/-!
Shared requests. A request is kept alive by its holders; when the last holder
lets it go its completer runs. Its error is the last nonzero one it was given.
-/
namespace Shared

structure Req where
  holders : Nat
  ret : Option Int
  err : Int
  runs : Nat
  deriving DecidableEq

structure Requests where
  count : Nat
  req : Nat → Req
  /-- Failures the caller has been told of, by a return value or by a completer. -/
  alarms : Nat

namespace Requests

variable (t : Requests) (c d : Nat) (e : Int)

def empty : Requests := ⟨0, fun _ => ⟨0, none, 0, 0⟩, 0⟩

/-- A new request, held by the call that received it. -/
def create : Requests :=
  { t with count := t.count + 1, req := Function.update t.req t.count ⟨1, none, 0, 0⟩ }

def share : Requests :=
  { t with req := Function.update t.req c { t.req c with holders := (t.req c).holders + 1 } }

def setErr : Requests :=
  if e = 0 then t else { t with req := Function.update t.req c { t.req c with err := e } }

def drop : Requests :=
  if (t.req c).holders = 1 then
    { t with
      req := Function.update t.req c { t.req c with holders := 0, runs := (t.req c).runs + 1 }
      alarms := if (t.req c).err = 0 then t.alarms else t.alarms + 1 }
  else
    { t with req := Function.update t.req c { t.req c with holders := (t.req c).holders - 1 } }

/-- The call returns `e` and lets its request go. -/
def returned : Requests :=
  drop { t with
    req := Function.update t.req c { t.req c with ret := some e }
    alarms := if e = 0 then t.alarms else t.alarms + 1 } c

@[simp] theorem count_create : t.create.count = t.count + 1 := rfl
@[simp] theorem count_share : (t.share c).count = t.count := rfl

@[simp] theorem count_setErr : (t.setErr c e).count = t.count := by
  unfold setErr; split <;> rfl

@[simp] theorem count_drop : (t.drop c).count = t.count := by
  unfold drop; split <;> rfl

@[simp] theorem count_returned : (t.returned c e).count = t.count := by
  simp [returned]

theorem req_create : t.create.req d = if d = t.count then ⟨1, none, 0, 0⟩ else t.req d := by
  simp [create, Function.update_apply]

@[simp] theorem holders_share :
    ((t.share c).req d).holders = (t.req d).holders + if d = c then 1 else 0 := by
  by_cases h : d = c
  · subst h; simp [share]
  · simp [share, h]

@[simp] theorem ret_share : ((t.share c).req d).ret = (t.req d).ret := by
  by_cases h : d = c
  · subst h; simp [share]
  · simp [share, h]

@[simp] theorem err_share : ((t.share c).req d).err = (t.req d).err := by
  by_cases h : d = c
  · subst h; simp [share]
  · simp [share, h]

@[simp] theorem runs_share : ((t.share c).req d).runs = (t.req d).runs := by
  by_cases h : d = c
  · subst h; simp [share]
  · simp [share, h]

@[simp] theorem holders_setErr : ((t.setErr c e).req d).holders = (t.req d).holders := by
  unfold setErr
  split
  · rfl
  · by_cases h : d = c
    · subst h; simp
    · simp [h]

@[simp] theorem ret_setErr : ((t.setErr c e).req d).ret = (t.req d).ret := by
  unfold setErr
  split
  · rfl
  · by_cases h : d = c
    · subst h; simp
    · simp [h]

@[simp] theorem runs_setErr : ((t.setErr c e).req d).runs = (t.req d).runs := by
  unfold setErr
  split
  · rfl
  · by_cases h : d = c
    · subst h; simp
    · simp [h]

theorem err_setErr :
    ((t.setErr c e).req d).err = if d = c ∧ e ≠ 0 then e else (t.req d).err := by
  unfold setErr
  by_cases he : e = 0
  · simp [he]
  · by_cases h : d = c
    · subst h; simp [he]
    · simp [h, he]

theorem req_drop_of_ne (h : d ≠ c) : (t.drop c).req d = t.req d := by
  unfold drop; split <;> simp [h]

@[simp] theorem holders_drop_self : ((t.drop c).req c).holders = (t.req c).holders - 1 := by
  unfold drop; split <;> simp_all

theorem runs_drop_self : ((t.drop c).req c).runs =
    (t.req c).runs + if (t.req c).holders = 1 then 1 else 0 := by
  unfold drop; split <;> simp_all

@[simp] theorem err_drop : ((t.drop c).req d).err = (t.req d).err := by
  by_cases h : d = c
  · subst h; unfold drop; split <;> simp
  · rw [req_drop_of_ne t c d h]

@[simp] theorem ret_drop : ((t.drop c).req d).ret = (t.req d).ret := by
  by_cases h : d = c
  · subst h; unfold drop; split <;> simp
  · rw [req_drop_of_ne t c d h]

/-- Every request has the holders `f` counts, its completer ran exactly if there is none,
and only the call of `open` has yet to return. -/
structure Balanced (t : Requests) (f : Nat → Nat) (pending : Option Nat) : Prop where
  holders : ∀ c < t.count, (t.req c).holders = f c
  runs : ∀ c < t.count, (t.req c).runs = if f c = 0 then 1 else 0
  ret : ∀ c < t.count, (t.req c).ret = none ↔ pending = some c
  beyond : ∀ c, t.count ≤ c → f c = 0

variable {t} {f g : Nat → Nat} {pending : Option Nat} {c e}

theorem balanced_empty : Balanced empty (fun _ => 0) none := by
  constructor <;> simp [empty]

theorem balanced_create (h : Balanced t f none)
    (hg : ∀ d, g d = f d + if d = t.count then 1 else 0) :
    Balanced t.create g (some t.count) := by
  have hne : ∀ d < t.count, g d = f d := fun d hd => by rw [hg, if_neg (by omega)]; rfl
  refine ⟨fun d hd => ?_, fun d hd => ?_, fun d hd => ?_, fun d hd => ?_⟩
  · rw [count_create] at hd
    rw [req_create]
    by_cases hdt : d = t.count
    · simp [hg, hdt, h.beyond]
    · rw [if_neg hdt, hne d (by omega)]; exact h.holders d (by omega)
  · rw [count_create] at hd
    rw [req_create]
    by_cases hdt : d = t.count
    · simp [hg, hdt]
    · rw [if_neg hdt, hne d (by omega)]; exact h.runs d (by omega)
  · rw [count_create] at hd
    rw [req_create]
    split
    · simp_all
    · have := h.ret d (by omega)
      simp_all
      omega
  · rw [count_create] at hd
    rw [hg, h.beyond d (by omega), if_neg (by omega)]

theorem balanced_share (h : Balanced t f pending) (hc : 0 < f c)
    (hg : ∀ d, g d = f d + if d = c then 1 else 0) : Balanced (t.share c) g pending := by
  have hlt : c < t.count := by
    by_contra hn
    rw [h.beyond c (by omega)] at hc
    omega
  refine ⟨fun d hd => ?_, fun d hd => ?_, fun d hd => ?_, fun d hd => ?_⟩
  · rw [holders_share, hg, h.holders d hd]
  · rw [runs_share, hg, h.runs d hd]
    split <;> split <;> simp_all
  · rw [ret_share]; exact h.ret d hd
  · rw [count_share] at hd
    rw [hg, h.beyond d hd, if_neg (by omega)]

theorem balanced_setErr (h : Balanced t f pending) : Balanced (t.setErr c e) f pending := by
  constructor <;> simp only [count_setErr, holders_setErr, runs_setErr, ret_setErr]
  · exact h.holders
  · exact h.runs
  · exact h.ret
  · exact h.beyond

theorem balanced_drop (h : Balanced t f pending)
    (hg : ∀ d, f d = g d + if d = c then 1 else 0) : Balanced (t.drop c) g pending := by
  have hc : f c = g c + 1 := by simp [hg]
  have hlt : c < t.count := by
    by_contra hn
    have := h.beyond c (by omega)
    omega
  refine ⟨fun d hd => ?_, fun d hd => ?_, fun d hd => ?_, fun d hd => ?_⟩
  · rw [count_drop] at hd
    by_cases hdc : d = c
    · subst hdc
      rw [holders_drop_self, h.holders d hd]
      omega
    · rw [req_drop_of_ne t c d hdc, h.holders d hd, hg, if_neg hdc]; rfl
  · rw [count_drop] at hd
    by_cases hdc : d = c
    · subst hdc
      rw [runs_drop_self, h.runs d hd, h.holders d hd, hc]
      simp
    · rw [req_drop_of_ne t c d hdc, h.runs d hd, hg, if_neg hdc]; rfl
  · rw [count_drop] at hd
    rw [ret_drop]; exact h.ret d hd
  · rw [count_drop] at hd
    have := hg d
    rw [h.beyond d hd] at this
    omega

theorem balanced_returned (h : Balanced t f (some c))
    (hg : ∀ d, f d = g d + if d = c then 1 else 0) : Balanced (t.returned c e) g none := by
  refine balanced_drop (f := f) ⟨fun d hd => ?_, fun d hd => ?_, fun d hd => ?_, h.beyond⟩ hg
  · by_cases hdc : d = c
    · subst hdc; simpa using h.holders d hd
    · simpa [hdc] using h.holders d hd
  · by_cases hdc : d = c
    · subst hdc; simpa using h.runs d hd
    · simpa [hdc] using h.runs d hd
  · by_cases hdc : d = c
    · subst hdc; simp
    · have := h.ret d hd
      simp_all [Ne.symm hdc]

/-- What callers have been told. The requests in `failed` have an error, those in `refused`
were returned one, and whoever was told of a failure raised an alarm. -/
structure Tells (t : Requests) (failed refused : Nat → Prop) : Prop where
  err : ∀ c, (t.req c).err ≠ 0 ↔ failed c
  ret : ∀ c v, (t.req c).ret = some v → (v ≠ 0 ↔ refused c)
  beyond : ∀ c, t.count ≤ c → (t.req c).ret = none ∧ ¬ failed c ∧ ¬ refused c
  returned : ∀ c v, (t.req c).ret = some v → v ≠ 0 → 0 < t.alarms
  completed : ∀ c, (t.req c).runs ≠ 0 → (t.req c).err ≠ 0 → 0 < t.alarms

variable {A A' B B' : Nat → Prop}

theorem tells_empty : Tells empty (fun _ => False) fun _ => False := by
  constructor <;> simp [empty]

/-- What is refused matters once the call has returned. -/
theorem tells_congr (h : t.Tells A B) (hA : ∀ c, A' c ↔ A c)
    (hB : ∀ c, (t.req c).ret ≠ none ∨ t.count ≤ c → (B' c ↔ B c)) : t.Tells A' B' := by
  refine ⟨fun c => (h.err c).trans (hA c).symm, fun c v hv => ?_, fun c hc => ?_, h.returned,
    h.completed⟩
  · rw [h.ret c v hv, hB c (.inl (by simp [hv]))]
  · rw [hA, hB c (.inr hc)]
    exact h.beyond c hc

theorem tells_create (h : t.Tells A B) : t.create.Tells A B := by
  obtain ⟨hret, hA, hB⟩ := h.beyond t.count (Nat.le_refl _)
  refine ⟨fun c => ?_, fun c v hv => ?_, fun c hc => ?_, fun c v hv => ?_, fun c hr => ?_⟩
  · rw [req_create]
    split
    · subst c; simpa using hA
    · exact h.err c
  · rw [req_create] at hv
    split at hv
    · cases hv
    · exact h.ret c v hv
  · rw [count_create] at hc
    rw [req_create, if_neg (by omega)]
    exact h.beyond c (by omega)
  · rw [req_create] at hv
    split at hv
    · cases hv
    · exact h.returned c v hv
  · rw [req_create] at hr ⊢
    split at hr
    · exact absurd rfl hr
    · rw [if_neg ‹_›]; exact h.completed c hr

theorem tells_share (h : t.Tells A B) : (t.share c).Tells A B := by
  constructor <;> simp only [err_share, ret_share, runs_share, count_share]
  · exact h.err
  · exact h.ret
  · exact h.beyond
  · exact h.returned
  · exact h.completed

@[simp] theorem alarms_setErr : (t.setErr c e).alarms = t.alarms := by
  unfold setErr; split <;> rfl

theorem tells_setErr (h : t.Tells A B) (hc : c < t.count) (hr : (t.req c).runs = 0) :
    (t.setErr c e).Tells (fun d => A d ∨ d = c ∧ e ≠ 0) B := by
  refine ⟨?_, by simpa using h.ret, ?_, by simpa using h.returned, ?_⟩
  · intro d
    rw [err_setErr]
    split
    · rename_i hd; simp [hd]
    · rename_i hd; simp only [hd, or_false]; exact h.err d
  · intro d hd
    rw [count_setErr] at hd
    obtain ⟨h₁, h₂, h₃⟩ := h.beyond d hd
    refine ⟨by simpa using h₁, ?_, h₃⟩
    rintro (ha | ⟨rfl, -⟩)
    · exact h₂ ha
    · omega
  · intro d hd he
    rw [runs_setErr] at hd
    rw [err_setErr, if_neg] at he
    · simpa using h.completed d hd he
    · rintro ⟨rfl, -⟩
      exact hd hr

theorem alarms_le_drop : t.alarms ≤ (t.drop c).alarms := by
  unfold drop
  split
  · dsimp only; split <;> omega
  · exact Nat.le_refl _

theorem tells_drop (h : t.Tells A B) : (t.drop c).Tells A B := by
  have hle := alarms_le_drop (t := t) (c := c)
  constructor <;> simp only [err_drop, ret_drop, count_drop]
  · exact h.err
  · exact h.ret
  · exact h.beyond
  · exact fun d v hv hne => Nat.lt_of_lt_of_le (h.returned d v hv hne) hle
  · intro d hr he
    by_cases hd : d = c
    · subst hd
      by_cases h₁ : (t.req d).holders = 1
      · unfold drop
        simp [h₁, he]
      · rw [runs_drop_self, if_neg h₁] at hr
        exact Nat.lt_of_lt_of_le (h.completed d hr he) hle
    · rw [req_drop_of_ne t c d hd] at hr
      exact Nat.lt_of_lt_of_le (h.completed d hr he) hle

theorem tells_returned (h : t.Tells A B) (hc : c < t.count) (he : e ≠ 0 ↔ B c) :
    (t.returned c e).Tells A B := by
  refine tells_drop ⟨fun d => ?_, fun d v hv => ?_, fun d hd => ?_, fun d v hv hne => ?_,
    fun d hr he' => ?_⟩
  · by_cases hd : d = c
    · subst hd; simpa using h.err d
    · simpa [hd] using h.err d
  · by_cases hd : d = c
    · subst hd
      obtain rfl : e = v := by simpa using hv
      exact he
    · exact h.ret d v (by simpa [hd] using hv)
  · dsimp only at hd
    have hne : d ≠ c := by omega
    simpa [hne] using h.beyond d hd
  · dsimp only
    split
    · by_cases hd : d = c
      · subst hd
        obtain rfl : e = v := by simpa using hv
        contradiction
      · exact h.returned d v (by simpa [hd] using hv) hne
    · omega
  · have : 0 < t.alarms := by
      by_cases hd : d = c
      · subst hd; exact h.completed d (by simpa using hr) (by simpa using he')
      · exact h.completed d (by simpa [hd] using hr) (by simpa [hd] using he')
    dsimp only
    split <;> omega

/-- Requests with no fewer of them and no error lost. -/
def Grows (t u : Requests) : Prop :=
  t.count ≤ u.count ∧ ∀ c < t.count, (t.req c).err ≠ 0 → (u.req c).err ≠ 0

theorem grows_refl : Grows t t := ⟨Nat.le_refl _, fun _ _ => id⟩

theorem grows_trans {v : Requests} (h : Grows t u) (h' : Grows u v) : Grows t v :=
  ⟨Nat.le_trans h.1 h'.1, fun c hc he => h'.2 c (Nat.lt_of_lt_of_le hc h.1) (h.2 c hc he)⟩

theorem grows_create : Grows t t.create := by
  refine ⟨by simp, fun c hc he => ?_⟩
  rw [req_create, if_neg (by omega)]
  exact he

theorem grows_share : Grows t (t.share c) := ⟨Nat.le_refl _, fun _ _ he => by simpa using he⟩

theorem grows_setErr : Grows t (t.setErr c e) := by
  refine ⟨by simp, fun d _ he => ?_⟩
  rw [err_setErr]
  split
  · rename_i h
    exact h.2
  · exact he

theorem grows_drop : Grows t (t.drop c) := ⟨by simp, fun _ _ he => by simpa using he⟩

theorem grows_returned : Grows t (t.returned c e) := by
  refine ⟨by simp, fun d _ he => ?_⟩
  rw [returned, err_drop]
  by_cases hd : d = c
  · subst hd
    simpa using he
  · simpa [hd] using he

end Requests
end Shared
