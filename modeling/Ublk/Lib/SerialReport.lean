import Ublk.Lib.SerialJobs

/-!
What a request is told of its jobs. Its error says whether one of them ended with an error; the
call that received it says whether one of those it started itself reported a failure.
-/
namespace Serial

open Shared Machine

variable {J σ R A F T : Type} {M : Machine J σ R A F} {s t u : State J σ} {l : Label R A F}
  {j w : J} {tag : J → T} {made : σ → List T} {book : σ → List J} {x : σ} {c : Nat}
  {outside : Nat → σ → Nat} {fresh parked live : J → Prop} {okA : A → J → Prop}
  {okF : F → σ → Prop}

/-- `fails` is the error a job ends with; `refuses` says that the call that made the job was
told of a failure to start it. Beside the jobs, requests are in `failed` and in `refused`. -/
structure Reporting (M : Machine J σ R A F) (outside : Nat → σ → Nat) (fresh parked : J → Prop)
    (fails : J → Int) (refuses : J → Prop) (failed refused : Nat → σ → Prop) : Prop where
  enter : ∀ j x, (M.enter j x).1 = fails j
  leave : ∀ j x, (M.leave j x).1 = 0
  launch : ∀ w x, fresh w → (refuses (M.start w x).2.1 ↔ (M.start w x).1 ≠ 0)
  restart : ∀ w x, parked w → ¬ refuses (M.start w x).2.1
  react : ∀ a j x j' x', M.react a j x = some (j', x') → (refuses j' ↔ refuses j)
  split_same : ∀ r d x c, (failed c (M.split r d x).2 ↔ failed c x) ∧
    (refused c (M.split r d x).2 ↔ refused c x)
  start_same : ∀ w x c, (failed c (M.start w x).2.2 ↔ failed c x) ∧
    (refused c (M.start w x).2.2 ↔ refused c x)
  react_same : ∀ a j x j' x' c, M.react a j x = some (j', x') →
    (failed c x' ↔ failed c x) ∧ (refused c x' ↔ refused c x)
  enter_same : ∀ j x c, (failed c (M.enter j x).2 ↔ failed c x) ∧
    (refused c (M.enter j x).2 ↔ refused c x)
  leave_same : ∀ j x c, (failed c (M.leave j x).2 ↔ failed c x) ∧
    (refused c (M.leave j x).2 ↔ refused c x)
  aside : ∀ f x q x' q' (base : Nat → Nat) (P Q : Nat → Prop), M.aside f x q = some (x', q') →
    q.Balanced (fun c => base c + outside c x) none →
    q.Tells (fun c => P c ∨ failed c x) (fun c => Q c ∨ refused c x) →
    q'.Tells (fun c => P c ∨ failed c x') (fun c => Q c ∨ refused c x')

variable {fails : J → Int} {refuses : J → Prop} {failed refused : Nat → σ → Prop}

/-- Some requests never got here; what becomes of them does not matter. -/
theorem reporting_or (h : Reporting M outside fresh parked fails refuses failed refused)
    (P : Nat → Prop) : Reporting M outside fresh parked fails refuses failed
      fun c x => refused c x ∨ P c where
  enter := h.enter
  leave := h.leave
  launch := h.launch
  restart := h.restart
  react := h.react
  split_same r d x c := ⟨(h.split_same r d x c).1, or_congr_left (h.split_same r d x c).2⟩
  start_same w x c := ⟨(h.start_same w x c).1, or_congr_left (h.start_same w x c).2⟩
  react_same a j x j' x' c hr :=
    ⟨(h.react_same a j x j' x' c hr).1, or_congr_left (h.react_same a j x j' x' c hr).2⟩
  enter_same j x c := ⟨(h.enter_same j x c).1, or_congr_left (h.enter_same j x c).2⟩
  leave_same j x c := ⟨(h.leave_same j x c).1, or_congr_left (h.leave_same j x c).2⟩
  aside f x q x' q' base A B hs hb ht := by
    have := h.aside f x q x' q' base A (fun c => B c ∨ P c) hs hb
      (Requests.tells_congr ht (fun _ => Iff.rfl) fun c _ => by rw [or_assoc, or_comm (a := P c)])
    exact Requests.tells_congr this (fun _ => Iff.rfl) fun c _ => by
      rw [or_assoc, or_comm (a := P c)]

/-- Some part of request `c` ended with an error. -/
def Failing (M : Machine J σ R A F) (book : σ → List J) (fails : J → Int)
    (failed : Nat → σ → Prop) (s : State J σ) (c : Nat) : Prop :=
  (∃ j ∈ book s.inner, M.owner j = c ∧ fails j ≠ 0) ∨ failed c s.inner

/-- Some part of request `c` could not be started for its call. -/
def Refusing (M : Machine J σ R A F) (book : σ → List J) (refuses : J → Prop)
    (refused : Nat → σ → Prop) (s : State J σ) (c : Nat) : Prop :=
  Begun book (fun j => M.owner j = c ∧ refuses j) s ∨ refused c s.inner

structure Reported (M : Machine J σ R A F) (book : σ → List J) (fails : J → Int)
    (refuses : J → Prop) (failed refused : Nat → σ → Prop) (s : State J σ) : Prop where
  tells : s.reqs.Tells (Failing M book fails failed s) (Refusing M book refuses refused s)
  issue : ∀ q, s.issue = some q →
    (q.ret ≠ 0 ↔ Refusing M book refuses refused s q.client) ∧ (q.rest ≠ [] → q.ret = 0)

section Place

variable (hP : Reporting M outside fresh parked fails refuses failed refused)
  (hT : Tracing M tag made book)

include hP hT

theorem failing_place : Failing M book fails failed (M.place j s) c ↔
    Failing M book fails failed s c ∨ c = M.owner j ∧ M.busy j = false ∧ fails j ≠ 0 := by
  unfold Failing place
  split
  · simp_all
  · simp only [(hT.enter j s.inner).2, (hP.enter_same j s.inner c).1, List.mem_append,
      List.mem_singleton, or_and_right, exists_or, exists_eq_left]
    have : M.busy j = false := by simpa using ‹¬ M.busy j = true›
    simp only [this, true_and, eq_comm (a := c)]
    exact or_right_comm

theorem refusing_place : Refusing M book refuses refused (M.place j s) c ↔
    Refusing M book refuses refused s c ∨ c = M.owner j ∧ refuses j := by
  have hr : refused c (M.place j s).inner ↔ refused c s.inner := by
    unfold place
    split
    · rfl
    · exact (hP.enter_same j s.inner c).2
  rw [Refusing, Refusing, begun_place hT, hr, eq_comm (a := c)]
  exact or_right_comm

theorem tells_place (hc : M.owner j < s.reqs.count) (hr : (s.reqs.req (M.owner j)).runs = 0)
    (h : s.reqs.Tells (Failing M book fails failed s)
      fun c => Refusing M book refuses refused s c ∨ c = M.owner j ∧ refuses j) :
    (M.place j s).reqs.Tells (Failing M book fails failed (M.place j s))
      (Refusing M book refuses refused (M.place j s)) := by
  have hf := fun c => failing_place (s := s) (j := j) (c := c) hP hT
  refine Requests.tells_congr ?_ (fun _ => Iff.rfl) fun c _ => refusing_place hP hT
  unfold place at hf ⊢
  cases hb : M.busy j with
  | true =>
    rw [hb, if_pos rfl] at hf
    simp only [if_true]
    exact Requests.tells_congr h (fun c => by simpa using hf c) fun c _ => Iff.rfl
  | false =>
    rw [hb, if_neg Bool.false_ne_true] at hf
    simp only [Bool.false_eq_true, if_false]
    refine Requests.tells_congr (Requests.tells_setErr h hc hr) (fun c => ?_) fun c _ => Iff.rfl
    rw [hf, hP.enter]
    simp

end Place

/-- A part that is left keeps its request open. -/
theorem open_of_shares (h : Counted M outside s) (hp : 0 < shares M outside s c) :
    c < s.reqs.count ∧ (s.reqs.req c).runs = 0 := by
  have hlt : c < s.reqs.count := by
    by_contra hn
    have := h.balanced.beyond c (by omega)
    omega
  refine ⟨hlt, ?_⟩
  rw [h.balanced.runs c hlt, if_neg (by omega)]

theorem failing_congr (hb : book t.inner = book s.inner)
    (hf : failed c t.inner ↔ failed c s.inner) :
    Failing M book fails failed t c ↔ Failing M book fails failed s c := by
  rw [Failing, Failing, hb, hf]

theorem refusing_congr (ha : t.active = s.active) (hb : book t.inner = book s.inner)
    (hr : refused c t.inner ↔ refused c s.inner) :
    Refusing M book refuses refused t c ↔ Refusing M book refuses refused s c := by
  rw [Refusing, Refusing, begun_congr ha hb, hr]

/-- The job acted on is still there, as it has become. -/
theorem refusing_eraseIdx {i : Nat} {j j' : J} {inner : σ} (hj : s.active[i]? = some j)
    (hown : M.owner j' = M.owner j) (hrefuse : refuses j' ↔ refuses j)
    (hb : book inner = book s.inner) (hr : refused c inner ↔ refused c s.inner) :
    Refusing M book refuses refused { s with active := s.active.eraseIdx i, inner } c ∨
      c = M.owner j' ∧ refuses j' ↔ Refusing M book refuses refused s c := by
  rw [Refusing, Refusing, begun_eraseIdx hj hb, hr, hown, hrefuse, eq_comm (a := c)]
  exact or_right_comm

section Step

variable (hP : Reporting M outside fresh parked fails refuses failed refused)
  (hT : Tracing M tag made book) (hS : Sharing M outside)

include hP hT hS

theorem reported_restart (hc : Counted M outside s) (hj : Jobs M book fresh parked live s)
    (h : Reported M book fails refuses failed refused s) {f : Frame J} {fs : List (Frame J)}
    {pending : List J}
    (hp : popFirst (fun w => M.key w == M.key f.job) s.pending = some (w, pending)) :
    Reported M book fails refuses failed refused (M.place (M.start w s.inner).2.1 { s with
      rounds := s.rounds ++ [f.acct], pending, inner := (M.start w s.inner).2.2
      frames := (if (M.start w s.inner).1 = 0 then ⟨f.job, f.acct, true⟩
        else ⟨f.job, M.ident w, false⟩) :: fs }) := by
  obtain ⟨-, hperm⟩ := popFirst_some hp
  have hw : w ∈ s.pending := hperm.mem_iff.mpr (.head _)
  obtain ⟨hlt, hruns⟩ := open_of_shares hc (c := M.owner w) (by
    have : 0 < s.pending.countP fun j => M.owner w == M.owner j :=
      List.countP_pos_iff.mpr ⟨w, hw, by simp⟩
    unfold shares
    omega)
  have hnot := hP.restart w s.inner (hj.pending w hw)
  have hrefuse : ∀ c, Refusing M book refuses refused { s with
      rounds := s.rounds ++ [f.acct], pending, inner := (M.start w s.inner).2.2
      frames := (if (M.start w s.inner).1 = 0 then ⟨f.job, f.acct, true⟩
        else ⟨f.job, M.ident w, false⟩) :: fs } c ↔ Refusing M book refuses refused s c :=
    fun c => refusing_congr rfl (hT.start w s.inner).2.2 (hP.start_same w s.inner c).2
  refine ⟨tells_place hP hT ?_ ?_ ?_, fun q hq => ?_⟩
  · rwa [hS.start]
  · rwa [hS.start]
  · refine Requests.tells_congr h.tells
      (fun c => failing_congr (hT.start w s.inner).2.2 (hP.start_same w s.inner c).1) fun c _ => ?_
    rw [hrefuse]
    simp [hnot]
  · rw [issue_place] at hq
    rw [refusing_place hP hT, hrefuse]
    simpa [hnot] using h.issue q hq

theorem reported_launch (hc : Counted M outside s) (hj : Jobs M book fresh parked live s)
    (h : Reported M book fails refuses failed refused s) {rest : List J} {ret : Int}
    {locks : LockTable} (hi : s.issue = some ⟨c, j :: rest, ret⟩) :
    Reported M book fails refuses failed refused (M.place (M.start j s.inner).2.1 { s with
      reqs := s.reqs.share c, locks, inner := (M.start j s.inner).2.2
      issue := some ⟨c, if (M.start j s.inner).1 = 0 then rest else [],
        (M.start j s.inner).1⟩ }) := by
  have hown : M.owner j = c := hc.making _ hi j (.head _)
  obtain ⟨hlt, hruns⟩ : c < s.reqs.count ∧ (s.reqs.req c).runs = 0 :=
    open_of_shares hc (shares_pos hi)
  have hret : (s.reqs.req c).ret = none := by
    rw [hc.balanced.ret c hlt, hi]
    rfl
  have hlaunch := hP.launch j s.inner (hj.making j (by rw [hi]; exact .head _))
  obtain ⟨hnot, hz⟩ := h.issue _ hi
  have hnot : ¬ Refusing M book refuses refused s c := by
    rw [← hnot]
    exact not_not.mpr (hz (by simp))
  have hrefuse : ∀ d, Refusing M book refuses refused { s with
      reqs := s.reqs.share c, locks, inner := (M.start j s.inner).2.2
      issue := some ⟨c, if (M.start j s.inner).1 = 0 then rest else [],
        (M.start j s.inner).1⟩ } d ↔ Refusing M book refuses refused s d :=
    fun d => refusing_congr rfl (hT.start j s.inner).2.2 (hP.start_same j s.inner d).2
  refine ⟨tells_place hP hT ?_ ?_ ?_, fun q hq => ?_⟩
  · rwa [hS.start, hown]
  · rw [hS.start, hown, Requests.runs_share]
    exact hruns
  · refine Requests.tells_congr (Requests.tells_share h.tells)
      (fun d => failing_congr (hT.start j s.inner).2.2 (hP.start_same j s.inner d).1) fun d hd => ?_
    have hdc : d ≠ c := by
      rintro rfl
      obtain hd | hd := hd
      · exact hd (by simpa using hret)
      · rw [Requests.count_share] at hd
        omega
    rw [hrefuse, hS.start, hown]
    simp [hdc]
  · rw [issue_place] at hq
    cases hq
    rw [refusing_place hP hT, hrefuse, hS.start, hown]
    refine ⟨by simp [hnot, hlaunch], fun hr => ?_⟩
    by_contra h₀
    exact hr (if_neg h₀)

theorem reported_act (hc : Counted M outside s)
    (h : Reported M book fails refuses failed refused s) {i : Nat} {a : A} {j' : J} {inner : σ}
    (hj : s.active[i]? = some j) (hr : M.react a j s.inner = some (j', inner)) :
    Reported M book fails refuses failed refused
      (M.place j' { s with active := s.active.eraseIdx i, inner }) := by
  have hb := (hT.react _ _ _ _ _ hr).2.2
  have hown := hS.react _ _ _ _ _ hr
  have hrefuse : ∀ c, _ ↔ Refusing M book refuses refused s c := fun c =>
    refusing_eraseIdx hj hown (hP.react _ _ _ _ _ hr) hb (hP.react_same _ _ _ _ _ c hr).2
  obtain ⟨hlt, hruns⟩ := open_of_shares hc (c := M.owner j) (by
    have : 0 < s.active.countP fun y => M.owner j == M.owner y :=
      List.countP_pos_iff.mpr ⟨j, List.mem_of_getElem? hj, by simp⟩
    unfold shares
    omega)
  refine ⟨tells_place hP hT (hown ▸ hlt) (hown ▸ hruns) ?_, fun q hq => ?_⟩
  · exact Requests.tells_congr h.tells
      (fun c => failing_congr hb (hP.react_same _ _ _ _ _ c hr).1) fun c _ => hrefuse c
  · rw [issue_place] at hq
    rw [refusing_place hP hT, hrefuse]
    exact h.issue q hq

theorem reported_step (hc : Counted M outside s) (hj : Jobs M book fresh parked live s)
    (h : Reported M book fails refuses failed refused s) (hs : M.step s l = some t) :
    Reported M book fails refuses failed refused t := by
  cases step_sound hs with
  | @arrive r hq =>
    have hf : ∀ c, Failing M book fails failed (M.arrive r s) c ↔ Failing M book fails failed s c :=
      fun c => failing_congr (hT.split _ _ _).2 (hP.split_same r s.reqs.count s.inner c).1
    have hr : ∀ c, Refusing M book refuses refused (M.arrive r s) c ↔
        Refusing M book refuses refused s c := fun c =>
      refusing_congr rfl (hT.split _ _ _).2 (hP.split_same r s.reqs.count s.inner c).2
    refine ⟨Requests.tells_congr (Requests.tells_create h.tells) hf fun c _ => hr c,
      fun q hq => ?_⟩
    cases hq
    exact ⟨by simpa [hr] using (h.tells.beyond _ le_rfl).2.2, fun _ => rfl⟩
  | unlock hd hf hl hp hu => exact ⟨h.tells, h.issue⟩
  | crash hd hf hl hp hu => exact ⟨h.tells, h.issue⟩
  | restart hd hf hl hp => exact reported_restart hP hT hS hc hj h hp
  | @back f fs hd hf hl =>
    have hfail : ∀ c, Failing M book fails failed (M.back f fs s) c ↔
        Failing M book fails failed s c := fun c =>
      failing_congr (hT.leave _ _).2 (hP.leave_same f.job s.inner c).1
    have hrefuse : ∀ c, Refusing M book refuses refused (M.back f fs s) c ↔
        Refusing M book refuses refused s c := fun c =>
      refusing_congr rfl (hT.leave _ _).2 (hP.leave_same f.job s.inner c).2
    refine ⟨Requests.tells_congr ?_ hfail fun c _ => hrefuse c, fun q hq => ?_⟩
    · simp only [Machine.back, hP.leave, Requests.setErr, if_true]
      exact Requests.tells_drop h.tells
    · rw [hrefuse]; exact h.issue q hq
  | launch hd hf hi ht => exact reported_launch hP hT hS hc hj h hi
  | @wait c j rest ret locks hd hf hi ht =>
    obtain ⟨hret, hz⟩ := h.issue _ hi
    refine ⟨Requests.tells_share h.tells, fun q hq => ?_⟩
    cases hq
    exact ⟨by rwa [hz (by simp)] at hret, fun _ => rfl⟩
  | @overrun c j rest ret hd hf hi ht =>
    obtain ⟨hret, hz⟩ := h.issue _ hi
    refine ⟨Requests.tells_share h.tells, fun q hq => ?_⟩
    cases hq
    exact ⟨by rwa [hz (by simp)] at hret, fun _ => rfl⟩
  | @conclude q hd hf hi hr =>
    obtain ⟨hlt, -⟩ := open_of_shares hc (shares_pos hi)
    exact ⟨Requests.tells_returned h.tells hlt (h.issue q hi).1, fun q hq => by cases hq⟩
  | act hq hj' hr => exact reported_act hP hT hS hc h hj' hr
  | @aside f inner reqs hq hr =>
    have hb : s.reqs.Balanced (fun c => shares M (fun _ _ => 0) s c + outside c s.inner) none := by
      have := hc.balanced
      rwa [hq.2.1] at this
    have ht := hP.aside _ _ _ _ _ _ _ _ hr hb h.tells
    refine ⟨?_, fun q hq' => by rw [hq.2.1] at hq'; cases hq'⟩
    have hb' := (hT.aside _ _ _ _ _ hr).2
    rw [← hb'] at ht
    exact Requests.tells_congr ht (fun _ => Iff.rfl) fun c _ => or_congr_left (begun_congr rfl hb')

/-- What requests are told, in every state reached. -/
theorem reported_run (hR : JobRule M fresh parked live okA) (hb : book x = [])
    (ho : ∀ c, outside c x = 0) (hx : ∀ c, ¬ failed c x ∧ ¬ refused c x)
    (h : Lts.Run M.step (Guarded okA okF) (.initial x) s) :
    Reported M book fails refuses failed refused s := by
  have hI : Reported M book fails refuses failed refused s ∧ Jobs M book fresh parked live s ∧
      (s.dead = false → Counted M outside s) := by
    refine Lts.run_invariant (I := fun s => Reported M book fails refuses failed refused s ∧
      Jobs M book fresh parked live s ∧ (s.dead = false → Counted M outside s)) h
      ⟨⟨?_, fun q hq => by cases hq⟩, ?_, fun _ => counted_initial x ho⟩ ?_
    · refine Requests.tells_congr Requests.tells_empty (fun c => ?_) fun c _ => ?_
      · simp [Failing, State.initial, hb, hx]
      · simp [Refusing, Begun, State.initial, hb, hx]
    · constructor <;> simp [State.initial, making, hb]
    · rintro a l b ⟨hr, hj, hc⟩ hok hs
      have hc := hc (dead_of_step hs)
      exact ⟨reported_step hP hT hS hc hj hr hs, jobs_step hT hR hj hok hs, counted_step hS hc hs⟩
  exact hI.1

end Step

end Serial
