import Ublk.Lib.SerialLocks

/-!
Machines whose jobs end as soon as they are started. A request is dealt with by the steps of its
own call: three for each of its jobs.
-/
namespace Serial

open Shared Machine

variable {J σ R A F : Type} {M : Machine J σ R A F} {s t : State J σ} {j : J} {js : List J}
  {c : Nat} {x : σ} {fit : J → Prop}

/-- No start of a job as it is made fails, and no such job stays busy. -/
structure Prompt (M : Machine J σ R A F) (fit : J → Prop) : Prop where
  start : ∀ w x, fit w → (M.start w x).1 = 0 ∧ M.busy (M.start w x).2.1 = false
  split : ∀ r c x, ∀ j ∈ (M.split r c x).1, fit j

/-- What a job that ends at once does. -/
def through (M : Machine J σ R A F) (x : σ) (j : J) : σ :=
  let r := M.start j x
  (M.leave r.2.1 (M.enter r.2.1 r.2.2).2).2

/-- Nothing is locked and no job is there. -/
structure Calm (s : State J σ) : Prop where
  unlocked : ∀ k, ¬ s.locks.Locked k
  pending : s.pending = []
  active : s.active = []
  frames : s.frames = []
  alive : s.dead = false

theorem popFirst_nil {p : J → Bool} : popFirst p ([] : List J) = none := rfl

theorem locked_of_tryLock {k : Nat} (h : ¬ s.locks.Locked k) (hlt : k < s.locks.size) :
    ∃ locks, s.locks.tryLock k = some (true, locks) := by
  simp only [LockTable.tryLock, if_pos hlt, h]
  exact ⟨_, rfl⟩

/-- The steps of one job: it starts and ends, its completer unlocks the key, and returns. -/
theorem exec_job (hM : Prompt M fit) (hK : M.Keyed) (hs : Calm s)
    (hj : fit j) (hi : s.issue = some ⟨c, j :: js, 0⟩) (hlt : M.key j < s.locks.size) :
    ∃ t, Lts.exec M.step s [.tick, .tick, .tick] = some t ∧ Calm t ∧
      t.issue = some ⟨c, js, 0⟩ ∧ t.inner = through M s.inner j ∧
      t.locks.size = s.locks.size ∧ t.reqs.count = s.reqs.count := by
  obtain ⟨hul, hp, ha, hf, hd⟩ := hs
  obtain ⟨hz, hb⟩ := hM.start j s.inner hj
  obtain ⟨locks, hlock⟩ := locked_of_tryLock (hul (M.key j)) hlt
  obtain ⟨-, hlocks⟩ := LockTable.tryLock_true hlock
  have hkey := hK.start j s.inner
  have hheld : locks.Locked (M.key j) := (hlocks _).mpr (.inl rfl)
  obtain ⟨locks', hunlock⟩ : ∃ locks', locks.unlock (M.key j) = some locks' := by
    rw [LockTable.unlock, if_pos hheld]
    exact ⟨_, rfl⟩
  obtain ⟨-, hsize, hfree⟩ := LockTable.unlock_some hunlock
  obtain ⟨s₁, h₁, hs₁⟩ : ∃ t, M.step s .tick = some t ∧ t = { s with
      reqs := (s.reqs.share c).setErr (M.owner (M.start j s.inner).2.1)
        (M.enter (M.start j s.inner).2.1 (M.start j s.inner).2.2).1
      locks, inner := (M.enter (M.start j s.inner).2.1 (M.start j s.inner).2.2).2
      issue := some ⟨c, js, 0⟩
      frames := [⟨(M.start j s.inner).2.1, M.ident (M.start j s.inner).2.1, false⟩] } := by
    refine ⟨_, ?_, rfl⟩
    simp [step, tick, hd, hf, hi, dispatch, hlock, hz, place, hb]
  obtain ⟨s₂, h₂, hs₂⟩ : ∃ t, M.step s₁ .tick = some t ∧ t = { s₁ with
      locks := locks', rounds := s.rounds ++ [M.ident (M.start j s.inner).2.1]
      frames := [⟨(M.start j s.inner).2.1, M.ident (M.start j s.inner).2.1, true⟩] } := by
    refine ⟨_, ?_, rfl⟩
    simp [step, tick, hs₁, hd, Machine.round, hp, popFirst_nil, hkey, hunlock]
  obtain ⟨s₃, h₃, hs₃⟩ : ∃ t, M.step s₂ .tick = some t ∧ t = M.back
      ⟨(M.start j s.inner).2.1, M.ident (M.start j s.inner).2.1, true⟩ [] s₂ := by
    refine ⟨_, ?_, rfl⟩
    simp [step, tick, hs₂, hs₁, hd]
  refine ⟨s₃, by simp [Lts.exec, h₁, h₂, h₃], ⟨fun k => ?_, ?_, ?_, ?_, ?_⟩, ?_, ?_, ?_, ?_⟩
  · rw [hs₃, hs₂]
    change ¬ locks'.Locked k
    rw [hfree, hlocks]
    rintro ⟨hne, he | hl⟩
    · exact hne he
    · exact hul k hl
  · rw [hs₃, hs₂, hs₁]; exact hp
  · rw [hs₃, hs₂, hs₁]; exact ha
  · rw [hs₃]; rfl
  · rw [hs₃, hs₂, hs₁]; exact hd
  · rw [hs₃, hs₂, hs₁]; rfl
  · rw [hs₃, hs₂, hs₁]; rfl
  · rw [hs₃, hs₂]
    exact hsize.trans (LockTable.size_tryLock hlock)
  · rw [hs₃, hs₂, hs₁]
    simp [Machine.back]

/-- The steps of the jobs that a call still has to start. -/
theorem exec_jobs (hM : Prompt M fit) (hK : M.Keyed) (hs : Calm s) (hjs : ∀ j ∈ js, fit j)
    (hi : s.issue = some ⟨c, js, 0⟩) (hlt : ∀ j ∈ js, M.key j < s.locks.size) :
    ∃ t, Lts.exec M.step s (List.replicate (3 * js.length) .tick) = some t ∧ Calm t ∧
      t.issue = some ⟨c, [], 0⟩ ∧ t.inner = js.foldl (through M) s.inner ∧
      t.reqs.count = s.reqs.count := by
  induction js generalizing s with
  | nil => exact ⟨s, rfl, hs, hi, rfl, rfl⟩
  | cons j js ih =>
    obtain ⟨u, hu, hcalm, hissue, hinner, hsize, hcount⟩ :=
      exec_job hM hK hs (hjs j (.head _)) hi (hlt j (.head _))
    obtain ⟨t, ht, hcalm', hissue', hinner', hcount'⟩ :=
      ih hcalm (fun w hw => hjs w (.tail _ hw)) hissue fun w hw => hsize ▸ hlt w (.tail _ hw)
    refine ⟨t, ?_, hcalm', hissue', ?_, hcount'.trans hcount⟩
    · rw [List.length_cons, Nat.mul_succ, Nat.add_comm, ← List.replicate_append_replicate,
        Lts.exec_append]
      rw [show List.replicate 3 (Label.tick : Label R A F) = [.tick, .tick, .tick] from rfl, hu]
      exact ht
    · rw [hinner', hinner]
      rfl

/-- A request is received, and its call returns when all its jobs have ended. -/
theorem exec_request (hM : Prompt M fit) (hK : M.Keyed) (hs : Calm s) (hi : s.issue = none) {r : R} :
    ∃ t, Lts.exec M.step s (.arrive r ::
        List.replicate (3 * (M.split r s.reqs.count s.inner).1.length + 1) .tick) = some t ∧
      Calm t ∧ t.issue = none ∧ t.reqs.count = s.reqs.count + 1 ∧
      t.inner = (M.split r s.reqs.count s.inner).1.foldl (through M)
        (M.split r s.reqs.count s.inner).2 := by
  have hq : s.Quiet := ⟨hs.frames, hi, hs.alive⟩
  have harrive : M.step s (.arrive r) = some (M.arrive r s) := by simp [step, hq]
  have hcalm : Calm (M.arrive r s) :=
    ⟨fun k hk => hs.unlocked k (LockTable.locked_extend.mp hk), hs.pending, hs.active, hs.frames,
      hs.alive⟩
  obtain ⟨t, ht, hcalm', hissue, hinner, hcount⟩ := exec_jobs hM hK hcalm
    (hM.split _ _ _) rfl fun j hj => by
    have := hK.split _ _ _ j hj
    change _ < (s.locks.extend (M.extent r)).size
    rw [LockTable.size_extend]
    omega
  have hend : M.step t .tick = some (t.conclude ⟨s.reqs.count, [], 0⟩) := by
    simp [step, tick, hcalm'.alive, hcalm'.frames, hissue]
  refine ⟨t.conclude ⟨s.reqs.count, [], 0⟩, ?_, ?_, rfl, ?_, hinner⟩
  · rw [Lts.exec, harrive, Option.bind_some, ← List.replicate_append_replicate, Lts.exec_append, ht]
    simp [Lts.exec, hend]
  · exact ⟨hcalm'.unlocked, hcalm'.pending, hcalm'.active, hcalm'.frames, hcalm'.alive⟩
  · simpa [State.conclude, Machine.arrive] using hcount

end Serial
