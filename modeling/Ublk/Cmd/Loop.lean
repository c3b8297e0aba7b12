import Ublk.Cmd.Handler
import Ublk.Lib.Runs

/-!
The loop between the driver and the handler of its commands. The driver counts commands modulo
`2 ^ 32`; a batch pops those the count grew by and initiates a write of how many it popped. The
write reads its buffer, a field of the context, when it is executed.
-/
namespace Ublk.EventLoop

open CmdHandler

inductive Phase
  | reading | popping | stopped
  deriving DecidableEq

structure Batch where
  /-- By how much the driver's count grew. -/
  grown : Nat
  popped : List Cmd

/-- `handler_ctx`, the writes that are initiated and not executed, by their batches, and history:
the driver's count when it was read last, the batch that is popped, those before, and what each
executed write delivered. -/
structure State where
  phase : Phase
  cmds : Nat
  processedCmds : Nat
  lastCmds : Nat
  writes : List Nat
  total : Nat
  batch : Batch
  batches : List Batch
  delivered : List (Nat × Nat)

inductive Action
  /-- The read completes, and the driver has counted so many commands. -/
  | read (total : Nat)
  | readFails
  /-- One look at the queue. -/
  | pop (cmd : Option Cmd)
  /-- The loop over the batch is over. -/
  | finish
  /-- The oldest write is executed. -/
  | write
  | writeFails

/-- Arithmetic of 32 bits. -/
def word (x : Nat) : Nat := x % 2 ^ 32

def minus (x y : Nat) : Nat := (x + 2 ^ 32 - y) % 2 ^ 32

def initial : State := ⟨.reading, 0, 0, 0, [], 0, ⟨0, []⟩, [], []⟩

/-- The first lines of the read's completion: `cmds -= exchange(last_cmds, cmds)`. -/
def State.begin (s : State) (total : Nat) : State :=
  { s with
    cmds := minus (word total) s.lastCmds
    lastCmds := word total
    processedCmds := 0
    phase := .popping
    total := total
    batch := ⟨total - s.total, []⟩ }

/-- The body of the loop once the queue has a command. -/
def State.take (s : State) (cmd : Cmd) : State :=
  { s with
    cmds := s.cmds - 1
    processedCmds := word (s.processedCmds + 1)
    batch := ⟨s.batch.grown, s.batch.popped ++ [cmd]⟩ }

/-- The write and the next read are initiated. -/
def State.finish (s : State) : State :=
  { s with
    phase := .reading
    writes := s.writes ++ [s.batches.length]
    batches := s.batches ++ [s.batch] }

def State.deliver (s : State) (b : Nat) (rest : List Nat) : State :=
  { s with writes := rest, delivered := s.delivered ++ [(b, s.processedCmds)] }

def step (s : State) : Action → Option State
  | .read total => if s.phase = .reading then some (s.begin total) else none
  | .readFails => if s.phase = .reading then some { s with phase := .stopped } else none
  | .pop cmd =>
    if s.phase = .popping ∧ s.cmds ≠ 0 then some (cmd.elim s s.take) else none
  | .finish => if s.phase = .popping ∧ s.cmds = 0 then some s.finish else none
  | .write =>
    match s.writes with
    | [] => none
    | b :: rest => some (s.deliver b rest)
  | .writeFails =>
    match s.writes with
    | [] => none
    | _ :: rest => some { s with writes := rest }

variable {s : State}

/-- The driver's count grows by less than `2 ^ 32` from one read to the next. -/
def Allowed (s : State) : Action → Prop
  | .read total => s.total ≤ total ∧ total < s.total + 2 ^ 32
  | _ => True

/-- The batch popped `n` commands. -/
def State.Popped (s : State) (b n : Nat) : Prop :=
  ∃ x, s.batches[b]? = some x ∧ x.popped.length = n

/-- Each batch popped what the count grew by. -/
def Counted (s : State) : Prop := ∀ x ∈ s.batches, x.popped.length = x.grown

/-- The executed writes delivered, batch by batch, the numbers of commands popped. -/
def Told (s : State) : Prop :=
  (∀ x ∈ s.delivered, s.Popped x.1 x.2) ∧ (s.delivered.map Prod.fst).Pairwise (· < ·)

/-- No read completes while a write waits, unless nothing was popped and nothing is to be. -/
def Prompt (s : State) : Action → Prop
  | .read total => s.writes = [] ∨ (total = s.total ∧ ∀ b ∈ s.writes, s.Popped b 0)
  | _ => True

instance : (a : Action) → Decidable (Allowed s a)
  | .read total => inferInstanceAs (Decidable (s.total ≤ total ∧ total < s.total + 2 ^ 32))
  | .readFails | .pop _ | .finish | .write | .writeFails => isTrue trivial

def Meets (s : State) (a : Action) : Prop := Allowed s a ∧ Prompt s a

variable {t u : State} {a : Action} {total b n : Nat} {cmd : Cmd} {rest pre post : List Nat}

inductive Step : State → Action → State → Prop
  | read {s : State} {total : Nat} (hp : s.phase = .reading) : Step s (.read total) (s.begin total)
  | readFails {s : State} (hp : s.phase = .reading) :
      Step s .readFails { s with phase := .stopped }
  | take {s : State} {cmd : Cmd} (hp : s.phase = .popping) (hc : s.cmds ≠ 0) :
      Step s (.pop (some cmd)) (s.take cmd)
  | spin {s : State} (hp : s.phase = .popping) (hc : s.cmds ≠ 0) : Step s (.pop none) s
  | finish {s : State} (hp : s.phase = .popping) (hc : s.cmds = 0) : Step s .finish s.finish
  | write {s : State} {b : Nat} {rest : List Nat} (hw : s.writes = b :: rest) :
      Step s .write (s.deliver b rest)
  | writeFails {s : State} {b : Nat} {rest : List Nat} (hw : s.writes = b :: rest) :
      Step s .writeFails { s with writes := rest }

/-- What a step does. -/
theorem step_sound (h : step s a = some t) : Step s a t := by
  cases a with
  | read total =>
    obtain ⟨hp, he⟩ := Option.ite_none_right_eq_some.mp h
    cases he
    exact .read hp
  | readFails =>
    obtain ⟨hp, he⟩ := Option.ite_none_right_eq_some.mp h
    cases he
    exact .readFails hp
  | pop cmd =>
    obtain ⟨⟨hp, hc⟩, he⟩ := Option.ite_none_right_eq_some.mp h
    cases cmd with
    | some cmd =>
      cases he
      exact .take hp hc
    | none =>
      cases he
      exact .spin hp hc
  | finish =>
    obtain ⟨⟨hp, hc⟩, he⟩ := Option.ite_none_right_eq_some.mp h
    cases he
    exact .finish hp hc
  | write =>
    cases hw : s.writes with
    | nil => simp [step, hw] at h
    | cons b rest =>
      simp only [step, hw] at h
      cases h
      exact .write hw
  | writeFails =>
    cases hw : s.writes with
    | nil => simp [step, hw] at h
    | cons b rest =>
      simp only [step, hw] at h
      cases h
      exact .writeFails hw

/-- The difference of two counts modulo `2 ^ 32` is how much the count grew, also past a wrap. -/
theorem minus_word {x : Nat} (hle : x ≤ total) (hlt : total < x + 2 ^ 32) :
    minus (word total) (word x) = total - x := by
  unfold minus word
  omega

theorem word_of_lt (h : n < 2 ^ 32) : word n = n := by
  unfold word
  exact Nat.mod_eq_of_lt h

theorem cmds_begin (hlast : s.lastCmds = word s.total)
    (h : s.total ≤ total ∧ total < s.total + 2 ^ 32) : (s.begin total).cmds = total - s.total := by
  dsimp only [State.begin]
  rw [hlast]
  exact minus_word h.1 h.2

theorem popped_finish (h : s.Popped b n) : s.finish.Popped b n := by
  obtain ⟨x, hx, hn⟩ := h
  refine ⟨x, ?_, hn⟩
  obtain ⟨hlt, -⟩ := List.getElem?_eq_some_iff.mp hx
  exact (List.getElem?_append_left hlt).trans hx

theorem popped_inj {k : Nat} (hn : s.Popped b n) (hk : s.Popped b k) : n = k := by
  obtain ⟨x, hx, rfl⟩ := hn
  obtain ⟨y, hy, rfl⟩ := hk
  rw [Option.some.inj (hx.symm.trans hy)]

/-- What holds whatever the order of the steps. -/
structure Inv (s : State) : Prop where
  last : s.lastCmds = word s.total
  batch : s.phase = .popping → s.batch.popped.length = s.processedCmds ∧
    s.processedCmds + s.cmds = s.batch.grown ∧ s.batch.grown < 2 ^ 32
  counted : Counted s
  known : ∀ b ∈ s.delivered.map Prod.fst ++ s.writes, b < s.batches.length
  ordered : (s.delivered.map Prod.fst ++ s.writes).Pairwise (· < ·)

theorem inv_initial : Inv initial := by
  constructor <;> simp [initial, Counted, word]

theorem inv_step (hi : Inv s) (ha : Allowed s a) (h : step s a = some t) : Inv t := by
  obtain ⟨hlast, hbatch, hcounted, hknown, hordered⟩ := hi
  cases step_sound h with
  | @read total hp =>
    have hcmds := cmds_begin hlast ha
    refine ⟨rfl, fun _ => ⟨rfl, ?_, ?_⟩, hcounted, hknown, hordered⟩
    · rw [hcmds]
      exact Nat.zero_add _
    · have := ha.2
      change total - s.total < 2 ^ 32
      omega
  | readFails hp => exact ⟨hlast, nofun, hcounted, hknown, hordered⟩
  | take hp hc =>
    obtain ⟨hlen, hsum, hlt⟩ := hbatch hp
    refine ⟨hlast, fun _ => ?_, hcounted, hknown, hordered⟩
    simp only [State.take, List.length_append, List.length_singleton]
    rw [word_of_lt (by omega)]
    omega
  | spin hp hc => exact ⟨hlast, hbatch, hcounted, hknown, hordered⟩
  | finish hp hc =>
    obtain ⟨hlen, hsum, hlt⟩ := hbatch hp
    refine ⟨hlast, nofun, ?_, ?_, ?_⟩
    · intro x hx
      rcases List.mem_append.mp hx with hx | hx
      · exact hcounted x hx
      · obtain rfl := List.mem_singleton.mp hx
        omega
    · intro b hb
      simp only [State.finish, ← List.append_assoc, List.length_append,
        List.length_singleton] at hb ⊢
      rcases List.mem_append.mp hb with hb | hb
      · have := hknown b hb
        omega
      · obtain rfl := List.mem_singleton.mp hb
        omega
    · simp only [State.finish, ← List.append_assoc]
      refine List.pairwise_append.mpr ⟨hordered, List.pairwise_singleton _ _, ?_⟩
      intro b hb c hc
      obtain rfl := List.mem_singleton.mp hc
      exact hknown b hb
  | @write b rest hw =>
    have heq : (s.deliver b rest).delivered.map Prod.fst ++ rest =
        s.delivered.map Prod.fst ++ s.writes := by
      simp [State.deliver, hw]
    exact ⟨hlast, hbatch, hcounted, by rwa [← heq] at hknown, by rwa [← heq] at hordered⟩
  | @writeFails b rest hw =>
    rw [hw] at hknown hordered
    have hsub : (s.delivered.map Prod.fst ++ rest).Sublist
        (s.delivered.map Prod.fst ++ b :: rest) := by simp
    exact ⟨hlast, hbatch, hcounted, fun b hb => hknown b (hsub.subset hb), hordered.sublist hsub⟩

theorem inv_of_run (h : Lts.Run step Allowed initial s) : Inv s :=
  Lts.run_invariant h inv_initial fun _ _ _ hi ha hs => inv_step hi ha hs

/-- What the writes that wait would deliver is right, and stays so. -/
structure Ready (s : State) : Prop where
  delivered : ∀ x ∈ s.delivered, s.Popped x.1 x.2
  writes : ∀ b ∈ s.writes, s.Popped b s.processedCmds
  popping : s.phase = .popping → s.writes = [] ∨ s.cmds = 0

theorem ready_initial : Ready initial := by
  constructor <;> simp [initial]

theorem ready_step (hi : Inv s) (hr : Ready s) (ha : Meets s a) (h : step s a = some t) :
    Ready t := by
  obtain ⟨hdel, hwr, hpop⟩ := hr
  cases step_sound h with
  | @read total hp =>
    have hcmds := cmds_begin hi.last ha.1
    rcases ha.2 with hnone | ⟨rfl, hzero⟩
    · refine ⟨hdel, fun b hb => ?_, fun _ => .inl hnone⟩
      rw [show (s.begin total).writes = [] from hnone] at hb
      cases hb
    · exact ⟨hdel, hzero, fun _ => .inr (by omega)⟩
  | readFails hp => exact ⟨hdel, hwr, nofun⟩
  | @take cmd hp hc =>
    -- a batch that pops finds no write
    have hnone := (hpop hp).resolve_right hc
    refine ⟨hdel, fun b hb => ?_, fun _ => .inl hnone⟩
    rw [show (s.take cmd).writes = [] from hnone] at hb
    cases hb
  | spin hp hc => exact ⟨hdel, hwr, hpop⟩
  | finish hp hc =>
    refine ⟨fun x hx => popped_finish (hdel x hx), ?_, nofun⟩
    intro b hb
    rcases List.mem_append.mp hb with hb | hb
    · exact popped_finish (hwr b hb)
    · obtain rfl := List.mem_singleton.mp hb
      exact ⟨s.batch, List.getElem?_concat_length, (hi.batch hp).1⟩
  | write hw =>
    rw [hw] at hwr
    refine ⟨?_, fun b hb => hwr b (.tail _ hb), fun hp => ?_⟩
    · intro x hx
      rcases List.mem_append.mp hx with hx | hx
      · exact hdel x hx
      · obtain rfl := List.mem_singleton.mp hx
        exact hwr _ (.head _)
    · exact (hpop hp).imp_left fun hnone => by simp [hw] at hnone
  | writeFails hw =>
    rw [hw] at hwr
    refine ⟨hdel, fun b hb => hwr b (.tail _ hb), fun hp => ?_⟩
    exact (hpop hp).imp_left fun hnone => by simp [hw] at hnone

theorem ready_of_run (h₀ : Inv s ∧ Ready s) (h : Lts.Run step Meets s t) : Inv t ∧ Ready t :=
  Lts.run_invariant (I := fun s => Inv s ∧ Ready s) h h₀ fun _ _ _ hi ha hs =>
    ⟨inv_step hi.1 ha.1 hs, ready_step hi.1 hi.2 ha hs⟩

theorem told_of_ready (h : Inv s ∧ Ready s) : Told s :=
  ⟨h.2.delivered, (List.pairwise_append.mp h.1.ordered).1⟩

/-- The writes that wait are executed one after the other. -/
theorem run_writes (hw : s.writes = pre ++ post) :
    ∃ t, Lts.Run step Meets s t ∧ t.batches = s.batches ∧ (∀ x ∈ s.delivered, x ∈ t.delivered) ∧
      ∀ b ∈ pre, (b, s.processedCmds) ∈ t.delivered := by
  induction pre generalizing s with
  | nil => exact ⟨s, .refl, rfl, fun _ hx => hx, nofun⟩
  | cons b pre ih =>
    have hstep : step s .write = some (s.deliver b (pre ++ post)) := by simp [step, hw]
    obtain ⟨t, hrun, hbatches, hkeep, hall⟩ := @ih (s.deliver b (pre ++ post)) rfl
    refine ⟨t, Lts.run_trans (.tail (l := .write) .refl ⟨trivial, trivial⟩ hstep) hrun, hbatches, ?_, ?_⟩
    · exact fun x hx => hkeep x (List.mem_append_left _ hx)
    · intro c hc
      rcases List.mem_cons.mp hc with rfl | hc
      · exact hkeep _ (List.mem_append_right _ (.head _))
      · exact hall c hc

/-- A write that waits and would deliver a wrong number can be executed. -/
theorem not_told_of_write (hb : b ∈ s.writes) (hn : ¬ s.Popped b s.processedCmds) :
    ∃ t, Lts.Run step Meets s t ∧ ¬ Told t := by
  obtain ⟨t, hrun, hbatches, -, hall⟩ := @run_writes s s.writes [] (by simp)
  refine ⟨t, hrun, fun ht => hn ?_⟩
  obtain ⟨x, hx, hlen⟩ := ht.1 _ (hall b hb)
  exact ⟨x, hbatches ▸ hx, hlen⟩

/-- A read that completes too early spoils a write. -/
theorem not_told_of_early (hi : Inv s) (ha : Allowed s a) (hp : ¬ Prompt s a)
    (h : step s a = some t) : ∃ u, Lts.Run step Meets t u ∧ ¬ Told u := by
  cases step_sound h with
  | @read total hr =>
    have hcmds := cmds_begin hi.last ha
    obtain ⟨hsome, hearly⟩ := not_or.mp hp
    by_cases hzero : ∀ b ∈ s.writes, s.Popped b 0
    · -- the count grew: the first command popped makes the number wrong
      have hgrew : total ≠ s.total := fun he => hearly ⟨he, hzero⟩
      have hle := ha.1
      have hne : (s.begin total).cmds ≠ 0 := by omega
      obtain ⟨b, hb⟩ := List.exists_mem_of_ne_nil _ hsome
      let cmd : Cmd := ⟨0, .flush, 0, 0, 0, 0⟩
      have hstep : step (s.begin total) (.pop (some cmd)) = some ((s.begin total).take cmd) :=
        if_pos ⟨rfl, hne⟩
      obtain ⟨u, hrun, hu⟩ := @not_told_of_write ((s.begin total).take cmd) b hb fun hone => by
        have := popped_inj (hzero b hb) hone
        rw [show ((s.begin total).take cmd).processedCmds = word 1 from rfl,
          word_of_lt (by omega)] at this
        omega
      exact ⟨u, Lts.run_trans (.tail (l := .pop _) .refl ⟨trivial, trivial⟩ hstep) hrun, hu⟩
    · obtain ⟨b, hb, hn⟩ := by simpa only [not_forall, exists_prop] using hzero
      exact not_told_of_write (s := s.begin total) hb hn
  | _ => exact absurd trivial hp

/-- Each batch pops what the driver's count grew by, whatever the order of the steps. The driver is
told these numbers as long as no read completes while a write waits, and may be told a wrong one as
soon as one does. -/
theorem told_iff {s : State} (h : Lts.Run step Allowed initial s) :
    Counted s ∧ (Lts.Run step Meets initial s → Told s ∧ ∀ a t, Allowed s a → step s a = some t →
      ((∀ u, Lts.Run step Meets t u → Told u) ↔ Prompt s a)) := by
  have hready {s} (h : Lts.Run step Meets initial s) : Inv s ∧ Ready s :=
    ready_of_run ⟨inv_initial, ready_initial⟩ h
  refine ⟨(inv_of_run h).counted, fun hs => ⟨told_of_ready (hready hs), fun a t ha hstep => ?_⟩⟩
  constructor
  · intro htold
    by_contra hp
    obtain ⟨u, hu, hn⟩ := not_told_of_early (hready hs).1 ha hp hstep
    exact hn (htold u hu)
  · intro hp u hu
    exact told_of_ready (hready (Lts.run_trans (.tail hs ⟨ha, hp⟩ hstep) hu))

theorem told_iff_two :
    Counted initial ∧ ∀ u, Lts.Run step Meets (initial.begin 2) u → Told u := by
  obtain ⟨hcounted, htold⟩ := told_iff (Lts.Run.refl (s := initial))
  exact ⟨hcounted, ((htold .refl).2 (.read 2) _ (by decide) rfl).mpr (.inl rfl)⟩

/-- Two commands, a write, and three more commands before the write is executed. -/
def early : List Action :=
  [.read 2, .pop (some ⟨0, .flush, 0, 0, 0, 0⟩), .pop none, .pop (some ⟨1, .flush, 0, 0, 0, 0⟩),
    .finish, .read 5, .write]

/-- The driver is told 0 of a batch of two commands. -/
theorem not_told : ∃ s, Lts.Run step Allowed initial s ∧ s.delivered = [(0, 0)] ∧ s.Popped 0 2 ∧
    ¬ Told s := by
  have hexec : (Lts.exec step initial early).map (fun s =>
      (s.delivered, s.batches.map fun x => x.popped.length)) = some ([(0, 0)], [2]) := by
    decide
  obtain ⟨s, hs, he⟩ := Option.map_eq_some_iff.mp hexec
  obtain ⟨hdel, hlen⟩ := Prod.mk.inj he
  have htwo : s.Popped 0 2 := by
    obtain ⟨x, hx, hlen⟩ := List.map_eq_singleton_iff.mp hlen
    exact ⟨x, by rw [hx]; rfl, hlen⟩
  refine ⟨s, Lts.run_of_along (by decide) hs, hdel, htwo, fun h => ?_⟩
  have hzero := h.1 (0, 0) (by rw [hdel]; exact .head _)
  exact absurd (popped_inj htwo hzero) (by decide)

end Ublk.EventLoop
