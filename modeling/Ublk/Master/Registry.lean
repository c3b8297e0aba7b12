import Mathlib.Data.List.Forall2
import Mathlib.Data.List.Nodup
import Ublk.Lib.Runs

/-!
The master's tables of targets and children. A child that serves a target keeps it alive through the
thread that waits for the child; a target with such references is not destroyed.
-/
namespace Ublk.Master

/-- A call's outcome: `invalid` and `failed` are exceptions, and so is `busy`, with its count. -/
inductive Ret
  | done
  | invalid
  | busy (references : Nat)
  | failed
  deriving DecidableEq

/-- The calls, and what happens by itself: a child exits, and its thread has waited for it. -/
inductive Label (Name : Type)
  /-- `built`: the handlers of the target could be made. -/
  | create (name : Name) (capacitySectors : Nat) (built : Bool)
  /-- `sent`: the driver has made the device. `child`: what `fork` returned. -/
  | map (name : Name) (sent : Bool) (child : Option Nat)
  | destroy (name : Name)
  | exit (pid : Nat)
  | reap (pid : Nat)

/-- An entry of `targets_`; `id` tells objects apart. -/
structure Entry (Name : Type) where
  name : Name
  id : Nat
  capacitySectors : Nat

structure State (Name : Type) where
  targets : List (Entry Name)
  /-- The keys of `children_`. -/
  children : List Nat
  /-- The threads that wait for a child, each with the target it holds. -/
  waiters : List (Nat × Nat)
  /-- Children that have exited and were not waited for. -/
  exited : List Nat
  nextId : Nat
  /-- A call of `map` destroys the future of this child, and waits for its thread. -/
  stuck : Option Nat
  /-- What the last call came to. -/
  ret : Ret

section Concrete

variable {Name : Type} [DecidableEq Name]

namespace State

def initial : State Name := ⟨[], [], [], [], 0, none, .done⟩

def find (s : State Name) (name : Name) : Option (Entry Name) :=
  s.targets.find? fun e => e.name = name

/-- `use_count`: the table's reference, and those of the threads. -/
def useCount (s : State Name) (id : Nat) : Nat :=
  s.targets.countP (·.id = id) + s.waiters.countP (·.2 = id)

def create (s : State Name) (name : Name) (capacitySectors : Nat) (built : Bool) : State Name :=
  match s.find name with
  | some _ => { s with ret := .invalid }
  | none =>
    if built then
      { s with
        targets := ⟨name, s.nextId, capacitySectors⟩ :: s.targets
        nextId := s.nextId + 1, ret := .done }
    else { s with ret := .failed }

/-- No process that exists has the pid of a new child. If an earlier child had it, `emplace` puts
nothing in and destroys the new future, which waits for its thread. -/
def map (s : State Name) (name : Name) (sent : Bool) (child : Option Nat) : Option (State Name) :=
  match s.find name with
  | none => some { s with ret := .invalid }
  | some e =>
    match sent, child with
    | false, _ => some { s with ret := .failed }
    | true, none => some { s with ret := .failed }
    | true, some pid =>
      if pid ∈ s.waiters.map Prod.fst then none
      else if pid ∈ s.children then
        some { s with waiters := (pid, e.id) :: s.waiters, stuck := some pid, ret := .done }
      else
        some { s with
          waiters := (pid, e.id) :: s.waiters, children := pid :: s.children, ret := .done }

def destroy (s : State Name) (name : Name) : State Name :=
  match s.find name with
  | none => { s with ret := .done }
  | some e =>
    if 1 < s.useCount e.id then { s with ret := .busy (s.useCount e.id - 1) }
    else { s with targets := s.targets.filter fun e => e.name ≠ name, ret := .done }

def exit (s : State Name) (pid : Nat) : Option (State Name) :=
  if pid ∈ s.waiters.map Prod.fst ∧ pid ∉ s.exited then some { s with exited := pid :: s.exited }
  else none

/-- The thread lets its target go. -/
def reap (s : State Name) (pid : Nat) : Option (State Name) :=
  if pid ∈ s.exited then
    some { s with
      exited := s.exited.filter (· ≠ pid)
      waiters := s.waiters.filter (·.1 ≠ pid)
      stuck := if s.stuck = some pid then none else s.stuck }
  else none

/-- Calls are made one at a time. -/
def step (s : State Name) : Label Name → Option (State Name)
  | .create name capacitySectors built =>
    if s.stuck = none then some (s.create name capacitySectors built) else none
  | .map name sent child => if s.stuck = none then s.map name sent child else none
  | .destroy name => if s.stuck = none then some (s.destroy name) else none
  | .exit pid => s.exit pid
  | .reap pid => s.reap pid

end State

/-- What the tables are for: targets by name, and for each child that was not waited for the target
it serves, as it was when the child was made. -/
structure Registry (Name : Type) where
  targets : List (Name × Nat)
  devices : List (Nat × Name × Nat)
  /-- The pids that children have had. -/
  past : List Nat
  exited : List Nat
  stuck : Option Nat
  ret : Ret

namespace Registry

def initial : Registry Name := ⟨[], [], [], [], none, .done⟩

def create (a : Registry Name) (name : Name) (capacitySectors : Nat) (built : Bool) :
    Registry Name :=
  if a.targets.lookup name ≠ none then { a with ret := .invalid }
  else if built then { a with targets := (name, capacitySectors) :: a.targets, ret := .done }
  else { a with ret := .failed }

def map (a : Registry Name) (name : Name) (sent : Bool) (child : Option Nat) :
    Option (Registry Name) :=
  match a.targets.lookup name, sent, child with
  | none, _, _ => some { a with ret := .invalid }
  | some _, false, _ => some { a with ret := .failed }
  | some _, true, none => some { a with ret := .failed }
  | some capacitySectors, true, some pid =>
    if pid ∈ a.devices.map Prod.fst then none
    else if pid ∈ a.past then
      some { a with
        devices := (pid, name, capacitySectors) :: a.devices, stuck := some pid, ret := .done }
    else
      some { a with
        devices := (pid, name, capacitySectors) :: a.devices, past := pid :: a.past, ret := .done }

/-- A target that children serve stays; one that is not there is as good as destroyed. -/
def destroy (a : Registry Name) (name : Name) : Registry Name :=
  let n := a.devices.countP (·.2.1 = name)
  if n = 0 then { a with targets := a.targets.filter fun e => e.1 ≠ name, ret := .done }
  else { a with ret := .busy n }

def exit (a : Registry Name) (pid : Nat) : Option (Registry Name) :=
  if pid ∈ a.devices.map Prod.fst ∧ pid ∉ a.exited then some { a with exited := pid :: a.exited }
  else none

def reap (a : Registry Name) (pid : Nat) : Option (Registry Name) :=
  if pid ∈ a.exited then
    some { a with
      exited := a.exited.filter (· ≠ pid)
      devices := a.devices.filter (·.1 ≠ pid)
      stuck := if a.stuck = some pid then none else a.stuck }
  else none

def step (a : Registry Name) : Label Name → Option (Registry Name)
  | .create name capacitySectors built =>
    if a.stuck = none then some (a.create name capacitySectors built) else none
  | .map name sent child => if a.stuck = none then a.map name sent child else none
  | .destroy name => if a.stuck = none then some (a.destroy name) else none
  | .exit pid => a.exit pid
  | .reap pid => a.reap pid

end Registry

end Concrete

section Relation

variable {Name : Type} {s t : State Name} {a : Registry Name} {e e' : Entry Name} {pid : Nat}

/-- `Master::list` -/
def State.list (s : State Name) : List (Name × Nat) := s.targets.map fun e => (e.name, e.capacitySectors)

/-- A thread's target is in the table, under the name and with the capacity its child was made for. -/
def Serves (targets : List (Entry Name)) (w : Nat × Nat) (d : Nat × Name × Nat) : Prop :=
  w.1 = d.1 ∧ ∃ e ∈ targets, e.id = w.2 ∧ (e.name, e.capacitySectors) = d.2

structure Refines (s : State Name) (a : Registry Name) : Prop where
  list : s.list = a.targets
  devices : List.Forall₂ (Serves s.targets) s.waiters a.devices
  children : s.children = a.past
  exited : s.exited = a.exited
  stuck : s.stuck = a.stuck
  ret : s.ret = a.ret
  names : (s.targets.map (·.name)).Nodup
  ids : (s.targets.map (·.id)).Nodup
  fresh : ∀ e ∈ s.targets, e.id < s.nextId

theorem refines_initial : Refines (State.initial : State Name) .initial :=
  ⟨rfl, .nil, rfl, rfl, rfl, rfl, .nil, .nil, by simp [State.initial]⟩

theorem pids_eq {ts : List (Entry Name)} {ws : List (Nat × Nat)} {ds : List (Nat × Name × Nat)}
    (h : List.Forall₂ (Serves ts) ws ds) : ws.map Prod.fst = ds.map Prod.fst := by
  induction h with
  | nil => rfl
  | cons h _ ih => rw [List.map_cons, List.map_cons, h.1, ih]

theorem entry_eq_of_id {ts : List (Entry Name)} (hids : (ts.map (·.id)).Nodup) (he : e ∈ ts)
    (he' : e' ∈ ts) (h : e.id = e'.id) : e = e' :=
  List.inj_on_of_nodup_map hids he he' h

theorem entry_eq_of_name {ts : List (Entry Name)} (hnames : (ts.map (·.name)).Nodup) (he : e ∈ ts)
    (he' : e' ∈ ts) (h : e.name = e'.name) : e = e' :=
  List.inj_on_of_nodup_map hnames he he' h

/-- More entries in the table are no harm to threads. -/
theorem serves_cons {ts : List (Entry Name)} {w : Nat × Nat} {d : Nat × Name × Nat}
    (h : Serves ts w d) : Serves (e :: ts) w d := by
  obtain ⟨hpid, e', he', h⟩ := h
  exact ⟨hpid, e', .tail _ he', h⟩

theorem served_of_mem {ts : List (Entry Name)} {ws : List (Nat × Nat)}
    {ds : List (Nat × Name × Nat)} {d : Nat × Name × Nat} (h : List.Forall₂ (Serves ts) ws ds)
    (hd : d ∈ ds) : ∃ e ∈ ts, (e.name, e.capacitySectors) = d.2 := by
  induction h with
  | nil => cases hd
  | cons h _ ih =>
    rcases List.mem_cons.mp hd with rfl | hd
    · obtain ⟨-, e, he, -, hpair⟩ := h
      exact ⟨e, he, hpair⟩
    · exact ih hd

/-- The thread and the child go together. -/
theorem serves_reap {ts : List (Entry Name)} {ws : List (Nat × Nat)} {ds : List (Nat × Name × Nat)}
    (pid : Nat) (h : List.Forall₂ (Serves ts) ws ds) :
    List.Forall₂ (Serves ts) (ws.filter (·.1 ≠ pid)) (ds.filter (·.1 ≠ pid)) := by
  induction h with
  | nil => exact .nil
  | @cons w d ws ds h _ ih =>
    have hpid := h.1
    by_cases hw : w.1 = pid
    · rw [List.filter_cons_of_neg (by simpa using hw),
        List.filter_cons_of_neg (by simpa using hpid ▸ hw)]
      exact ih
    · rw [List.filter_cons_of_pos (by simpa using hw),
        List.filter_cons_of_pos (by simpa using hpid ▸ hw)]
      exact .cons h ih

theorem refines_exit (h : Refines s a) (hs : s.exit pid = some t) :
    ∃ b, a.exit pid = some b ∧ Refines t b := by
  unfold State.exit at hs
  unfold Registry.exit
  rw [← pids_eq h.devices, ← h.exited]
  split at hs
  · rename_i hp
    cases hs
    exact ⟨_, if_pos hp, h.list, h.devices, h.children, rfl, h.stuck, h.ret, h.names, h.ids, h.fresh⟩
  · cases hs

theorem refines_reap (h : Refines s a) (hs : s.reap pid = some t) :
    ∃ b, a.reap pid = some b ∧ Refines t b := by
  unfold State.reap at hs
  unfold Registry.reap
  rw [← h.exited, ← h.stuck]
  split at hs
  · rename_i hp
    cases hs
    exact ⟨_, if_pos hp, h.list, serves_reap pid h.devices, h.children, rfl, rfl, h.ret, h.names,
      h.ids, h.fresh⟩
  · cases hs

end Relation

section Steps

variable {Name : Type} [DecidableEq Name] {s t : State Name} {a b : Registry Name} {name : Name} {e e' : Entry Name} {pid : Nat}
  {l : Label Name}

theorem find_some (h : s.find name = some e) : e ∈ s.targets ∧ e.name = name :=
  ⟨List.mem_of_find?_eq_some h, by simpa using List.find?_some h⟩

theorem find_none (h : s.find name = none) (he : e ∈ s.targets) : e.name ≠ name := by
  simpa using List.find?_eq_none.mp h e he

/-- The table by names is the one by entries. -/
theorem lookup_eq (h : Refines s a) : a.targets.lookup name =
    (s.find name).map (·.capacitySectors) := by
  rw [← h.list, State.list, State.find]
  induction s.targets with
  | nil => rfl
  | cons e es ih =>
    by_cases he : e.name = name
    · simp [he]
    · have hne : (name == e.name) = false := by simpa using Ne.symm he
      rw [List.map_cons, List.lookup_cons, hne, List.find?_cons_of_neg (by simpa using he), ih]

/-- References to an object are children that serve its name. -/
theorem references_eq {ts : List (Entry Name)} {ws : List (Nat × Nat)}
    {ds : List (Nat × Name × Nat)} (hids : (ts.map (·.id)).Nodup) (hnames : (ts.map (·.name)).Nodup)
    (h : List.Forall₂ (Serves ts) ws ds) (he : e ∈ ts) :
    ws.countP (·.2 = e.id) = ds.countP (·.2.1 = e.name) := by
  induction h with
  | nil => rfl
  | @cons w d ws ds hwd _ ih =>
    obtain ⟨-, e', he', hid, hpair⟩ := hwd
    have hname : e'.name = d.2.1 := congrArg Prod.fst hpair
    have hiff : w.2 = e.id ↔ d.2.1 = e.name := by
      rw [← hid, ← hname]
      exact ⟨fun h => congrArg _ (entry_eq_of_id hids he' he h),
        fun h => congrArg _ (entry_eq_of_name hnames he' he h)⟩
    rw [List.countP_cons, List.countP_cons, ih]
    simp only [hiff]

theorem useCount_eq (h : Refines s a) (he : e ∈ s.targets) :
    s.useCount e.id = 1 + a.devices.countP (·.2.1 = e.name) := by
  rw [State.useCount, references_eq h.ids h.names h.devices he]
  congr 1
  have hcount : (s.targets.map (·.id)).count e.id = 1 :=
    List.count_eq_one_of_mem h.ids (List.mem_map_of_mem he)
  rw [List.count, List.countP_map] at hcount
  rw [← hcount]
  congr 1

theorem refines_create {capacitySectors : Nat} {built : Bool} (h : Refines s a) :
    Refines (s.create name capacitySectors built) (a.create name capacitySectors built) := by
  unfold State.create Registry.create
  rw [lookup_eq h]
  cases hf : s.find name with
  | some e => exact ⟨h.list, h.devices, h.children, h.exited, h.stuck, rfl, h.names, h.ids, h.fresh⟩
  | none =>
    cases built with
    | false => exact ⟨h.list, h.devices, h.children, h.exited, h.stuck, rfl, h.names, h.ids, h.fresh⟩
    | true =>
      refine ⟨?_, h.devices.imp fun _ _ => serves_cons, h.children, h.exited, h.stuck, rfl, ?_, ?_, ?_⟩
      · exact congrArg ((name, capacitySectors) :: ·) h.list
      · refine List.nodup_cons.mpr ⟨fun hmem => ?_, h.names⟩
        obtain ⟨e, he, hname⟩ := List.mem_map.mp hmem
        exact find_none hf he hname
      · refine List.nodup_cons.mpr ⟨fun hmem => ?_, h.ids⟩
        obtain ⟨e, he, hid⟩ := List.mem_map.mp hmem
        have := h.fresh e he
        dsimp only at hid
        omega
      · intro e he
        rcases List.mem_cons.mp he with rfl | he
        · exact Nat.lt_succ_self _
        · exact Nat.lt_succ_of_lt (h.fresh e he)

theorem refines_map {sent : Bool} {child : Option Nat} (h : Refines s a)
    (hs : s.map name sent child = some t) : ∃ b, a.map name sent child = some b ∧ Refines t b := by
  unfold State.map at hs
  unfold Registry.map
  rw [lookup_eq h]
  cases hf : s.find name with
  | none =>
    rw [hf] at hs
    cases hs
    exact ⟨_, rfl, h.list, h.devices, h.children, h.exited, h.stuck, rfl, h.names, h.ids, h.fresh⟩
  | some e =>
    obtain ⟨he, hname⟩ := find_some hf
    rw [hf] at hs
    cases sent with
    | false =>
      cases hs
      exact ⟨_, rfl, h.list, h.devices, h.children, h.exited, h.stuck, rfl, h.names, h.ids, h.fresh⟩
    | true =>
      cases child with
      | none =>
        cases hs
        exact ⟨_, rfl, h.list, h.devices, h.children, h.exited, h.stuck, rfl, h.names, h.ids, h.fresh⟩
      | some pid =>
        have hserves : Serves s.targets (pid, e.id) (pid, name, e.capacitySectors) :=
          ⟨rfl, e, he, rfl, by rw [hname]⟩
        simp only [Option.map_some]
        rw [← pids_eq h.devices, ← h.children]
        dsimp only at hs
        split at hs
        · cases hs
        · rename_i hfree
          rw [if_neg hfree]
          split at hs
          · rename_i hpast
            cases hs
            rw [if_pos hpast]
            exact ⟨_, rfl, h.list, .cons hserves h.devices, rfl, h.exited, rfl, rfl, h.names,
              h.ids, h.fresh⟩
          · rename_i hpast
            cases hs
            rw [if_neg hpast]
            exact ⟨_, rfl, h.list, .cons hserves h.devices, rfl, h.exited,
              h.stuck, rfl, h.names, h.ids, h.fresh⟩

theorem devices_absent (h : Refines s a) (hf : s.find name = none) :
    a.devices.countP (·.2.1 = name) = 0 := by
  rw [List.countP_eq_zero]
  intro d hd
  obtain ⟨e, he, hpair⟩ := served_of_mem h.devices hd
  have hname : e.name = d.2.1 := congrArg Prod.fst hpair
  simpa [← hname] using find_none hf he

/-- Without its children, a target can go from the table. -/
theorem serves_destroy {ts : List (Entry Name)} {ws : List (Nat × Nat)}
    {ds : List (Nat × Name × Nat)} (h : List.Forall₂ (Serves ts) ws ds)
    (hn : ds.countP (·.2.1 = name) = 0) :
    List.Forall₂ (Serves (ts.filter fun e => e.name ≠ name)) ws ds := by
  induction h with
  | nil => exact .nil
  | @cons w d ws ds h _ ih =>
    obtain ⟨hpid, e, he, hid, hpair⟩ := h
    rw [List.countP_cons] at hn
    have hne : e.name ≠ name := by
      rintro rfl
      have hname : d.2.1 = e.name := (congrArg Prod.fst hpair).symm
      simp [hname] at hn
    exact .cons ⟨hpid, e, List.mem_filter.mpr ⟨he, by simpa using hne⟩, hid, hpair⟩ (ih (by omega))

theorem refines_destroy (h : Refines s a) : Refines (s.destroy name) (a.destroy name) := by
  unfold State.destroy Registry.destroy
  cases hf : s.find name with
  | none =>
    have hsame : a.targets.filter (fun e => e.1 ≠ name) = a.targets := by
      refine List.filter_eq_self.mpr fun x hx => ?_
      rw [← h.list] at hx
      obtain ⟨e, he, rfl⟩ := List.mem_map.mp hx
      simpa using find_none hf he
    rw [if_pos (devices_absent h hf), hsame]
    exact ⟨h.list, h.devices, h.children, h.exited, h.stuck, rfl, h.names, h.ids, h.fresh⟩
  | some e =>
    obtain ⟨he, rfl⟩ := find_some hf
    have hcount := useCount_eq h he
    dsimp only
    by_cases hn : a.devices.countP (·.2.1 = e.name) = 0
    · rw [if_neg (by omega), if_pos hn]
      refine ⟨?_, serves_destroy h.devices hn, h.children, h.exited, h.stuck, rfl, ?_, ?_,
        fun e he => h.fresh e (List.mem_of_mem_filter he)⟩
      · rw [← h.list, State.list, State.list, List.filter_map]
        rfl
      · exact h.names.sublist (List.Sublist.map _ List.filter_sublist)
      · exact h.ids.sublist (List.Sublist.map _ List.filter_sublist)
    · rw [if_pos (by omega), if_neg hn, hcount, Nat.add_sub_cancel_left]
      exact ⟨h.list, h.devices, h.children, h.exited, h.stuck, rfl, h.names, h.ids, h.fresh⟩

theorem refines_step (h : Refines s a) (hs : s.step l = some t) :
    ∃ b, a.step l = some b ∧ Refines t b := by
  have hcall : ∀ {c : Option (State Name)}, (if s.stuck = none then c else none) = some t →
      a.stuck = none ∧ c = some t := by
    intro c hc
    split at hc
    · exact ⟨h.stuck ▸ ‹_›, hc⟩
    · cases hc
  cases l with
  | create name capacitySectors built =>
    obtain ⟨hfree, ht⟩ := hcall hs
    cases ht
    exact ⟨_, if_pos hfree, refines_create h⟩
  | map name sent child =>
    obtain ⟨hfree, ht⟩ := hcall hs
    obtain ⟨b, hb, hr⟩ := refines_map h ht
    exact ⟨b, (if_pos hfree).trans hb, hr⟩
  | destroy name =>
    obtain ⟨hfree, ht⟩ := hcall hs
    cases ht
    exact ⟨_, if_pos hfree, refines_destroy h⟩
  | exit pid => exact refines_exit h hs
  | reap pid => exact refines_reap h hs

theorem refines_exec {ls : List (Label Name)} (h : Refines s a) (hs : Lts.exec State.step s ls = some t) :
    ∃ b, Lts.exec Registry.step a ls = some b ∧ Refines t b := by
  induction ls generalizing s a with
  | nil =>
    cases hs
    exact ⟨a, rfl, h⟩
  | cons l ls ih =>
    obtain ⟨u, hu, hs⟩ := Option.bind_eq_some_iff.mp hs
    obtain ⟨b, hb, hr⟩ := refines_step h hu
    obtain ⟨c, hc, hr'⟩ := ih hr hs
    exact ⟨c, Option.bind_eq_some_iff.mpr ⟨b, hb, hc⟩, hr'⟩

/-- Whatever is called, and whenever children exit and are waited for, the outcomes of the calls and
the list of targets are those of the registry: a target is turned down for destruction exactly while
there are children for it that were not waited for, whose number is reported, and it stays in the table
with its capacity for as long. -/
theorem registry_of_exec (ls : List (Label Name)) (s : State Name)
    (h : Lts.exec State.step .initial ls = some s) : ∃ a : Registry Name,
      Lts.exec Registry.step .initial ls = some a ∧ s.ret = a.ret ∧ s.list = a.targets ∧
      s.waiters.map Prod.fst = a.devices.map Prod.fst ∧ s.stuck = a.stuck ∧
      (a.targets.map Prod.fst).Nodup ∧ ∀ d ∈ a.devices, d.2 ∈ a.targets := by
  obtain ⟨a, ha, hr⟩ := refines_exec refines_initial h
  refine ⟨a, ha, hr.ret, hr.list, pids_eq hr.devices, hr.stuck, ?_, fun d hd => ?_⟩
  · rw [← hr.list, State.list, List.map_map]
    exact hr.names
  · obtain ⟨e, he, hpair⟩ := served_of_mem hr.devices hd
    rw [← hr.list, ← hpair]
    exact List.mem_map_of_mem he

/-- A target is made, and a child for it; destroying it is tried while the child runs, and again when
it has been waited for. -/
def lifetime : List (Label Nat) :=
  [.create 0 8 true, .map 0 true (some 7), .destroy 0, .exit 7, .reap 7, .destroy 0]

theorem registry_of_exec_lifetime : ∃ s t : State Nat,
    Lts.exec State.step .initial (lifetime.take 3) = some s ∧ s.ret = .busy 1 ∧ s.list = [(0, 8)] ∧
    Lts.exec State.step .initial lifetime = some t ∧ t.ret = .done ∧ t.list = [] := by
  obtain ⟨s, hs⟩ : ∃ s, Lts.exec State.step (.initial : State Nat) (lifetime.take 3) = some s :=
    ⟨_, rfl⟩
  obtain ⟨t, ht⟩ : ∃ t, Lts.exec State.step (.initial : State Nat) lifetime = some t := ⟨_, rfl⟩
  obtain ⟨a, ha, hret, hlist, -⟩ := registry_of_exec _ s hs
  obtain ⟨b, hb, hret', hlist', -⟩ := registry_of_exec _ t ht
  cases ha
  cases hb
  exact ⟨s, t, hs, hret, hlist, ht, hret', hlist'⟩

end Steps

end Ublk.Master
