import Mathlib.Algebra.GroupWithZero.Nat
import Mathlib.Data.List.Perm.Subperm
import Ublk.Cmd.Ack

/-!
What is left to do for the commands: the steps of the call under way, and the references that the
submitters hold.
-/
namespace Ublk.CmdHandler

open Shared

variable {S : Setup} {s t : State} {c k : Nat} {pc : Pc} {q : Query} {l : Label} {cmd : Cmd}
  {reqs : Requests} {f : Query → Query} {r : Int}

/-- One acknowledgement more at most. -/
def Acknowledges (s t : State) : Prop := t.acks = s.acks ∨ ∃ a, t.acks = s.acks ++ [a]

/-- How many steps the call has yet to make. -/
def Pc.left : Pc → Nat
  | .cells _ _ n => 2 * n + 2
  | .cell _ _ n => 2 * n + 3
  | .flushers _ n => 2 * n + 2
  | .flusher _ n => 2 * n + 3
  | .sole => 2
  | .ended => 1

def State.left (s : State) : Nat := (s.call.map fun call => call.pc.left).getD 0

/-- The references that the submitters hold. -/
def State.held (s : State) : Nat := (s.queries.map Query.holders).sum

/-- The composite flusher's own references are those of the call under way. -/
def State.Owns (s : State) : Prop :=
  ∀ k q, s.queries[k]? = some q → q.own = true → ∃ call, s.call = some call ∧ call.pc.Keeps k

theorem dropped_keeps (h : s.dropped c reqs = some t) :
    t.cmds = s.cmds ∧ t.call = s.call ∧ t.queries = s.queries ∧ Acknowledges s t := by
  obtain ⟨cmd, -, rfl⟩ := dropped_cases h
  refine ⟨rfl, rfl, rfl, ?_⟩
  unfold Acknowledges
  dsimp only
  split
  · exact .inr ⟨_, rfl⟩
  · exact .inl rfl

theorem put_keeps (h : s.put k q = some t) :
    t.cmds = s.cmds ∧ t.call = s.call ∧ t.queries = s.queries.set k q ∧ Acknowledges s t := by
  unfold State.put at h
  dsimp only at h
  split at h
  · cases h
    exact ⟨rfl, rfl, rfl, .inl rfl⟩
  · exact dropped_keeps h

theorem touch_keeps (h : s.touch k f = some t) : ∃ q, s.queries[k]? = some q ∧ q.holders ≠ 0 ∧
    t.cmds = s.cmds ∧ t.call = s.call ∧ t.queries = s.queries.set k (f q) ∧ Acknowledges s t := by
  obtain ⟨q, hq, h⟩ := Option.bind_eq_some_iff.mp h
  split at h
  · cases h
  · rename_i hpos
    exact ⟨q, hq, hpos, put_keeps h⟩

/-- The handler of an operation starts, and nothing is acknowledged yet. -/
theorem dispatch_keeps : (s.dispatch S c cmd).cmds = s.cmds ∧
    (s.dispatch S c cmd).acks = s.acks := by
  unfold State.dispatch
  split
  · exact ⟨rfl, rfl⟩
  · exact ⟨rfl, rfl⟩
  · exact ⟨rfl, rfl⟩
  · split
    · exact ⟨rfl, rfl⟩
    · exact ⟨rfl, rfl⟩
  · exact ⟨rfl, rfl⟩

theorem handle_keeps (h : s.handle S cmd = some t) :
    t.cmds = s.cmds ++ [cmd] ∧ t.acks = s.acks := by
  obtain ⟨-, rfl⟩ := handle_cases h
  exact dispatch_keeps

/-- The call has fewer steps to make than before, and keeps its own reference as long as it is in
the composite flusher's loop. -/
theorem advance_keeps (h : s.advance S = some t) :
    t.cmds = s.cmds ∧ t.left < s.left ∧ Acknowledges s t := by
  obtain ⟨⟨c, pc⟩, hc, h⟩ := Option.bind_eq_some_iff.mp h
  have hleft : s.left = pc.left := by simp [State.left, hc]
  rw [hleft]
  cases pc with
  | cells offset celldn left =>
    dsimp only at h
    split at h
    · split at h
      · split at h
        · cases h
        · cases h
          refine ⟨rfl, ?_, .inl rfl⟩
          simp only [State.left, State.query, Pc.left, Option.map_some, Option.getD_some]
          omega
      · cases h
        exact ⟨rfl, by simp [State.left, State.goto, Pc.left], .inl rfl⟩
    · cases h
      exact ⟨rfl, by simp [State.left, State.goto, Pc.left], .inl rfl⟩
  | flushers k left =>
    obtain ⟨q, hq, h⟩ := Option.bind_eq_some_iff.mp h
    cases left with
    | zero =>
      obtain ⟨hcmds, hcall, -, hacks⟩ := put_keeps h
      exact ⟨hcmds, by simp [State.left, hcall, State.goto, Pc.left], hacks⟩
    | succ left =>
      obtain ⟨hcmds, hcall, -, hacks⟩ := put_keeps h
      refine ⟨hcmds, ?_, hacks⟩
      simp only [State.left, hcall, State.goto, Pc.left, Option.map_some, Option.getD_some]
      omega
  | ended =>
    obtain ⟨u, hu, rfl⟩ := Option.map_eq_some_iff.mp h
    obtain ⟨hcmds, -, -, hacks⟩ := dropped_keeps hu
    exact ⟨hcmds, by simp [State.left, Pc.left], hacks⟩
  | _ => cases h

theorem returned_keeps (h : s.returned r = some t) :
    t.cmds = s.cmds ∧ t.left < s.left ∧ t.acks = s.acks := by
  obtain ⟨⟨c, pc⟩, hc, h⟩ := Option.bind_eq_some_iff.mp h
  have hleft : s.left = pc.left := by simp [State.left, hc]
  rw [hleft]
  cases pc with
  | cell offset celldn left =>
    cases h
    refine ⟨rfl, ?_, rfl⟩
    simp only [State.left, State.goto, Option.map_some, Option.getD_some]
    split <;> simp [Pc.left]
  | flusher k left =>
    cases h
    exact ⟨rfl, by simp [State.left, State.goto, Pc.left], rfl⟩
  | sole =>
    cases h
    exact ⟨rfl, by simp [State.left, State.goto, Pc.left], rfl⟩
  | _ => cases h

theorem sum_set {qs : List Query} (h : qs[k]? = some q) (n : Nat) :
    ((qs.set k { q with holders := n }).map Query.holders).sum + q.holders =
      (qs.map Query.holders).sum + n := by
  obtain ⟨hk, rfl⟩ := List.getElem?_eq_some_iff.mp h
  induction qs generalizing k with
  | nil => cases hk
  | cons x qs ih =>
    cases k with
    | zero =>
      simp
      omega
    | succ k =>
      have := ih (k := k) (by simpa using hk) (by simp)
      simp at this ⊢
      omega

/-- A submitter lets go of a reference. -/
theorem drop_keeps (h : s.step S (.drop k) = some t) :
    t.cmds = s.cmds ∧ t.call = s.call ∧ t.held < s.held ∧ Acknowledges s t := by
  obtain ⟨q, hq, hpos, hcmds, hcall, hqs, hacks⟩ := touch_keeps h
  refine ⟨hcmds, hcall, ?_, hacks⟩
  have := sum_set hq (q.holders - 1)
  rw [State.held, State.held, hqs]
  omega

/-- Every step but a new call. -/
theorem work_keeps (h : s.step S l = some t) (hl : ∀ cmd, l ≠ .handle cmd) :
    t.cmds = s.cmds ∧ Acknowledges s t := by
  cases l with
  | handle cmd => exact absurd rfl (hl cmd)
  | advance =>
    obtain ⟨hcmds, -, hacks⟩ := advance_keeps h
    exact ⟨hcmds, hacks⟩
  | returned r =>
    obtain ⟨hcmds, -, hacks⟩ := returned_keeps h
    exact ⟨hcmds, .inl hacks⟩
  | share k =>
    obtain ⟨q, -, -, hcmds, -, -, hacks⟩ := touch_keeps h
    exact ⟨hcmds, hacks⟩
  | setErr k e =>
    obtain ⟨q, -, -, hcmds, -, -, hacks⟩ := touch_keeps h
    exact ⟨hcmds, hacks⟩
  | drop k =>
    obtain ⟨q, -, -, hcmds, -, -, hacks⟩ := touch_keeps h
    exact ⟨hcmds, hacks⟩

section Ids

/-- The id of the command in place `c`. -/
def State.idOf (s : State) (c : Nat) : Nat := (s.cmds[c]?.map Cmd.id).getD 0

theorem ids_cmds : s.cmds.map Cmd.id = (List.range s.cmds.length).map s.idOf := by
  refine List.ext_getElem (by simp) fun c h _ => ?_
  simp only [List.length_map] at h
  simp [State.idOf, h]

theorem ids_acks (h : Inv s) : s.acks.map Ack.id = (s.acks.map Ack.cmd).map s.idOf := by
  rw [List.map_map]
  refine List.map_congr_left fun a ha => ?_
  obtain ⟨cmd, hcmd, hid⟩ := h.ids a ha
  simp [State.idOf, hcmd, hid]

theorem count_acks (h : Inv s) {c : Nat} (hlt : c < s.cmds.length) :
    (s.acks.map Ack.cmd).count c = if s.shares c = 0 then 1 else 0 := by
  have hc : c < s.reqs.count := h.count ▸ hlt
  rw [← h.balanced.runs c hc, ← h.acked c hc, List.count, List.countP_map]
  exact List.countP_congr fun a _ => by simp

/-- No command is acknowledged twice. -/
theorem nodup_acks (h : Inv s) : (s.acks.map Ack.cmd).Nodup := by
  refine List.nodup_iff_count.mpr fun c => ?_
  by_cases hlt : c < s.cmds.length
  · rw [count_acks h hlt]
    split <;> omega
  · have hnone : c ∉ s.acks.map Ack.cmd := by
      intro hmem
      obtain ⟨a, ha, rfl⟩ := List.mem_map.mp hmem
      obtain ⟨cmd, hcmd, -⟩ := h.ids a ha
      exact hlt (List.getElem?_eq_some_iff.mp hcmd).1
    rw [List.count_eq_zero.mpr hnone]
    exact Nat.zero_le 1

/-- Each acknowledgement has the id of a command of its own. -/
theorem ids_subperm (h : Inv s) : (s.acks.map Ack.id).Subperm (s.cmds.map Cmd.id) := by
  rw [ids_acks h, ids_cmds]
  have hsub : (s.acks.map Ack.cmd).Subperm (List.range s.cmds.length) := by
    refine (nodup_acks h).subperm fun c hc => ?_
    obtain ⟨a, ha, rfl⟩ := List.mem_map.mp hc
    obtain ⟨cmd, hcmd, -⟩ := h.ids a ha
    exact List.mem_range.mpr (List.getElem?_eq_some_iff.mp hcmd).1
  obtain ⟨l, hperm, hsub⟩ := hsub
  exact ⟨l.map s.idOf, hperm.map _, hsub.map _⟩

/-- Where no request has a holder, each command has its acknowledgement. -/
theorem ids_perm (h : Inv s) (hz : ∀ c < s.cmds.length, s.shares c = 0) :
    (s.acks.map Ack.id).Perm (s.cmds.map Cmd.id) := by
  rw [ids_acks h, ids_cmds]
  refine List.Perm.map _ ((List.perm_ext_iff_of_nodup (nodup_acks h) List.nodup_range).mpr
    fun c => ⟨fun hc => ?_, fun hc => ?_⟩)
  · obtain ⟨a, ha, rfl⟩ := List.mem_map.mp hc
    obtain ⟨cmd, hcmd, -⟩ := h.ids a ha
    exact List.mem_range.mpr (List.getElem?_eq_some_iff.mp hcmd).1
  · have hlt := List.mem_range.mp hc
    refine List.count_pos_iff.mp ?_
    rw [count_acks h hlt, if_pos (hz c hlt)]
    exact Nat.one_pos

end Ids

section Owns

/-- Where the call is not in the composite flusher's loop, no query has a reference of its own. -/
theorem own_of_owns (h : s.Owns) (hn : ∀ call, s.call = some call → ∀ k, ¬ call.pc.Keeps k) :
    ∀ q ∈ s.queries, q.own = false := by
  intro q hq
  obtain ⟨k, hk⟩ := List.mem_iff_getElem?.mp hq
  by_contra hown
  obtain ⟨call, hcall, hkeep⟩ := h k q hk (eq_true_of_ne_false hown)
  exact hn call hcall k hkeep

theorem owns_of_all (h : ∀ q ∈ s.queries, q.own = false) : s.Owns := by
  intro k q hk hown
  rw [h q (List.mem_of_getElem? hk)] at hown
  cases hown

theorem owns_initial : State.initial.Owns := owns_of_all (by simp [State.initial])

/-- A query that the composite flusher does not keep. -/
theorem owns_query {ask : Ask} (h : ∀ q ∈ s.queries, q.own = false) :
    (s.query c ask false pc).Owns := by
  refine owns_of_all fun q hq => ?_
  obtain hq | hq := List.mem_append.mp hq
  · exact h q hq
  · obtain rfl := List.mem_singleton.mp hq
    rfl

theorem owns_dispatch (h : ∀ q ∈ s.queries, q.own = false) : (s.dispatch S c cmd).Owns := by
  unfold State.dispatch
  split
  · exact owns_of_all h
  · exact owns_of_all h
  · exact owns_query h
  · split
    · exact owns_query h
    · intro k q hk hown
      refine ⟨_, rfl, ?_⟩
      by_cases hlt : k < s.queries.length
      · have hold : s.queries[k]? = some q := (List.getElem?_append_left hlt).symm.trans hk
        rw [h q (List.mem_of_getElem? hold)] at hown
        cases hown
      · have hnew := (List.getElem?_eq_some_iff.mp hk).1
        simp only [State.query, List.length_append, List.length_singleton] at hnew
        change k = s.queries.length
        omega
  · exact owns_of_all h

theorem owns_put {q' : Query} (h : s.Owns) (hs : s.put k q' = some t)
    (hkeep : q'.own = true → ∃ call, s.call = some call ∧ call.pc.Keeps k) : t.Owns := by
  obtain ⟨-, hcall, hqs, -⟩ := put_keeps hs
  intro i q hq hown
  rw [hqs, List.getElem?_set] at hq
  rw [hcall]
  split at hq
  · rename_i hi
    subst hi
    split at hq
    · cases hq
      exact hkeep hown
    · cases hq
  · exact h i q hq hown

theorem owns_touch (h : s.Owns) (hs : s.touch k f = some t) (hown : ∀ q, (f q).own = q.own) :
    t.Owns := by
  obtain ⟨q, hq, hs⟩ := Option.bind_eq_some_iff.mp hs
  split at hs
  · cases hs
  · exact owns_put h hs fun ho => h k q hq (by rwa [hown] at ho)

theorem owns_handle (h : s.Owns) (hs : s.handle S cmd = some t) : t.Owns := by
  obtain ⟨hc, rfl⟩ := handle_cases hs
  exact owns_dispatch (own_of_owns h fun call hcall => by simp [hc] at hcall)

theorem owns_advance (h : s.Owns) (hs : s.advance S = some t) : t.Owns := by
  obtain ⟨⟨c, pc⟩, hc, hs⟩ := Option.bind_eq_some_iff.mp hs
  have hnone : (∀ k, ¬ pc.Keeps k) → ∀ q ∈ s.queries, q.own = false := fun hn =>
    own_of_owns h fun call hcall => by
      cases hc.symm.trans hcall
      exact hn
  cases pc with
  | cells offset celldn left =>
    have hall := hnone fun _ => id
    dsimp only at hs
    split at hs
    · split at hs
      · split at hs
        · cases hs
        · cases hs
          exact owns_query hall
      · cases hs
        exact owns_of_all hall
    · cases hs
      exact owns_of_all hall
  | flushers k left =>
    obtain ⟨q, hq, hs⟩ := Option.bind_eq_some_iff.mp hs
    -- the other queries have none, and the call stays with this one or lets it go
    have hother : ∀ i q', s.queries[i]? = some q' → q'.own = true → i = k := by
      intro i q' hi hown
      obtain ⟨call, hcall, hkeep⟩ := h i q' hi hown
      cases hc.symm.trans hcall
      exact hkeep
    cases left with
    | zero =>
      obtain ⟨-, -, hqs, -⟩ := put_keeps hs
      refine owns_of_all fun x hx => ?_
      obtain ⟨i, hi⟩ := List.mem_iff_getElem?.mp hx
      rw [hqs, List.getElem?_set] at hi
      split at hi
      · split at hi
        · cases hi
          rfl
        · cases hi
      · rename_i hne
        by_contra hown
        exact hne (hother i x hi (eq_true_of_ne_false hown)).symm
    | succ left =>
      have hgoto : (s.goto c (.flusher k left)).Owns := fun i q' hi hown =>
        ⟨_, rfl, hother i q' hi hown⟩
      exact owns_put hgoto hs fun _ => ⟨_, rfl, rfl⟩
  | ended =>
    have hall := hnone fun _ => id
    obtain ⟨u, hu, rfl⟩ := Option.map_eq_some_iff.mp hs
    obtain ⟨-, -, hqs, -⟩ := dropped_keeps hu
    refine owns_of_all fun q hq => hall q ?_
    rwa [← hqs]
  | _ => cases hs

theorem owns_returned (h : s.Owns) (hs : s.returned r = some t) : t.Owns := by
  obtain ⟨⟨c, pc⟩, hc, hs⟩ := Option.bind_eq_some_iff.mp hs
  have hnone : (∀ k, ¬ pc.Keeps k) → ∀ q ∈ s.queries, q.own = false := fun hn =>
    own_of_owns h fun call hcall => by
      cases hc.symm.trans hcall
      exact hn
  cases pc with
  | cell offset celldn left =>
    cases hs
    exact owns_of_all (hnone fun _ => id)
  | flusher k left =>
    cases hs
    intro i q hi hown
    obtain ⟨call, hcall, hkeep⟩ := h i q hi hown
    cases hc.symm.trans hcall
    exact ⟨_, rfl, hkeep⟩
  | sole =>
    cases hs
    exact owns_of_all (hnone fun _ => id)
  | _ => cases hs

theorem owns_step (h : s.Owns) (hs : s.step S l = some t) : t.Owns := by
  cases l with
  | handle cmd => exact owns_handle h hs
  | advance => exact owns_advance h hs
  | returned r => exact owns_returned h hs
  | share k => exact owns_touch h hs fun _ => rfl
  | setErr k e => exact owns_touch h hs fun _ => rfl
  | drop k => exact owns_touch h hs fun _ => rfl

end Owns

end Ublk.CmdHandler
