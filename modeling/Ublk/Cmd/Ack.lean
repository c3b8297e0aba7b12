import Ublk.Cmd.Handler
import Ublk.Lib.Runs

/-! Each command is acknowledged once, when no query of it is held any more. -/
namespace Ublk.CmdHandler

open Shared

variable {S : Setup} {s t : State} {c d k : Nat} {pc pc' : Pc} {q q' : Query} {l : Label}
  {cmd : Cmd} {call : Call} {ask : Ask} {own : Bool} {reqs : Requests} {f : Query → Query} {r : Int}

/-- The call is in the composite flusher's loop over query `k`. -/
def Pc.Keeps : Pc → Nat → Prop
  | .flushers k _, i | .flusher k _, i => i = k
  | _, _ => False

/-- The command whose call is under way. -/
def State.pending (s : State) : Option Nat := s.call.map Call.cmd

/-- The holders of the request of command `c`: its call and the queries that somebody holds. -/
def State.shares (s : State) (c : Nat) : Nat :=
  (if s.pending = some c then 1 else 0) + s.queries.countP fun q => q.cmd = c ∧ q.Held

structure Inv (s : State) : Prop where
  balanced : s.reqs.Balanced s.shares s.pending
  count : s.reqs.count = s.cmds.length
  acked : ∀ c < s.reqs.count, s.acks.countP (·.cmd = c) = (s.reqs.req c).runs
  ids : ∀ a ∈ s.acks, ∃ cmd, s.cmds[a.cmd]? = some cmd ∧ a.id = cmd.id
  keeps : ∀ call, s.call = some call → ∀ k, call.pc.Keeps k →
    ∃ q, s.queries[k]? = some q ∧ q.own = true

theorem inv_initial : Inv State.initial := by
  constructor <;> simp [State.initial, Requests.empty]
  exact Requests.balanced_empty

theorem inv_goto (h : Inv s) (hc : s.pending = some c)
    (hk : ∀ k, pc.Keeps k → ∃ q, s.queries[k]? = some q ∧ q.own = true) : Inv (s.goto c pc) := by
  have hp : (s.goto c pc).pending = s.pending := hc.symm
  refine ⟨?_, h.count, h.acked, h.ids, ?_⟩
  · have hs : (s.goto c pc).shares = s.shares := funext fun d => by
      rw [State.shares, hp]
      rfl
    rw [hp, hs]
    exact h.balanced
  · rintro _ ⟨⟩
    exact hk

theorem inv_query (h : Inv s) (hc : s.pending = some c)
    (hk : ∀ k, pc.Keeps k → k = s.queries.length ∧ own = true) :
    Inv (s.query c ask own pc) := by
  have hp : (s.query c ask own pc).pending = s.pending := hc.symm
  refine ⟨?_, h.count, ?_, h.ids, ?_⟩
  · rw [hp]
    refine Requests.balanced_share h.balanced ?_ fun d => ?_
    · rw [State.shares, if_pos hc]
      omega
    · have hheld : (⟨c, ask, if own then 0 else 1, own, 0⟩ : Query).Held := by
        cases own <;> simp [Query.Held]
      rw [State.shares, hp, State.query, List.countP_append, State.shares]
      simp only [List.countP_singleton, hheld, and_true, decide_eq_true_eq, eq_comm (a := c)]
      omega
  · intro d hd
    rw [State.query, Requests.runs_share]
    exact h.acked d hd
  · rintro _ ⟨⟩ k hkeep
    obtain ⟨rfl, rfl⟩ := hk k hkeep
    exact ⟨_, List.getElem?_concat_length, rfl⟩

theorem dropped_cases (h : s.dropped c reqs = some t) : ∃ cmd, s.cmds[c]? = some cmd ∧
    t = { s with
      reqs
      acks := if (s.reqs.req c).holders = 1 then
        s.acks ++ [⟨c, cmd.id, narrow (s.reqs.req c).err⟩] else s.acks } := by
  obtain ⟨cmd, hcmd, h⟩ := Option.bind_eq_some_iff.mp h
  cases h
  exact ⟨cmd, hcmd, rfl⟩

/-- The acknowledgements keep up with the completers that ran. -/
theorem acked_dropped (ha : ∀ d < s.reqs.count, s.acks.countP (·.cmd = d) = (s.reqs.req d).runs)
    (hid : ∀ a ∈ s.acks, ∃ cmd, s.cmds[a.cmd]? = some cmd ∧ a.id = cmd.id)
    (hcount : reqs.count = s.reqs.count)
    (hruns : ∀ d, (reqs.req d).runs =
      (s.reqs.req d).runs + if d = c ∧ (s.reqs.req c).holders = 1 then 1 else 0)
    (h : s.dropped c reqs = some t) :
    (∀ d < t.reqs.count, t.acks.countP (·.cmd = d) = (t.reqs.req d).runs) ∧
      ∀ a ∈ t.acks, ∃ cmd, t.cmds[a.cmd]? = some cmd ∧ a.id = cmd.id := by
  obtain ⟨cmd, hcmd, rfl⟩ := dropped_cases h
  constructor
  · intro d hd
    have hd := ha d (hcount ▸ hd)
    dsimp only
    rw [hruns]
    split
    · rename_i hone
      rw [List.countP_append, hd, List.countP_singleton]
      simp [hone, eq_comm]
    · rename_i hone
      simp [hd, hone]
  · intro a ham
    dsimp only at ham
    split at ham
    · obtain ham | ham := List.mem_append.mp ham
      · exact hid a ham
      · cases List.mem_singleton.mp ham
        exact ⟨cmd, hcmd, rfl⟩
    · exact hid a ham

theorem runs_drop : ((reqs.drop c).req d).runs =
    (reqs.req d).runs + if d = c ∧ (reqs.req c).holders = 1 then 1 else 0 := by
  by_cases hd : d = c
  · subst hd
    simp [Requests.runs_drop_self]
  · simp [Requests.req_drop_of_ne _ _ _ hd, hd]

theorem runs_returned {e : Int} : ((reqs.returned c e).req d).runs =
    (reqs.req d).runs + if d = c ∧ (reqs.req c).holders = 1 then 1 else 0 := by
  rw [Requests.returned, runs_drop]
  by_cases hd : d = c
  · subst hd
    simp
  · simp [hd]

theorem countP_held_set {qs : List Query} (hq : qs[k]? = some q) (hheld : q.Held)
    (hcmd : q'.cmd = q.cmd) : (qs.countP fun q => q.cmd = d ∧ q.Held) =
      ((qs.set k q').countP fun q => q.cmd = d ∧ q.Held) +
        if d = q.cmd ∧ ¬ q'.Held then 1 else 0 := by
  obtain ⟨hk, rfl⟩ := List.getElem?_eq_some_iff.mp hq
  rw [List.countP_set hk]
  by_cases hd : d = qs[k].cmd
  · have hpos : 0 < qs.countP fun q => q.cmd = d ∧ q.Held :=
      List.countP_pos_iff.mpr ⟨_, List.getElem_mem hk, by simp [hd, hheld]⟩
    have hone : decide (qs[k].cmd = d ∧ qs[k].Held) = true := by simp [hd, hheld]
    rw [if_pos hone]
    by_cases hh : q'.Held
    · have hone' : decide (q'.cmd = d ∧ q'.Held) = true := by simp [hcmd, hd, hh]
      rw [if_pos hone', if_neg fun hn => hn.2 hh]
      omega
    · have hzero : ¬ decide (q'.cmd = d ∧ q'.Held) = true := by simp [hh]
      rw [if_neg hzero, if_pos ⟨hd, hh⟩]
      omega
  · have hzero : ∀ x : Query, x.cmd = qs[k].cmd → ¬ decide (x.cmd = d ∧ x.Held) = true :=
      fun x hx => by simp [hx, Ne.symm hd]
    rw [if_neg (hzero _ rfl), if_neg (hzero _ hcmd), if_neg fun hn => hd hn.1]
    omega

theorem shares_set (hq : s.queries[k]? = some q) (hheld : q.Held) (hcmd : q'.cmd = q.cmd) :
    s.shares d = { s with queries := s.queries.set k q' }.shares d +
      if d = q.cmd ∧ ¬ q'.Held then 1 else 0 := by
  rw [State.shares, countP_held_set hq hheld hcmd, ← Nat.add_assoc]
  rfl

theorem inv_setErr (h : Inv s) (e : Int) (closed : List (Nat × Int)) :
    Inv { s with reqs := s.reqs.setErr c e, closed } := by
  have hb : (s.reqs.setErr c e).Balanced s.shares s.pending :=
    Requests.balanced_setErr h.balanced
  exact ⟨hb, by simpa using h.count, by simpa using h.acked, h.ids, h.keeps⟩

/-- The request of command `c` loses a holder with its queries becoming `qs`. -/
theorem inv_drop (h : Inv s) {qs : List Query}
    (hs : ∀ d, s.shares d = { s with queries := qs }.shares d + if d = c then 1 else 0)
    (hk : ∀ call, s.call = some call → ∀ k, call.pc.Keeps k →
      ∃ q, qs[k]? = some q ∧ q.own = true)
    (ht : { s with queries := qs }.dropped c (s.reqs.drop c) = some t) : Inv t := by
  have hacked := acked_dropped (s := { s with queries := qs }) h.acked h.ids
    (Requests.count_drop _ _) (fun d => runs_drop) ht
  obtain ⟨cmd, -, rfl⟩ := dropped_cases ht
  have hb : (s.reqs.drop c).Balanced { s with queries := qs }.shares s.pending :=
    Requests.balanced_drop h.balanced hs
  exact ⟨hb, (Requests.count_drop _ _).trans h.count, hacked.1, hacked.2, hk⟩

theorem inv_put (h : Inv s) (hs : s.put k q' = some t) (hq : s.queries[k]? = some q)
    (hheld : q.Held) (hcmd : q'.cmd = q.cmd)
    (hkeep : ∀ call, s.call = some call → call.pc.Keeps k → q'.own = true) : Inv t := by
  have hk := (List.getElem?_eq_some_iff.mp hq).1
  have hkeeps : ∀ call, s.call = some call → ∀ i, call.pc.Keeps i →
      ∃ q, (s.queries.set k q')[i]? = some q ∧ q.own = true := by
    intro call hcall i hi
    by_cases hik : i = k
    · subst hik
      exact ⟨q', by simp [hk], hkeep call hcall hi⟩
    · obtain ⟨x, hx, hown⟩ := h.keeps call hcall i hi
      exact ⟨x, by simp [Ne.symm hik, hx], hown⟩
  have hshares := fun d => shares_set (d := d) hq hheld hcmd
  unfold State.put at hs
  dsimp only at hs
  split at hs
  · rename_i hheld'
    cases hs
    have heq : { s with queries := s.queries.set k q' }.shares = s.shares := funext fun d => by
      rw [hshares d, if_neg fun hn => hn.2 hheld']
      rfl
    have hb : s.reqs.Balanced { s with queries := s.queries.set k q' }.shares s.pending := by
      rw [heq]
      exact h.balanced
    exact ⟨hb, h.count, h.acked, h.ids, hkeeps⟩
  · rename_i hfree
    refine inv_drop (inv_setErr h q'.err (s.closed ++ [(q'.cmd, q'.err)])) (fun d => ?_) hkeeps hs
    refine (hshares d).trans ?_
    simp only [hfree, not_false_eq_true, and_true, hcmd]
    rfl

theorem inv_notSupp (h : Inv s) (hc : s.pending = some c) : Inv (s.notSupp c) :=
  inv_goto (inv_setErr h ENOTSUP s.closed) hc fun _ hk => hk.elim

theorem inv_dispatch (h : Inv s) (hc : s.pending = some c) : Inv (s.dispatch S c cmd) := by
  unfold State.dispatch
  split
  · exact inv_goto h hc fun _ hk => hk.elim
  · exact inv_goto h hc fun _ hk => hk.elim
  · exact inv_query h hc fun _ hk => hk.elim
  · split
    · exact inv_query h hc fun _ hk => hk.elim
    · exact inv_query h hc fun _ hk => ⟨hk, rfl⟩
  · exact inv_notSupp h hc

theorem dispatch_goto : (s.goto c pc).dispatch S c cmd = s.dispatch S c cmd := by
  unfold State.dispatch
  split
  · rfl
  · rfl
  · rfl
  · split <;> rfl
  · rfl

theorem handle_cases (hs : s.handle S cmd = some t) : s.call = none ∧
    t = { s with cmds := s.cmds ++ [cmd], reqs := s.reqs.create }.dispatch S s.cmds.length cmd := by
  unfold State.handle at hs
  split at hs
  · cases hs
  · rename_i hcall
    split at hs
    · cases hs
    · exact ⟨Option.not_isSome_iff_eq_none.mp hcall, (Option.some.inj hs).symm⟩

/-- The new call holds the request before anything else happens. -/
theorem inv_create (cmd : Cmd) (h : Inv s) (hc : s.call = none) :
    Inv (State.goto { s with cmds := s.cmds ++ [cmd], reqs := s.reqs.create }
      s.cmds.length .ended) := by
  have hp : s.pending = none := congrArg _ hc
  refine ⟨?_, ?_, fun d hd => ?_, fun a ha => ?_, ?_⟩
  · have hb := h.balanced
    rw [hp] at hb
    rw [← h.count]
    refine Requests.balanced_create hb fun d => ?_
    rw [State.shares, State.shares, hp]
    simp [State.pending, State.goto, eq_comm, Nat.add_comm]
  · simp [State.goto, h.count]
  · change d < s.reqs.create.count at hd
    rw [Requests.count_create] at hd
    change s.acks.countP _ = (s.reqs.create.req d).runs
    rw [Requests.req_create]
    split
    · rename_i hd
      refine List.countP_eq_zero.mpr fun a ha hn => ?_
      obtain ⟨x, hx, -⟩ := h.ids a ha
      have hlt := (List.getElem?_eq_some_iff.mp hx).1
      have := h.count
      simp only [decide_eq_true_eq] at hn
      omega
    · exact h.acked d (by omega)
  · obtain ⟨x, hx, hid⟩ := h.ids a ha
    have hlt := (List.getElem?_eq_some_iff.mp hx).1
    exact ⟨x, (List.getElem?_append_left hlt).trans hx, hid⟩
  · rintro _ ⟨⟩ _ hk
    exact hk.elim

theorem inv_handle (h : Inv s) (hs : s.handle S cmd = some t) : Inv t := by
  obtain ⟨hc, rfl⟩ := handle_cases hs
  have hinv := @inv_dispatch S _ _ cmd (inv_create cmd h hc) rfl
  rwa [dispatch_goto] at hinv

theorem inv_touch (h : Inv s) (hs : s.touch k f = some t) (hcmd : ∀ q, (f q).cmd = q.cmd)
    (hown : ∀ q, (f q).own = q.own) : Inv t := by
  obtain ⟨q, hq, hs⟩ := Option.bind_eq_some_iff.mp hs
  split at hs
  · cases hs
  · rename_i hpos
    refine inv_put h hs hq (.inl (by omega)) (hcmd q) fun call hc hk => ?_
    obtain ⟨x, hx, hxown⟩ := h.keeps call hc k hk
    cases hq.symm.trans hx
    rw [hown, hxown]

theorem inv_returned (h : Inv s) (hs : s.returned r = some t) : Inv t := by
  obtain ⟨⟨c, pc⟩, hc, hs⟩ := Option.bind_eq_some_iff.mp hs
  have h' : Inv { s with rets := s.rets ++ [(c, r)] } :=
    ⟨h.balanced, h.count, h.acked, h.ids, h.keeps⟩
  have hp : s.pending = some c := congrArg _ hc
  have hk := h.keeps _ hc
  cases pc with
  | cell offset celldn left =>
    cases hs
    refine inv_goto h' hp fun _ hk => ?_
    split at hk
    · exact hk.elim
    · exact hk.elim
  | flusher k left =>
    cases hs
    exact inv_goto h' hp hk
  | sole =>
    cases hs
    exact inv_goto h' hp fun _ hk => hk.elim
  | _ => cases hs

theorem inv_advance (h : Inv s) (hs : s.advance S = some t) : Inv t := by
  obtain ⟨⟨c, pc⟩, hc, hs⟩ := Option.bind_eq_some_iff.mp hs
  have hp : s.pending = some c := congrArg _ hc
  cases pc with
  | cells offset celldn left =>
    dsimp only at hs
    split at hs
    · rename_i left celld _
      split at hs
      · split at hs
        · cases hs
        · cases hs
          exact inv_query h hp fun _ hk => hk.elim
      · cases hs
        have h' : Inv { s with refused := s.refused ++ [c] } :=
          ⟨h.balanced, h.count, h.acked, h.ids, h.keeps⟩
        exact inv_goto h' hp fun _ hk => hk.elim
    · cases hs
      exact inv_goto h hp fun _ hk => hk.elim
  | flushers k left =>
    obtain ⟨q, hq, hs⟩ := Option.bind_eq_some_iff.mp hs
    obtain ⟨x, hx, hown⟩ := h.keeps _ hc k rfl
    cases hq.symm.trans hx
    cases left with
    | zero =>
      have h' : Inv (s.goto c .ended) := inv_goto h hp fun _ hk => hk.elim
      refine inv_put h' hs hq (.inr hown) rfl ?_
      rintro _ ⟨⟩ hk
      exact hk.elim
    | succ left =>
      have h' : Inv (s.goto c (.flusher k left)) := inv_goto h hp (h.keeps _ hc)
      exact inv_put h' hs hq (.inr hown) rfl fun _ _ _ => hown
  | ended =>
    obtain ⟨u, hu, rfl⟩ := Option.map_eq_some_iff.mp hs
    have hacked := acked_dropped h.acked h.ids (Requests.count_returned _ _ _)
      (fun d => runs_returned) hu
    obtain ⟨cmd, -, rfl⟩ := dropped_cases hu
    have hb := h.balanced
    rw [hp] at hb
    refine ⟨Requests.balanced_returned hb fun d => ?_, (Requests.count_returned _ _ _).trans h.count,
      hacked.1, hacked.2, fun call hc => by cases hc⟩
    rw [State.shares, hp, State.shares]
    simp [State.pending, eq_comm, Nat.add_comm]
  | _ => cases hs

theorem inv_step (h : Inv s) (hs : s.step S l = some t) : Inv t := by
  cases l with
  | handle cmd => exact inv_handle h hs
  | advance => exact inv_advance h hs
  | returned r => exact inv_returned h hs
  | share k => exact inv_touch h hs (fun _ => rfl) fun _ => rfl
  | setErr k e => exact inv_touch h hs (fun _ => rfl) fun _ => rfl
  | drop k => exact inv_touch h hs (fun _ => rfl) fun _ => rfl

/-- The states a handler reaches. -/
abbrev Reached (S : Setup) (s : State) : Prop :=
  Lts.Run (State.step S) (fun _ _ => True) .initial s

theorem inv_of_reached (h : Reached S s) : Inv s :=
  Lts.run_invariant h inv_initial fun _ _ _ hi _ hs => inv_step hi hs

theorem lt_of_held (h : Inv s) (hq : q ∈ s.queries) (hheld : q.Held) :
    q.cmd < s.cmds.length := by
  by_contra hn
  have hz := h.balanced.beyond q.cmd (by rw [h.count]; omega)
  have hpos : 0 < s.queries.countP fun x => x.cmd = q.cmd ∧ x.Held :=
    List.countP_pos_iff.mpr ⟨q, hq, by simp [hheld]⟩
  rw [State.shares] at hz
  omega

theorem dropped_total (h : c < s.cmds.length) : ∃ t, s.dropped c reqs = some t := by
  rw [State.dropped, List.getElem?_eq_getElem h]
  exact ⟨_, rfl⟩

theorem put_total (h : q.cmd < s.cmds.length) : ∃ t, s.put k q = some t := by
  unfold State.put
  dsimp only
  split
  · exact ⟨_, rfl⟩
  · exact dropped_total h

/-- A call that is in no submit goes on. -/
theorem advance_total (h : Inv s) (hsize : ∀ celld ∈ S.cellds, celld.dataSz ≠ 0)
    (hc : s.call = some ⟨c, pc⟩) : (∃ t, s.advance S = some t) ∨ ∀ r, ∃ t, s.returned r = some t := by
  simp only [State.advance, State.returned, hc, Option.bind_eq_bind, Option.bind_some]
  cases pc with
  | cells offset celldn left =>
    refine .inl ?_
    dsimp only
    split
    · rename_i left celld hget
      rw [if_neg (hsize celld (List.mem_of_getElem? hget))]
      split
      · exact ⟨_, rfl⟩
      · exact ⟨_, rfl⟩
    · exact ⟨_, rfl⟩
  | cell offset celldn left => exact .inr fun r => ⟨_, rfl⟩
  | flushers k left =>
    obtain ⟨q, hq, hown⟩ := h.keeps _ hc k rfl
    have hlt := lt_of_held h (List.mem_of_getElem? hq) (.inr hown)
    simp only [hq, Option.bind_some]
    cases left with
    | zero => exact .inl (put_total hlt)
    | succ left => exact .inl (put_total hlt)
  | flusher k left => exact .inr fun r => ⟨_, rfl⟩
  | sole => exact .inr fun r => ⟨_, rfl⟩
  | ended =>
    have hp : s.pending = some c := congrArg _ hc
    have hlt : c < s.cmds.length := by
      by_contra hn
      have hz := h.balanced.beyond c (by rw [h.count]; omega)
      rw [State.shares, if_pos hp] at hz
      omega
    obtain ⟨u, hu⟩ : ∃ u, s.dropped c (s.reqs.returned c 0) = some u := dropped_total hlt
    dsimp only
    rw [hu]
    exact .inl ⟨_, rfl⟩

/-- A submitter can let go of a query whenever it holds one. -/
theorem drop_total (h : Inv s) (hq : s.queries[k]? = some q) (hheld : q.holders ≠ 0) :
    ∃ t, s.step S (.drop k) = some t := by
  have hlt := lt_of_held h (List.mem_of_getElem? hq) (.inl (Nat.pos_of_ne_zero hheld))
  simp only [State.step, State.touch, hq, Option.bind_eq_bind, Option.bind_some, if_neg hheld]
  exact put_total hlt

/-- A submitter holds a query of command `c`. -/
def State.Open (s : State) (c : Nat) : Prop := ∃ q ∈ s.queries, q.cmd = c ∧ q.Held

/-- What is acknowledged of command `c`. -/
structure Acked (s : State) (c : Nat) (cmd : Cmd) : Prop where
  once : s.acks.countP (·.cmd = c) ≤ 1
  id : ∀ a ∈ s.acks, a.cmd = c → a.id = cmd.id
  late : ∀ a ∈ s.acks, a.cmd = c → ¬ s.Open c ∧ s.pending ≠ some c
  done : ¬ s.Open c → s.pending ≠ some c → s.acks.countP (·.cmd = c) = 1

theorem shares_eq_zero : s.shares c = 0 ↔ ¬ s.Open c ∧ s.pending ≠ some c := by
  rw [State.shares, Nat.add_eq_zero_iff, and_comm, List.countP_eq_zero]
  simp [State.Open]

/-- Every acknowledgement is one of a command that was handled, and every command is acknowledged
once, with its own id, as soon as its call has returned and nobody holds a query of it. -/
theorem acked_of_reached (h : Reached S s) : (∀ a ∈ s.acks, a.cmd < s.cmds.length) ∧
    ∀ c cmd, s.cmds[c]? = some cmd → Acked s c cmd := by
  have hinv := inv_of_reached h
  constructor
  · intro a ha
    obtain ⟨cmd, hcmd, -⟩ := hinv.ids a ha
    exact (List.getElem?_eq_some_iff.mp hcmd).1
  · intro c cmd hcmd
    have hlt : c < s.reqs.count := hinv.count ▸ (List.getElem?_eq_some_iff.mp hcmd).1
    have hacks := (hinv.acked c hlt).trans (hinv.balanced.runs c hlt)
    refine ⟨?_, fun a ha hc => ?_, fun a ha hc => ?_, fun ho hp => ?_⟩
    · rw [hacks]
      split <;> omega
    · obtain ⟨x, hx, hid⟩ := hinv.ids a ha
      rw [hc, hcmd] at hx
      cases hx
      exact hid
    · refine shares_eq_zero.mp (by_contra fun hn => ?_)
      rw [if_neg hn] at hacks
      exact List.countP_eq_zero.mp hacks a ha (by simpa using hc)
    · rw [hacks, if_pos (shares_eq_zero.mpr ⟨ho, hp⟩)]

/-- One cell, which is its own successor, and two flushers. -/
def oneCell : Setup where
  cellds := [⟨0, 512, 0⟩]
  cellsSz := 1024
  sum celld := celld.offset + celld.dataSz
  handled _ := true
  flushers := some 2

/-- The first flusher completes the query in its submit, the second one after the call returned. -/
def flushTwice : List Label :=
  [.handle ⟨7, .flush, 0, 0, 0, 0⟩, .advance, .drop 0, .returned 0, .advance, .returned 0, .advance,
    .advance, .setErr 0 5, .drop 0]

theorem acked_of_reached_flushTwice : ∃ s,
    Lts.exec (State.step oneCell) .initial flushTwice = some s ∧
    s.acks = [⟨0, 7, 5⟩] ∧ Acked s 0 ⟨7, .flush, 0, 0, 0, 0⟩ := by
  obtain ⟨s, hs, hacks, hcmds⟩ : ∃ s, Lts.exec (State.step oneCell) .initial flushTwice = some s ∧
      s.acks = [⟨0, 7, 5⟩] ∧ s.cmds = [⟨7, .flush, 0, 0, 0, 0⟩] := ⟨_, rfl, rfl, rfl⟩
  have hreached : Reached oneCell s := Lts.run_of_exec (fun _ _ _ => trivial) hs
  exact ⟨s, hs, hacks, (acked_of_reached hreached).2 0 _ (by rw [hcmds]; rfl)⟩

end Ublk.CmdHandler
