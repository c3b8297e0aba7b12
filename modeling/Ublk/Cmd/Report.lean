import Ublk.Cmd.Ack

/-! What an acknowledgement says of the failures of its command. -/
namespace Ublk.CmdHandler

open Shared

variable {S : Setup} {s t : State} {c d k : Nat} {pc : Pc} {q q' : Query} {l : Label} {cmd : Cmd}
  {ask : Ask} {own : Bool} {reqs : Requests} {f : Query → Query} {r : Int}

/-- The last nonzero error that a query of command `c` completed with, or zero. -/
def State.lastErr (s : State) (c : Nat) : Int :=
  s.closed.foldl (fun e x => if x.1 = c ∧ x.2 ≠ 0 then x.2 else e) 0

/-- A submit for command `c` was rejected, a descriptor of it refused, or a query of it failed. -/
def State.Failed (s : State) (c : Nat) : Prop :=
  (∃ r, r ≠ 0 ∧ (c, r) ∈ s.rets) ∨ c ∈ s.refused ∨ ∃ e, e ≠ 0 ∧ (c, e) ∈ s.closed

/-- Command `c` has a handler. -/
def Served (S : Setup) (s : State) (c : Nat) : Prop :=
  ∃ cmd, s.cmds[c]? = some cmd ∧ S.handled cmd.op = true ∧ ∀ op, cmd.op ≠ .other op

structure Errs (S : Setup) (s : State) : Prop where
  rets : ∀ x ∈ s.rets, Served S s x.1
  refused : ∀ c ∈ s.refused, Served S s c
  closed : ∀ x ∈ s.closed, Served S s x.1
  queries : ∀ q ∈ s.queries, Served S s q.cmd
  call : ∀ call, s.call = some call → call.pc ≠ .ended → Served S s call.cmd
  err : ∀ c, Served S s c → (s.reqs.req c).err = s.lastErr c
  acks : ∀ a ∈ s.acks, a.err = narrow (s.reqs.req a.cmd).err

theorem errs_initial : Errs S State.initial := by
  constructor <;> simp [State.initial, Served]

theorem errs_goto (h : Errs S s) (hc : pc ≠ .ended → Served S s c) : Errs S (s.goto c pc) := by
  refine ⟨h.rets, h.refused, h.closed, h.queries, ?_, h.err, h.acks⟩
  rintro _ ⟨⟩
  exact hc

theorem errs_query (h : Errs S s) (hc : Served S s c) : Errs S (s.query c ask own pc) := by
  refine ⟨h.rets, h.refused, h.closed, fun q hq => ?_, ?_, fun d hd => ?_, fun a ha => ?_⟩
  · obtain hq | hq := List.mem_append.mp hq
    · exact h.queries q hq
    · cases List.mem_singleton.mp hq
      exact hc
  · rintro _ ⟨⟩ -
    exact hc
  · exact (Requests.err_share _ _ _).trans (h.err d hd)
  · exact (h.acks a ha).trans (congrArg narrow (Requests.err_share _ _ _).symm)

/-- A new acknowledgement has the error of its request. -/
theorem acks_dropped (ha : ∀ a ∈ s.acks, a.err = narrow (s.reqs.req a.cmd).err)
    (he : ∀ d, (reqs.req d).err = (s.reqs.req d).err) (h : s.dropped c reqs = some t) :
    ∀ a ∈ t.acks, a.err = narrow (t.reqs.req a.cmd).err := by
  obtain ⟨cmd, -, rfl⟩ := dropped_cases h
  intro a ham
  dsimp only at ham
  refine Eq.trans ?_ (congrArg narrow (he a.cmd).symm)
  split at ham
  · obtain ham | ham := List.mem_append.mp ham
    · exact ha a ham
    · cases List.mem_singleton.mp ham
      rfl
  · exact ha a ham

theorem err_returned {e : Int} : ((reqs.returned c e).req d).err = (reqs.req d).err := by
  rw [Requests.returned, Requests.err_drop]
  by_cases hd : d = c
  · subst hd
    simp
  · simp [hd]

/-- A command with an open query is not acknowledged. -/
theorem ne_of_held (hinv : Inv s) (hq : q ∈ s.queries) (hheld : q.Held) :
    ∀ a ∈ s.acks, a.cmd ≠ q.cmd := by
  intro a ha hne
  obtain ⟨cmd, hcmd, -⟩ := hinv.ids a ha
  have hlt : q.cmd < s.reqs.count := by
    rw [hinv.count, ← hne]
    exact (List.getElem?_eq_some_iff.mp hcmd).1
  have hacks := (hinv.acked _ hlt).trans (hinv.balanced.runs _ hlt)
  rw [if_neg fun hz => (shares_eq_zero.mp hz).1 ⟨q, hq, rfl, hheld⟩] at hacks
  exact List.countP_eq_zero.mp hacks a ha (by simpa using hne)

theorem errs_put (h : Errs S s) (hinv : Inv s) (hs : s.put k q' = some t)
    (hq : s.queries[k]? = some q) (hheld : q.Held) (hcmd : q'.cmd = q.cmd) : Errs S t := by
  have hmem := List.mem_of_getElem? hq
  have hserved : Served S s q'.cmd := hcmd ▸ h.queries q hmem
  have hqs : ∀ x ∈ s.queries.set k q', Served S s x.cmd := fun x hx => by
    obtain hx | rfl := List.mem_or_eq_of_mem_set hx
    · exact h.queries x hx
    · exact hserved
  unfold State.put at hs
  dsimp only at hs
  split at hs
  · cases hs
    exact ⟨h.rets, h.refused, h.closed, hqs, h.call, h.err, h.acks⟩
  · have hold : ∀ a ∈ s.acks,
        a.err = narrow ((s.reqs.setErr q'.cmd q'.err).req a.cmd).err := fun a ha => by
      rw [Requests.err_setErr, if_neg fun hn => ne_of_held hinv hmem hheld a ha (hn.1.trans hcmd)]
      exact h.acks a ha
    have hacks := acks_dropped hold (fun d => Requests.err_drop _ _ _) hs
    obtain ⟨cmd, -, rfl⟩ := dropped_cases hs
    refine ⟨h.rets, h.refused, fun x hx => ?_, hqs, h.call, fun d hd => ?_, hacks⟩
    · obtain hx | hx := List.mem_append.mp hx
      · exact h.closed x hx
      · cases List.mem_singleton.mp hx
        exact hserved
    · refine (Requests.err_drop _ _ _).trans ?_
      have hlast := h.err d hd
      rw [Requests.err_setErr, hlast, State.lastErr, State.lastErr, List.foldl_append]
      simp [eq_comm]

theorem errs_notSupp (h : Errs S s) (hc : ¬ Served S s c) (ha : ∀ a ∈ s.acks, a.cmd ≠ c) :
    Errs S (s.notSupp c) := by
  refine ⟨h.rets, h.refused, h.closed, h.queries, ?_, fun d hd => ?_, fun a ham => ?_⟩
  · rintro _ ⟨⟩ hn
    exact absurd rfl hn
  · refine Eq.trans ?_ (h.err d hd)
    refine (Requests.err_setErr s.reqs c d ENOTSUP).trans (if_neg ?_)
    rintro ⟨rfl, -⟩
    exact hc hd
  · refine (h.acks a ham).trans (congrArg narrow (Eq.symm ?_))
    exact (Requests.err_setErr s.reqs c a.cmd ENOTSUP).trans (if_neg fun hn => ha a ham hn.1)

theorem errs_touch (h : Errs S s) (hinv : Inv s) (hs : s.touch k f = some t)
    (hcmd : ∀ q, (f q).cmd = q.cmd) : Errs S t := by
  obtain ⟨q, hq, hs⟩ := Option.bind_eq_some_iff.mp hs
  split at hs
  · cases hs
  · exact errs_put h hinv hs hq (.inl (by omega)) (hcmd q)

theorem errs_returned (h : Errs S s) (hs : s.returned r = some t) : Errs S t := by
  obtain ⟨⟨c, pc⟩, hc, hs⟩ := Option.bind_eq_some_iff.mp hs
  have hcall := h.call _ hc
  have hrets : pc ≠ .ended → Errs S { s with rets := s.rets ++ [(c, r)] } := fun hpc => by
    refine ⟨fun x hx => ?_, h.refused, h.closed, h.queries, h.call, h.err, h.acks⟩
    obtain hx | hx := List.mem_append.mp hx
    · exact h.rets x hx
    · cases List.mem_singleton.mp hx
      exact hcall hpc
  cases pc with
  | cell offset celldn left =>
    cases hs
    exact errs_goto (hrets nofun) fun _ => hcall nofun
  | flusher k left =>
    cases hs
    exact errs_goto (hrets nofun) fun _ => hcall nofun
  | sole =>
    cases hs
    exact errs_goto (hrets nofun) fun _ => hcall nofun
  | _ => cases hs

theorem errs_advance (h : Errs S s) (hinv : Inv s) (hs : s.advance S = some t) : Errs S t := by
  obtain ⟨⟨c, pc⟩, hc, hs⟩ := Option.bind_eq_some_iff.mp hs
  have hcall := h.call _ hc
  cases pc with
  | cells offset celldn left =>
    have hserved : Served S s c := hcall nofun
    dsimp only at hs
    split at hs
    · split at hs
      · split at hs
        · cases hs
        · cases hs
          exact errs_query h hserved
      · cases hs
        refine errs_goto ?_ fun hn => absurd rfl hn
        refine ⟨h.rets, fun x hx => ?_, h.closed, h.queries, h.call, h.err, h.acks⟩
        obtain hx | hx := List.mem_append.mp hx
        · exact h.refused x hx
        · cases List.mem_singleton.mp hx
          exact hserved
    · cases hs
      exact errs_goto h fun _ => hserved
  | flushers k left =>
    obtain ⟨q, hq, hs⟩ := Option.bind_eq_some_iff.mp hs
    obtain ⟨x, hx, hown⟩ := hinv.keeps _ hc k rfl
    cases hq.symm.trans hx
    have hp : s.pending = some c := congrArg _ hc
    cases left with
    | zero =>
      have h' : Inv (s.goto c .ended) := inv_goto hinv hp fun _ hk => hk.elim
      exact errs_put (errs_goto h fun _ => hcall nofun) h' hs hq (.inr hown) rfl
    | succ left =>
      have h' : Inv (s.goto c (.flusher k left)) := inv_goto hinv hp (hinv.keeps _ hc)
      exact errs_put (errs_goto h fun _ => hcall nofun) h' hs hq (.inr hown) rfl
  | ended =>
    obtain ⟨u, hu, rfl⟩ := Option.map_eq_some_iff.mp hs
    have hacks := acks_dropped h.acks (fun d => err_returned) hu
    obtain ⟨cmd, -, rfl⟩ := dropped_cases hu
    exact ⟨h.rets, h.refused, h.closed, h.queries, nofun, fun d hd => err_returned.trans (h.err d hd),
      hacks⟩
  | _ => cases hs

theorem served_lt (h : Served S s c) : c < s.cmds.length := by
  obtain ⟨cmd, hcmd, -⟩ := h
  exact (List.getElem?_eq_some_iff.mp hcmd).1

theorem lastErr_eq_zero (h : ∀ x ∈ s.closed, x.1 ≠ c) : s.lastErr c = 0 := by
  have hfold : ∀ (xs : List (Nat × Int)) (e : Int), (∀ x ∈ xs, x.1 ≠ c) →
      xs.foldl (fun e x => if x.1 = c ∧ x.2 ≠ 0 then x.2 else e) e = e := by
    intro xs
    induction xs with
    | nil => exact fun _ _ => rfl
    | cons x xs ih =>
      intro e hxs
      rw [List.foldl_cons, if_neg fun hn => hxs x (.head _) hn.1]
      exact ih e fun y hy => hxs y (.tail _ hy)
  exact hfold _ _ h

theorem errs_create (cmd : Cmd) (h : Errs S s) (hinv : Inv s) :
    Errs S (State.goto { s with cmds := s.cmds ++ [cmd], reqs := s.reqs.create }
      s.cmds.length .ended) := by
  let u : State :=
    State.goto { s with cmds := s.cmds ++ [cmd], reqs := s.reqs.create } s.cmds.length .ended
  have hserved : ∀ {d}, Served S s d → Served S u d := fun hd => by
    obtain ⟨x, hx, hrest⟩ := hd
    have hlt := (List.getElem?_eq_some_iff.mp hx).1
    exact ⟨x, (List.getElem?_append_left hlt).trans hx, hrest⟩
  refine ⟨fun x hx => hserved (h.rets x hx), fun x hx => hserved (h.refused x hx),
    fun x hx => hserved (h.closed x hx), fun x hx => hserved (h.queries x hx), ?_, fun d hd => ?_,
    fun a ha => ?_⟩
  · rintro _ ⟨⟩ hn
    exact absurd rfl hn
  · change (s.reqs.create.req d).err = s.lastErr d
    rw [Requests.req_create]
    split
    · rename_i hd
      refine (lastErr_eq_zero fun x hx hn => ?_).symm
      have := served_lt (h.closed x hx)
      have := hinv.count
      omega
    · rename_i hne
      obtain ⟨x, hx, hrest⟩ := hd
      have hlt := (List.getElem?_eq_some_iff.mp hx).1
      have hlt : d < (s.cmds ++ [cmd]).length := hlt
      rw [List.length_append, List.length_singleton] at hlt
      have hold : d < s.cmds.length := by
        have := hinv.count
        omega
      exact h.err d ⟨x, (List.getElem?_append_left hold).symm.trans hx, hrest⟩
  · refine (h.acks a ha).trans ?_
    change _ = narrow (s.reqs.create.req a.cmd).err
    obtain ⟨x, hx, -⟩ := hinv.ids a ha
    have hlt := (List.getElem?_eq_some_iff.mp hx).1
    rw [Requests.req_create, if_neg]
    rw [hinv.count]
    omega

theorem errs_dispatch (h : Errs S s) (hcmd : s.cmds[c]? = some cmd)
    (ha : ∀ a ∈ s.acks, a.cmd ≠ c) : Errs S (s.dispatch S c cmd) := by
  have hserved : S.handled cmd.op = true → (∀ op, cmd.op ≠ .other op) → Served S s c :=
    fun h₁ h₂ => ⟨cmd, hcmd, h₁, h₂⟩
  unfold State.dispatch
  split
  · rename_i h₁ h₂
    exact errs_goto h fun _ => hserved h₁ (by simp [h₂])
  · rename_i h₁ h₂
    exact errs_goto h fun _ => hserved h₁ (by simp [h₂])
  · rename_i h₁ h₂
    exact errs_query h (hserved h₁ (by simp [h₂]))
  · rename_i h₁ h₂
    split
    · exact errs_query h (hserved h₁ (by simp [h₂]))
    · exact errs_query h (hserved h₁ (by simp [h₂]))
  · rename_i hr hw hd hf
    refine errs_notSupp h ?_ ha
    rintro ⟨x, hx, h₁, h₂⟩
    cases hcmd.symm.trans hx
    cases hop : cmd.op with
    | read => exact hr h₁ hop
    | write => exact hw h₁ hop
    | discard => exact hd h₁ hop
    | flush => exact hf h₁ hop
    | other op => exact h₂ op hop

theorem errs_handle (h : Errs S s) (hinv : Inv s) (hs : s.handle S cmd = some t) : Errs S t := by
  obtain ⟨hc, rfl⟩ := handle_cases hs
  have hnew := @errs_dispatch S _ _ cmd (errs_create cmd h hinv)
    List.getElem?_concat_length fun a ha hn => by
      obtain ⟨x, hx, -⟩ := hinv.ids a ha
      have hlt := (List.getElem?_eq_some_iff.mp hx).1
      omega
  rwa [dispatch_goto] at hnew

theorem errs_step (h : Errs S s) (hinv : Inv s) (hs : s.step S l = some t) : Errs S t := by
  cases l with
  | handle cmd => exact errs_handle h hinv hs
  | advance => exact errs_advance h hinv hs
  | returned r => exact errs_returned h hs
  | share k => exact errs_touch h hinv hs fun _ => rfl
  | setErr k e => exact errs_touch h hinv hs fun _ => rfl
  | drop k => exact errs_touch h hinv hs fun _ => rfl

theorem errs_of_reached (h : Reached S s) : Errs S s :=
  (Lts.run_invariant (I := fun s => Inv s ∧ Errs S s) h ⟨inv_initial, errs_initial⟩
    fun _ _ _ hi _ hs => ⟨inv_step hi.1 hs, errs_step hi.2 hi.1 hs⟩).2

theorem served_of_failed (h : Errs S s) (hf : s.Failed c) : Served S s c := by
  obtain ⟨r, -, hr⟩ | hr | ⟨e, -, he⟩ := hf
  · exact h.rets _ hr
  · exact h.refused _ hr
  · exact h.closed _ he

/-- A failure shows in the acknowledgement exactly if queries of the command failed and the last
error among them survives the narrowing. -/
theorem reported_of_reached (h : Reached S s) : ∀ a ∈ s.acks,
    (s.Failed a.cmd → a.err ≠ 0) ↔ (s.Failed a.cmd → ¬ 65536 ∣ s.lastErr a.cmd) := by
  intro a ha
  have herrs := errs_of_reached h
  refine forall_congr' fun hf => ?_
  rw [herrs.acks a ha, herrs.err a.cmd (served_of_failed herrs hf), narrow, Int.dvd_iff_emod_eq_zero]
  have := Int.emod_nonneg (s.lastErr a.cmd) (b := 65536) (by decide)
  omega

/-- A write of one cell whose query fails in the submit. -/
def writeFailed : List Label :=
  [.handle ⟨7, .write, 0, 0, 1, 0⟩, .advance, .setErr 0 5, .drop 0, .returned 5, .advance]

theorem reported_of_reached_writeFailed : ∃ s,
    Lts.exec (State.step oneCell) .initial writeFailed = some s ∧ s.acks = [⟨0, 7, 5⟩] ∧
    s.Failed 0 ∧ ¬ 65536 ∣ s.lastErr 0 := by
  obtain ⟨s, hs, hrets, hacks⟩ : ∃ s,
      Lts.exec (State.step oneCell) .initial writeFailed = some s ∧ s.rets = [(0, 5)] ∧
      s.acks = [⟨0, 7, 5⟩] := ⟨_, rfl, rfl, rfl⟩
  have hreached : Reached oneCell s := Lts.run_of_exec (fun _ _ _ => trivial) hs
  have hfailed : s.Failed 0 := .inl ⟨5, by decide, by simp [hrets]⟩
  exact ⟨s, hs, hacks, hfailed,
    (reported_of_reached hreached ⟨0, 7, 5⟩ (by simp [hacks])).mp (fun _ => by decide) hfailed⟩

/-- The same with a submit that only returns the error, as that of an offline target does. -/
def writeRejected : List Label :=
  [.handle ⟨7, .write, 0, 0, 1, 0⟩, .advance, .drop 0, .returned 5, .advance]

theorem not_reported : ¬ ∀ (S : Setup) (s : State), Reached S s → ∀ a ∈ s.acks, ∀ cmd,
    s.cmds[a.cmd]? = some cmd → cmd.op = .read ∨ cmd.op = .write ∨ cmd.op = .flush →
    s.Failed a.cmd → a.err ≠ 0 := by
  intro h
  obtain ⟨s, hs, hcmds, hrets, hacks⟩ : ∃ s,
      Lts.exec (State.step oneCell) .initial writeRejected = some s ∧
      s.cmds = [⟨7, .write, 0, 0, 1, 0⟩] ∧ s.rets = [(0, 5)] ∧ s.acks = [⟨0, 7, 0⟩] :=
    ⟨_, rfl, rfl, rfl, rfl⟩
  refine h oneCell s (Lts.run_of_exec (fun _ _ _ => trivial) hs) ⟨0, 7, 0⟩ (by simp [hacks]) _
    (by rw [hcmds]; rfl) (.inr (.inl rfl)) (.inl ⟨5, by decide, by simp [hrets]⟩) rfl

end Ublk.CmdHandler
