import Ublk.Cmd.Handler
import Ublk.Span

/-!
`for_each_celld`. The descriptors of a transfer are a chain in a table that the driver shares; each
hands its part of the cells to a callback until one fails. A link out of the table ends the loop as
the last descriptor does.
-/
namespace Ublk.CmdHandler

open Words

def EINVAL : Int := 22

/-- A call of the callback: the offset on the device, the buffer and what it returned. -/
structure CellCall where
  offset : Nat
  buf : Span
  res : Int

/-- The course of a traversal: what it returned, the calls it made, the entries of the table it read
and the callback's state after it. -/
structure Walk (σ : Type) where
  ret : Int
  calls : List CellCall
  entries : List Nat
  state : σ

/-- What is passed to `for_each_celld` beside the counters. -/
structure Transferring (σ : Type) where
  cellds : List Celld
  cells : Span
  f : Nat → Span → σ → Int × σ

namespace Transferring

variable {σ : Type} (P : Transferring σ)

/-- The buffer of a descriptor. -/
def buf (celld : Celld) : Span := ⟨P.cells.addr + celld.offset, celld.dataSz⟩

def Inside (celld : Celld) : Prop := celld.offset + celld.dataSz ≤ P.cells.len

instance (celld : Celld) : Decidable (P.Inside celld) := inferInstanceAs (Decidable (_ ≤ _))

/-- The loop, from `celldn` on with `left` descriptors to go. -/
def loop : Nat → Nat → Nat → σ → Walk σ
  | 0, _, _, s => ⟨0, [], [], s⟩
  | left + 1, celldn, offset, s =>
    match P.cellds[celldn]? with
    | none => ⟨0, [], [], s⟩
    | some celld =>
      if P.Inside celld then
        let r := P.f offset (P.buf celld) s
        if r.1 = 0 then
          let w := loop left celld.ncelld (wrap (offset + celld.dataSz)) r.2
          ⟨w.ret, ⟨offset, P.buf celld, r.1⟩ :: w.calls, celldn :: w.entries, w.state⟩
        else ⟨r.1, [⟨offset, P.buf celld, r.1⟩], [celldn], r.2⟩
      else ⟨EINVAL, [], [celldn], s⟩

def forEachCelld (offset celldn celldsNr : Nat) (s : σ) : Walk σ := P.loop celldsNr celldn offset s

/-- The descriptors `ds` follow each other in the table from index `i` on, and lead to `j`. -/
def Chain : Nat → List Celld → Nat → Prop
  | i, [], j => i = j
  | i, d :: ds, j => P.cellds[i]? = some d ∧ Chain d.ncelld ds j

/-- Descriptors that lie in the cells, and that the callback accepts one after the other. -/
def Accepted : Nat → σ → List Celld → Prop
  | _, _, [] => True
  | offset, s, d :: ds => P.Inside d ∧ (P.f offset (P.buf d) s).1 = 0 ∧
      Accepted (wrap (offset + d.dataSz)) (P.f offset (P.buf d) s).2 ds

/-- The chain does not leave the table before enough descriptors were accepted. -/
def Unbroken (offset celldn celldsNr : Nat) (s : σ) : Prop :=
  ∀ ds j, ds.length < celldsNr → P.Chain celldn ds j → P.Accepted offset s ds → j < P.cellds.length

/-- The offsets of the calls, each behind what the calls before it have handed over. -/
def Advancing : Nat → List CellCall → Prop
  | _, [] => True
  | offset, c :: cs => c.offset = offset ∧ Advancing (wrap (offset + c.buf.len)) cs

/-- What every traversal does. -/
structure Disciplined (offset celldsNr : Nat) (w : Walk σ) : Prop where
  entries : ∀ i ∈ w.entries, i < P.cellds.length
  count : w.calls.length ≤ celldsNr
  inside : ∀ c ∈ w.calls, P.cells.addr ≤ c.buf.addr ∧
    c.buf.addr + c.buf.len ≤ P.cells.addr + P.cells.len
  advancing : Advancing offset w.calls
  /-- A failed call is the last one, and its result is returned. -/
  stops : ∀ cs c cs', w.calls = cs ++ c :: cs' → c.res ≠ 0 → cs' = [] ∧ w.ret = c.res

variable {P} {offset celldn left : Nat} {s : σ} {celld : Celld} {ds : List Celld} {j : Nat}

theorem loop_none (h : P.cellds[celldn]? = none) :
    P.loop left celldn offset s = ⟨0, [], [], s⟩ := by
  cases left with
  | zero => rfl
  | succ left => rw [loop, h]

theorem loop_outside (h : P.cellds[celldn]? = some celld) (hin : ¬ P.Inside celld) :
    P.loop (left + 1) celldn offset s = ⟨EINVAL, [], [celldn], s⟩ := by
  rw [loop, h]
  exact if_neg hin

theorem loop_failed (h : P.cellds[celldn]? = some celld) (hin : P.Inside celld)
    (hf : (P.f offset (P.buf celld) s).1 ≠ 0) : P.loop (left + 1) celldn offset s =
      ⟨(P.f offset (P.buf celld) s).1, [⟨offset, P.buf celld, (P.f offset (P.buf celld) s).1⟩],
        [celldn], (P.f offset (P.buf celld) s).2⟩ := by
  rw [loop, h]
  exact (if_pos hin).trans (if_neg hf)

theorem loop_handed (h : P.cellds[celldn]? = some celld) (hin : P.Inside celld)
    (hf : (P.f offset (P.buf celld) s).1 = 0) : P.loop (left + 1) celldn offset s =
      let w := P.loop left celld.ncelld (wrap (offset + celld.dataSz))
        (P.f offset (P.buf celld) s).2
      ⟨w.ret, ⟨offset, P.buf celld, 0⟩ :: w.calls, celldn :: w.entries, w.state⟩ := by
  rw [loop, h]
  exact (if_pos hin).trans ((if_pos hf).trans (by rw [hf]))

theorem disciplined_nil {ret : Int} {es : List Nat} (he : ∀ i ∈ es, i < P.cellds.length) :
    P.Disciplined offset left ⟨ret, [], es, s⟩ :=
  ⟨he, Nat.zero_le _, by simp, trivial, by simp⟩

theorem inside_buf (hin : P.Inside celld) : P.cells.addr ≤ (P.buf celld).addr ∧
    (P.buf celld).addr + (P.buf celld).len ≤ P.cells.addr + P.cells.len := by
  simp only [Inside, buf] at *
  omega

theorem disciplined_loop : P.Disciplined offset left (P.loop left celldn offset s) := by
  induction left generalizing celldn offset s with
  | zero => exact disciplined_nil (by simp)
  | succ left ih =>
    cases h : P.cellds[celldn]? with
    | none =>
      rw [loop_none h]
      exact disciplined_nil (by simp)
    | some celld =>
      have hlt : celldn < P.cellds.length := (List.getElem?_eq_some_iff.mp h).1
      by_cases hin : P.Inside celld
      · by_cases hf : (P.f offset (P.buf celld) s).1 = 0
        · have hrest := @ih (wrap (offset + celld.dataSz)) celld.ncelld
            (P.f offset (P.buf celld) s).2
          rw [loop_handed h hin hf]
          refine ⟨?_, Nat.succ_le_succ hrest.count, ?_, ⟨rfl, hrest.advancing⟩, ?_⟩
          · intro i hi
            rcases List.mem_cons.mp hi with rfl | hi
            · exact hlt
            · exact hrest.entries i hi
          · intro c hc
            rcases List.mem_cons.mp hc with rfl | hc
            · exact inside_buf hin
            · exact hrest.inside c hc
          · intro cs c cs' he hne
            rcases cs with _ | ⟨b, cs⟩
            · cases he
              exact absurd rfl hne
            · exact hrest.stops cs c cs' (List.cons.inj he).2 hne
        · rw [loop_failed h hin hf]
          refine ⟨by simpa using hlt, by simp, by simpa using inside_buf hin, ⟨rfl, trivial⟩, ?_⟩
          intro cs c cs' he _
          rcases cs with _ | ⟨b, cs⟩
          · cases he
            exact ⟨rfl, rfl⟩
          · simp at he
      · rw [loop_outside h hin]
        exact disciplined_nil (by simpa using hlt)

/-- A traversal along descriptors that are accepted goes on behind them. -/
theorem loop_accepted (hlen : ds.length ≤ left) (hc : P.Chain celldn ds j)
    (ha : P.Accepted offset s ds) : ∃ offset' s', (P.loop left celldn offset s).ret =
      (P.loop (left - ds.length) j offset' s').ret ∧ (P.loop left celldn offset s).calls.length =
      ds.length + (P.loop (left - ds.length) j offset' s').calls.length := by
  induction ds generalizing left celldn offset s with
  | nil =>
    cases hc
    exact ⟨offset, s, rfl, (Nat.zero_add _).symm⟩
  | cons d ds ih =>
    obtain ⟨hd, hc⟩ := hc
    obtain ⟨hin, hf, ha⟩ := ha
    rcases left with _ | left
    · simp at hlen
    · obtain ⟨offset', s', hret, hcalls⟩ := ih (Nat.le_of_succ_le_succ hlen) hc ha
      rw [loop_handed hd hin hf]
      refine ⟨offset', s', ?_, ?_⟩
      · rw [List.length_cons, Nat.add_sub_add_right]
        exact hret
      · simp only [List.length_cons, Nat.add_sub_add_right]
        omega

/-- Without enough calls, a traversal that returns 0 has run into a link out of the table. -/
theorem broken_of_short (hret : (P.loop left celldn offset s).ret = 0)
    (hshort : (P.loop left celldn offset s).calls.length ≠ left) :
    ∃ ds j, ds.length < left ∧ P.Chain celldn ds j ∧ P.Accepted offset s ds ∧
      P.cellds.length ≤ j := by
  induction left generalizing celldn offset s with
  | zero => exact absurd rfl hshort
  | succ left ih =>
    cases h : P.cellds[celldn]? with
    | none => exact ⟨[], celldn, by simp, rfl, trivial, List.getElem?_eq_none_iff.mp h⟩
    | some celld =>
      by_cases hin : P.Inside celld
      · by_cases hf : (P.f offset (P.buf celld) s).1 = 0
        · rw [loop_handed h hin hf] at hret hshort
          obtain ⟨ds, j, hlen, hc, ha, hj⟩ := ih hret fun he => hshort (congrArg Nat.succ he)
          exact ⟨celld :: ds, j, Nat.succ_lt_succ hlen, ⟨h, hc⟩, ⟨hin, hf, ha⟩, hj⟩
        · rw [loop_failed h hin hf] at hret
          exact absurd hret hf
      · rw [loop_outside h hin] at hret
        cases hret

theorem complete_iff : ((P.forEachCelld offset celldn left s).ret = 0 →
    (P.forEachCelld offset celldn left s).calls.length = left) ↔
      P.Unbroken offset celldn left s := by
  constructor
  · intro h ds j hlen hc ha
    by_contra hn
    obtain ⟨offset', s', hret, hcalls⟩ := loop_accepted (Nat.le_of_lt hlen) hc ha
    rw [loop_none (List.getElem?_eq_none_iff.mpr (Nat.le_of_not_lt hn))] at hret hcalls
    have hall := h hret
    rw [forEachCelld, hcalls] at hall
    simp only [List.length_nil] at hall
    omega
  · intro h hret
    by_contra hn
    obtain ⟨ds, j, hlen, hc, ha, hj⟩ := broken_of_short hret hn
    have := h ds j hlen hc ha
    omega

/-- A traversal keeps its rules, and returns 0 for no fewer descriptors than it was to hand over
exactly if the chain does not leave the table too early. -/
theorem transferred_iff : (P.Disciplined offset left (P.forEachCelld offset celldn left s) ∧
    ((P.forEachCelld offset celldn left s).ret = 0 →
      (P.forEachCelld offset celldn left s).calls.length = left)) ↔
      P.Unbroken offset celldn left s :=
  ⟨fun h => complete_iff.mp h.2, fun h => ⟨disciplined_loop, complete_iff.mpr h⟩⟩

section Commands

variable {S : Setup} {st : State} {c : Nat}

/-- The traversal that a command's handler makes, with submits that succeed. -/
def ofSetup (S : Setup) : Transferring Unit := ⟨S.cellds, ⟨0, S.cellsSz⟩, fun _ _ s => (0, s)⟩

/-- The call of a command leaves its loop where the traversal makes no call any more. -/
theorem advance_ended_iff (hsum : ∀ d, S.sum d = d.offset + d.dataSz)
    (hsz : ∀ d ∈ S.cellds, d.dataSz ≠ 0) (hpc : st.call = some ⟨c, .cells offset celldn left⟩) :
    (∃ t, st.advance S = some t ∧ t.call = some ⟨c, .ended⟩) ↔
      ((ofSetup S).loop left celldn offset ()).calls = [] := by
  simp only [State.advance, hpc, Option.bind_eq_bind, Option.bind_some]
  rcases left with _ | left
  · simp [loop, State.goto]
  · cases h : S.cellds[celldn]? with
    | none => simp [loop_none (P := ofSetup S) h, State.goto]
    | some d =>
      by_cases hin : (ofSetup S).Inside d
      · have hle : S.sum d ≤ S.cellsSz := by
          rw [hsum]
          exact hin
        rw [loop_handed (P := ofSetup S) h hin rfl]
        simp [hle, hsz d (List.mem_of_getElem? h), State.query]
      · have hnle : ¬ S.sum d ≤ S.cellsSz := by
          rw [hsum]
          exact hin
        rw [loop_outside (P := ofSetup S) h hin]
        simp [hnle, State.goto]

end Commands

/-- One descriptor whose link leaves the table, and two to hand over. -/
def dangling : Transferring Unit := ⟨[⟨0, 512, 7⟩], ⟨4096, 1024⟩, fun _ _ s => (0, s)⟩

theorem not_transferred : (dangling.forEachCelld 0 0 2 ()).ret = 0 ∧
    (dangling.forEachCelld 0 0 2 ()).calls.length = 1 := by decide

end Transferring

end Ublk.CmdHandler
