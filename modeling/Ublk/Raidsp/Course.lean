import Ublk.Lib.SerialJobs
import Ublk.Raidsp.Accounting

/-!
The course of a sub-write by itself: which of its queries have been submitted, which errors it
has collected, what `process` returned for it. No assumption on the handlers or the locks.
-/
namespace Ublk.Raidsp

open Shared Serial Acceptor

variable {G : Geometry} {E : Env} {w w' : SubWrite} {x x' : Inner} {r : Role} {q : Query} {e : Int}
  {parity : Nat → Byte} {act : Act}

namespace SubWrite

/-- The write has been submitted for. -/
def Wrote (w : SubWrite) : Prop := (w.query .wqd).write = true

/-- A handler rejected a strip or the parity. -/
def StripRejected (w : SubWrite) : Prop := (w.query .wqd).rej ≠ 0 ∨ (w.query .wqp).rej ≠ 0

/-- A strip or the parity completed with an error, and the completers have seen it: on the
coherent path each query by itself, on the incoherent one both together. -/
def StripFailed (w : SubWrite) : Prop :=
  if w.coherent then ∃ r, r.Strip ∧ w.Idle r ∧ (w.query r).bad = true
  else (w.Idle .wqd ∧ w.Idle .wqp) ∧ ∃ r, r.Strip ∧ (w.query r).bad = true

end SubWrite

/-- Where a sub-write stands. -/
inductive Course (G : Geometry) (w : SubWrite) : Prop
  | data (hpart : w.size < G.stripeDataSz) (hbusy : ¬ w.Idle .rqd)
      (hread : (w.query .rqd).write = false) (hrest : ∀ r, r ≠ .rqd → (w.query r).Untouched)
      (herr : w.err = 0)
  | parity (hpart : w.size < G.stripeDataSz) (hc : w.coherent = true) (hdata : w.Idle .rqd)
      (hbad : (w.query .rqd).bad = false) (hbusy : ¬ w.Idle .rpq) (hrej : (w.query .rpq).rej = 0)
      (hread : (w.query .rpq).write = false) (hrest : ∀ r, r.Strip → (w.query r).Untouched)
      (herr : w.err = 0)
  | failed (hpart : w.size < G.stripeDataSz) (hidle : w.Idle .rqd ∧ w.Idle .rpq)
      (hbad : (w.query .rqd).bad = true ∨ (w.query .rpq).bad = true)
      (hrest : ∀ r, r.Strip → (w.query r).Untouched) (herr : w.err ≠ 0)
  | write (hidle : w.Idle .rqd ∧ w.Idle .rpq)
      (hbad : (w.query .rqd).bad = false ∧ (w.query .rpq).bad = false)
      (hw : ∀ r, r.Strip → (w.query r).write = true)
      (hfull : ¬ w.size < G.stripeDataSz → (w.query .rpq).rej = 0)
      (herr : w.err ≠ 0 ↔ (w.query .rpq).rej ≠ 0 ∨ w.StripFailed ∨
        w.coherent = false ∧ w.size < G.stripeDataSz ∧ w.StripRejected)

/-- A sub-write as it is made. -/
structure New (w : SubWrite) : Prop where
  untouched : ∀ r, (w.query r).Untouched
  err : w.err = 0
  res : w.res = 0

/-- A sub-write that was started. -/
structure Started (G : Geometry) (w : SubWrite) : Prop where
  honest : ∀ r, (w.query r).Honest
  course : Course G w
  res : w.res ≠ 0 ↔
    if w.size < G.stripeDataSz then (w.query .rqd).rej ≠ 0 else w.StripRejected

theorem Role.not_strip : ¬ r.Strip ↔ r = .rqd ∨ r = .rpq := by
  cases r <;> simp [Role.Strip]

section Untouched

variable (h : (w.query r).Untouched)

include h

theorem idle_of_untouched : w.Idle r := by rw [SubWrite.Idle, h]; rfl
theorem bad_of_untouched : (w.query r).bad = false := by rw [h]; rfl
theorem rej_of_untouched : (w.query r).rej = 0 := by rw [h]; rfl
theorem write_of_untouched : (w.query r).write = false := by rw [h]; rfl
theorem honest_of_untouched : (w.query r).Honest := by rw [h]; exact Query.honest_read _

end Untouched

/-- `w'` is `w` with its write submitted; `ret` is what the submits returned. -/
structure Submitted (w w' : SubWrite) (ret : Int) : Prop where
  reads : ∀ r, ¬ r.Strip → w'.query r = w.query r
  write : ∀ r, r.Strip → (w'.query r).write = true
  honest : ∀ r, r.Strip → (w'.query r).Honest
  coherent : w'.coherent = w.coherent
  size : w'.size = w.size
  err : w'.err ≠ 0 ↔ w.err ≠ 0 ∨ w'.StripFailed
  ret : ret ≠ 0 ↔ w'.StripRejected

theorem size_of_request (h : w'.request = w.request) : w'.size = w.size :=
  congrArg Slice.size (slice_of_request h)

theorem err_setErr : (w.setErr e).err ≠ 0 ↔ w.err ≠ 0 ∨ e ≠ 0 := by
  unfold SubWrite.setErr
  split <;> simp_all

theorem reads_backendWrite (hr : ¬ r.Strip) :
    (backendWrite G E w parity x).2.1.query r = w.query r := by
  obtain rfl | rfl := Role.not_strip.mp hr <;> simp [backendWrite]

theorem strip_backendWrite (hr : r.Strip) :
    ((backendWrite G E w parity x).2.1.query r).write = true ∧
      ((backendWrite G E w parity x).2.1.query r).Honest := by
  obtain rfl | rfl := hr
  · simp only [backendWrite, SubWrite.query_set_of_ne, SubWrite.query_set_self, ne_eq, reduceCtorEq,
      not_false_eq_true]
    exact ⟨by simp [Query.writing], Query.honest_submitAll (Query.honest_writing _)⟩
  · simp only [backendWrite, SubWrite.query_set_self]
    split
    · exact ⟨by simp [Query.writing], Query.honest_submitAll (Query.honest_writing _)⟩
    · exact ⟨rfl, Query.honest_writing _⟩

theorem ret_backendWrite :
    (backendWrite G E w parity x).1 ≠ 0 ↔ (backendWrite G E w parity x).2.1.StripRejected := by
  have hd := @Query.rej_submitAll E (Query.writing w.src) (G.dataWrite w.stripe w.off w.size)
    x.disk rfl
  unfold SubWrite.StripRejected backendWrite
  simp only [SubWrite.query_set_of_ne, SubWrite.query_set_self, ne_eq, reduceCtorEq,
    not_false_eq_true, hd]
  split
  · rename_i h₀
    rw [Query.rej_submitAll rfl]
    simp [h₀]
  · rename_i h₀
    simp [h₀]

theorem err_whenIdle {s : SubWrite × Inner} (hc : s.1.coherent = true) (hq : (s.1.query r).Honest) :
    (whenIdle r (writeDone G r) s).1.err ≠ 0 ↔
      s.1.err ≠ 0 ∨ (s.1.Idle r ∧ (s.1.query r).bad = true) := by
  unfold whenIdle writeDone
  rw [if_pos hc]
  unfold Query.Honest at hq
  split
  · split
    · simp_all
    · rw [err_setErr]
      simp_all
  · simp_all

theorem err_guard (r r' : Role) (hr : r.Strip) (hr' : r'.Strip) (hne : r ≠ r')
    (hq : ∀ r, r.Strip → (w.query r).Honest) : (combinedCompleterGuard r r' w x).1.err ≠ 0 ↔
      w.err ≠ 0 ∨ ∃ r, r.Strip ∧ (w.query r).bad = true := by
  have h := hq r hr
  have h' := hq r' hr'
  unfold Query.Honest at h h'
  rw [combinedCompleterGuard, err_setErr, err_setErr, or_assoc]
  refine or_congr_right ?_
  rw [ne_eq, h, ne_eq, h', Bool.not_eq_false, Bool.not_eq_false]
  constructor
  · rintro (hb | hb)
    · exact ⟨r, hr, hb⟩
    · exact ⟨r', hr', hb⟩
  · rintro ⟨r'', hr'', hb⟩
    have : r'' = r ∨ r'' = r' := by
      obtain rfl | rfl := hr <;> obtain rfl | rfl := hr' <;> obtain rfl | rfl := hr'' <;> simp_all
    obtain rfl | rfl := this
    · exact .inl hb
    · exact .inr hb

theorem submitted_backendWrite {s : SubWrite × Inner}
    (hs : Stays G w x s) (hq : s.1.query = (backendWrite G E w parity x).2.1.query)
    (hcoh : s.1.coherent = w.coherent)
    (herr : s.1.err ≠ 0 ↔ w.err ≠ 0 ∨ s.1.StripFailed) :
    Submitted w s.1 (backendWrite G E w parity x).1 where
  reads r hr := by rw [hq]; exact reads_backendWrite hr
  write r hr := by rw [hq]; exact (strip_backendWrite hr).1
  honest r hr := by rw [hq]; exact (strip_backendWrite hr).2
  coherent := hcoh
  size := size_of_request hs.request
  err := herr
  ret := by
    rw [ret_backendWrite, SubWrite.StripRejected, SubWrite.StripRejected, hq]

theorem submitted_coherent (hc : w.coherent = true) :
    Submitted w (stripeCoherentParityWrite G E w parity x).2.1
      (stripeCoherentParityWrite G E w parity x).1 := by
  have hhon : ∀ r, r.Strip → ((backendWrite G E w parity x).2.1.query r).Honest := fun r hr =>
    (strip_backendWrite hr).2
  have hcs : (backendWrite G E w parity x).2.1.coherent = true := hc
  have hstays : Stays G w x (stripeCoherentParityWrite G E w parity x).2 :=
    stays_stripeCoherentParityWrite
  have hes : (backendWrite G E w parity x).2.1.err = w.err := rfl
  refine @submitted_backendWrite _ E _ _ parity _ hstays ?_ ?_ ?_
  all_goals
    unfold stripeCoherentParityWrite
    dsimp only
    clear hstays
    generalize (backendWrite G E w parity x).2 = s at *
    obtain ⟨hq₁, -, hc₁⟩ := query_whenIdle (G := G) (r := .wqd) (s := s)
    obtain ⟨hq₂, -, hc₂⟩ :=
      query_whenIdle (G := G) (r := .wqp) (s := whenIdle .wqd (writeDone G .wqd) s)
  · rw [hq₂, hq₁]
  · rw [hc₂, hc₁, hcs, hc]
  · have h₁ := err_whenIdle (G := G) hcs (hhon .wqd (.inl rfl))
    have h₂ := err_whenIdle (G := G) (r := .wqp) (hc₁.trans hcs)
      (by rw [hq₁]; exact hhon .wqp (.inr rfl))
    rw [h₂, h₁, hes, SubWrite.StripFailed, hc₂, hc₁, hcs]
    simp only [if_true, SubWrite.Idle, hq₂, hq₁, Role.Strip, or_and_right, exists_or,
      exists_eq_left, or_assoc]

theorem submitted_incoherent (hc : w.coherent = false) :
    Submitted w (stripeIncoherentParityWrite G E w parity x).2.1
      (stripeIncoherentParityWrite G E w parity x).1 := by
  have hhon : ∀ r, r.Strip → ((backendWrite G E w parity x).2.1.query r).Honest := fun r hr =>
    (strip_backendWrite hr).2
  have hcs : (backendWrite G E w parity x).2.1.coherent = false := hc
  have hstays : Stays G w x (stripeIncoherentParityWrite G E w parity x).2 :=
    stays_stripeIncoherentParityWrite
  have hes : (backendWrite G E w parity x).2.1.err = w.err := rfl
  obtain ⟨r, r', hr, hr', hne, he⟩ := stripeIncoherentParityWrite_eq G E w parity x
  rw [he] at hstays ⊢
  refine @submitted_backendWrite _ E _ _ parity _ hstays ?_ ?_ ?_
  all_goals
    dsimp only
    clear hstays
    generalize (backendWrite G E w parity x).2 = s at *
    split
  · simp [combinedCompleterGuard]
  · rfl
  · simp [combinedCompleterGuard, hcs, hc]
  · exact hcs.trans hc.symm
  · rename_i hi
    rw [err_guard _ _ hr hr' hne hhon, hes, SubWrite.StripFailed]
    simp [combinedCompleterGuard, hcs, hi]
  · rename_i hi
    rw [hes, SubWrite.StripFailed, hcs, if_neg (by simp)]
    simp [hi]

variable {ret : Int}

/-- The write of a sub-write has been submitted; its error may still be set to `e`. -/
theorem course_submitted (h : Submitted w w' ret) (hidle : w.Idle .rqd ∧ w.Idle .rpq)
    (hbad : (w.query .rqd).bad = false ∧ (w.query .rpq).bad = false) (herr : w.err = 0)
    (hfull : ¬ w.size < G.stripeDataSz → (w.query .rpq).rej = 0)
    (he : e ≠ 0 ↔ (w.query .rpq).rej ≠ 0 ∨
      w.coherent = false ∧ w.size < G.stripeDataSz ∧ w'.StripRejected) :
    Course G (w'.setErr e) := by
  have hd := h.reads .rqd (by simp [Role.Strip])
  have hp := h.reads .rpq (by simp [Role.Strip])
  apply Course.write <;>
    simp only [SubWrite.idle_setErr, SubWrite.query_setErr, SubWrite.toSlice_setErr,
      SubWrite.coherent_setErr, hd, hp, h.size, h.coherent]
  · simpa only [SubWrite.Idle, hd, hp] using hidle
  · exact hbad
  · exact h.write
  · exact hfull
  · rw [err_setErr, h.err, he]
    simp only [SubWrite.StripFailed, SubWrite.StripRejected, SubWrite.idle_setErr,
      SubWrite.query_setErr, SubWrite.coherent_setErr, herr, ne_eq, not_true_eq_false, false_or]
    exact or_left_comm

theorem honest_submitted (h : Submitted w w' ret) (hw : ∀ r, (w.query r).Honest) (r : Role) :
    (w'.query r).Honest := by
  by_cases hr : r.Strip
  · exact h.honest r hr
  · rw [h.reads r hr]; exact hw r

theorem course_res (h : Course G w) : Course G { w with res := ret } := by
  cases h with
  | data hpart hbusy hread hrest herr => exact .data hpart hbusy hread hrest herr
  | parity hpart hc hdata hbad hbusy hrej hread hrest herr =>
    exact .parity hpart hc hdata hbad hbusy hrej hread hrest herr
  | failed hpart hidle hbad hrest herr => exact .failed hpart hidle hbad hrest herr
  | write hidle hbad hw hfull herr => exact .write hidle hbad hw hfull herr

/-- What `rqdDone` and `rpqDone` lead to, with the read's queries as they were. -/
structure Goes (G : Geometry) (w w' : SubWrite) : Prop where
  honest : ∀ r, (w'.query r).Honest
  course : Course G w'
  rqd : w'.query .rqd = w.query .rqd
  size : w'.size = w.size

theorem goes_submitted (h : Submitted w w' ret) (hw : ∀ r, (w.query r).Honest)
    (hc : Course G (w'.setErr e)) : Goes G w (w'.setErr e) :=
  ⟨by simpa using honest_submitted h hw, hc, by simpa using h.reads .rqd (by simp [Role.Strip]),
    by simpa using h.size⟩

theorem goes_rpqDone (hpart : w.size < G.stripeDataSz) (hc : w.coherent = true)
    (hidle : w.Idle .rqd ∧ w.Idle .rpq) (hbad : (w.query .rqd).bad = false)
    (hrest : ∀ r, r.Strip → (w.query r).Untouched) (herr : w.err = 0)
    (hhon : ∀ r, (w.query r).Honest) (he : e ≠ 0 ↔ (w.query .rpq).rej ≠ 0) :
    Goes G w ((rpqDone G E w x).1.setErr e) := by
  have hq := hhon .rpq
  unfold Query.Honest at hq
  unfold rpqDone
  dsimp only
  split
  · rename_i h₀
    have hs := @submitted_coherent G E _ x (parityTo
      (xorTo w.src (w.query .rqd).buf 0 w.size) w.size (w.query .rpq).buf G.stripSz
      (w.off % G.stripSz)) hc
    refine goes_submitted hs hhon (course_submitted hs hidle ⟨hbad, hq.mp h₀⟩ herr
      (fun h => absurd hpart h) ?_)
    rw [he, hc]
    simp
  · rename_i h₀
    refine ⟨by simpa using hhon, ?_, by simp, by simp⟩
    refine .failed ?_ ?_ (.inr ?_) ?_ ?_
    · simpa using hpart
    · simpa using hidle
    · simpa [hq] using h₀
    · simpa using hrest
    · rw [err_setErr, err_setErr]
      exact .inl (.inr h₀)

/-- The read `r` of a sub-write has been submitted. -/
structure Asked (r : Role) (w : SubWrite) (s : Int × SubWrite × Inner) : Prop where
  ret : s.1 = (s.2.1.query r).rej
  write : (s.2.1.query r).write = false
  honest : (s.2.1.query r).Honest
  others : ∀ r', r' ≠ r → s.2.1.query r' = w.query r'
  coherent : s.2.1.coherent = w.coherent
  size : s.2.1.size = w.size
  err : s.2.1.err = w.err

theorem asked_submitRead {buf : Nat → Byte} {ss : List Sub} :
    Asked r w (submitRead E r buf ss w x) := by
  refine ⟨?_, ?_, ?_, fun r' hr => SubWrite.query_set_of_ne hr, rfl, rfl, rfl⟩
  · simp only [submitRead, SubWrite.query_set_self]
    exact (Query.rej_submitAll rfl).symm
  · simp [submitRead, Query.read]
  · simp only [submitRead, SubWrite.query_set_self]
    exact Query.honest_submitAll (Query.honest_read _)

theorem ops_submit_of_rejected {s : Sub} {d : Disk} (h : (q.submit E s d).1 ≠ 0) :
    (q.submit E s d).2.1.ops = q.ops := by
  unfold Query.submit at *
  split <;> simp_all

/-- The parity is one subquery: rejected, it has nothing in flight. -/
theorem rej_of_parityRead {buf : Nat → Byte} {k : Nat} (h : ¬ (submitRead E .rpq buf
    (G.parityRead k G.stripSz) w x).2.1.Idle .rpq) :
    ((submitRead E .rpq buf (G.parityRead k G.stripSz) w x).2.1.query .rpq).rej = 0 := by
  by_contra hn
  rw [← asked_submitRead.ret] at hn
  simp only [submitRead, Geometry.parityRead, Query.submitAll, SubWrite.idle_set_self] at h hn
  split at hn
  · exact hn rfl
  · rename_i h₀
    rw [if_neg h₀, ops_submit_of_rejected h₀] at h
    exact h rfl

/-- The sub-write after its first read has ended. -/
theorem goes_rqdDone (hpart : w.size < G.stripeDataSz) (hidle : w.Idle .rqd)
    (hrest : ∀ r, r ≠ .rqd → (w.query r).Untouched) (herr : w.err = 0)
    (hhon : (w.query .rqd).Honest) : Goes G w (rqdDone G E w x).1 := by
  have hall : ∀ r, (w.query r).Honest := fun r => by
    by_cases hr : r = .rqd
    · exact hr ▸ hhon
    · exact honest_of_untouched (hrest r hr)
  have hne : ∀ {r : Role}, r.Strip → r ≠ .rqd ∧ r ≠ .rpq := by
    rintro r (rfl | rfl) <;> simp
  have hstrips : ∀ r, r.Strip → (w.query r).Untouched := fun r hr => hrest r (hne hr).1
  have hrpq := hrest .rpq (by simp)
  have hq := hhon
  unfold Query.Honest at hq
  unfold rqdDone
  dsimp only
  split
  · rename_i h₀
    split
    · rename_i hc
      have ha := @asked_submitRead E w x .rpq (fun j => E.junk w.id (G.stripeDataSz + j))
        (G.parityRead w.stripe G.stripSz)
      have hrej := @rej_of_parityRead G E w x (fun j => E.junk w.id (G.stripeDataSz + j)) w.stripe
      generalize submitRead E .rpq (fun j => E.junk w.id (G.stripeDataSz + j))
        (G.parityRead w.stripe G.stripSz) w x = s at *
      have hd : s.2.1.query .rqd = w.query .rqd := ha.others _ (by simp)
      have hidle' : s.2.1.Idle .rqd := by rw [SubWrite.Idle, hd]; exact hidle
      have hbad' : (s.2.1.query .rqd).bad = false := by rw [hd]; exact hq.mp h₀
      have hrest' : ∀ r, r.Strip → (s.2.1.query r).Untouched := fun r hr => by
        rw [ha.others r (hne hr).2]; exact hstrips r hr
      have hhon' : ∀ r, (s.2.1.query r).Honest := fun r => by
        by_cases hr : r = .rpq
        · exact hr ▸ ha.honest
        · rw [ha.others r hr]; exact hall r
      unfold whenIdle
      split
      · rename_i hi
        have hg := goes_rpqDone (E := E) (x := s.2.2) (e := s.1) (ha.size.trans_lt hpart)
          (ha.coherent.trans hc) ⟨hidle', hi⟩ hbad' hrest' (ha.err.trans herr) hhon' (by rw [ha.ret])
        exact ⟨hg.honest, hg.course, hg.rqd.trans hd, hg.size.trans ha.size⟩
      · rename_i hi
        have hrej' := hrej hi
        have hret : s.1 = 0 := ha.ret.trans hrej'
        rw [hret, SubWrite.setErr, if_pos rfl]
        exact ⟨hhon', .parity (ha.size.trans_lt hpart) (ha.coherent.trans hc) hidle' hbad' hi hrej'
          ha.write hrest' (ha.err.trans herr), hd, ha.size⟩
    · rename_i hc
      have hc : w.coherent = false := by simpa using hc
      have hs := @submitted_incoherent G E _ x (parityRenew
        (overlay (w.query .rqd).buf w.off w.size w.src) G.stripeDataSz G.stripSz) hc
      refine goes_submitted hs hall (course_submitted hs ⟨hidle, idle_of_untouched hrpq⟩
        ⟨hq.mp h₀, bad_of_untouched hrpq⟩ herr (fun h => absurd hpart h) ?_)
      rw [hs.ret, rej_of_untouched hrpq, hc]
      simp [hpart]
  · rename_i h₀
    refine ⟨by simpa using hall, .failed ?_ ?_ (.inl ?_) ?_ ?_, by simp, by simp⟩
    · simpa using hpart
    · simpa using And.intro hidle (idle_of_untouched hrpq)
    · simpa [hq] using h₀
    · simpa using hstrips
    · rw [err_setErr]; exact .inr h₀

theorem goes_refl (hhon : ∀ r, (w.query r).Honest) (hc : Course G w) : Goes G w w :=
  ⟨hhon, hc, rfl, rfl⟩

/-- The first read was submitted, or one of its subqueries has ended. -/
theorem goes_rqd {s : SubWrite × Inner} (hpart : s.1.size < G.stripeDataSz)
    (hrest : ∀ r, r ≠ .rqd → (s.1.query r).Untouched) (herr : s.1.err = 0)
    (hread : (s.1.query .rqd).write = false) (hhon : (s.1.query .rqd).Honest) :
    Goes G s.1 (whenIdle .rqd (rqdDone G E) s).1 := by
  unfold whenIdle
  split
  · exact goes_rqdDone hpart ‹_› hrest herr hhon
  · refine goes_refl (fun r => ?_) (.data hpart ‹_› hread hrest herr)
    by_cases hr : r = .rqd
    · exact hr ▸ hhon
    · exact honest_of_untouched (hrest r hr)

/-- The old parity is being read, or has been. -/
theorem goes_rpq {s : SubWrite × Inner} (hpart : s.1.size < G.stripeDataSz)
    (hc : s.1.coherent = true) (hdata : s.1.Idle .rqd) (hbad : (s.1.query .rqd).bad = false)
    (hrej : (s.1.query .rpq).rej = 0) (hread : (s.1.query .rpq).write = false)
    (hrest : ∀ r, r.Strip → (s.1.query r).Untouched) (herr : s.1.err = 0)
    (hhon : ∀ r, (s.1.query r).Honest) : Goes G s.1 (whenIdle .rpq (rpqDone G E) s).1 := by
  unfold whenIdle
  split
  · have := goes_rpqDone (E := E) (x := s.2) (e := 0) hpart hc ⟨hdata, ‹_›⟩ hbad hrest herr hhon
      (by rw [hrej])
    rwa [SubWrite.setErr, if_pos rfl] at this
  · exact goes_refl hhon (.parity hpart hc hdata hbad ‹_› hrej hread hrest herr)

theorem started_process (hw : New w) : Started G (process G E w x).2.1 := by
  unfold process
  dsimp only
  split
  · rename_i hpart
    unfold stripePartWrite
    dsimp only
    have ha := @asked_submitRead E { w with coherent := x.coh w.stripe } x .rqd
      (fun p => E.junk w.id ((if x.coh w.stripe then w.off else 0) + p))
      (G.dataRead w.stripe (if x.coh w.stripe then w.off else 0)
        (if x.coh w.stripe then w.size else G.stripeDataSz))
    generalize submitRead E .rqd (fun p => E.junk w.id ((if x.coh w.stripe then w.off else 0) + p))
      (G.dataRead w.stripe (if x.coh w.stripe then w.off else 0)
        (if x.coh w.stripe then w.size else G.stripeDataSz))
      { w with coherent := x.coh w.stripe } x = s at *
    have hg := goes_rqd (G := G) (E := E) (s := s.2) (ha.size.trans_lt hpart)
      (fun r hr => by rw [ha.others r hr]; exact hw.untouched r) (ha.err.trans hw.err) ha.write ha.honest
    refine ⟨hg.honest, course_res hg.course, ?_⟩
    rw [if_pos ((hg.size.trans ha.size).trans_lt hpart), hg.rqd, ← ha.ret]
  · rename_i hfull
    suffices h : ∀ s : Int × SubWrite × Inner,
        Submitted { w with coherent := x.coh w.stripe } s.2.1 s.1 →
          Started G { s.2.1 with res := s.1 } by
      apply h
      unfold stripeDataWrite stripeWrite
      split
      · rename_i hc
        exact submitted_coherent hc
      · rename_i hc
        exact submitted_incoherent (Bool.eq_false_iff.mpr hc)
    intro s hs
    have hd := hw.untouched .rqd
    have hp := hw.untouched .rpq
    have hcourse := course_submitted (G := G) (e := 0) hs
      ⟨idle_of_untouched hd, idle_of_untouched hp⟩ ⟨bad_of_untouched hd, bad_of_untouched hp⟩
      hw.err (fun _ => rej_of_untouched hp) (by simp [rej_of_untouched hp, hfull])
    have hhon := honest_submitted hs fun r => honest_of_untouched (hw.untouched r)
    refine ⟨hhon, course_res hcourse, ?_⟩
    rw [if_neg (by rw [hs.size]; exact hfull)]
    exact hs.ret

/-- The end of `r` brings the sub-write an error. -/
def Fails (r : Role) (w : SubWrite) : Prop :=
  w.Idle r ∧ if w.coherent then (w.query r).bad = true
    else (w.Idle .wqd ∧ w.Idle .wqp) ∧ ∃ r, r.Strip ∧ (w.query r).bad = true

theorem stripFailed_set (hr : r.Strip) (hb : ¬ w.Idle r) :
    (w.set r q).StripFailed ↔ w.StripFailed ∨ Fails r (w.set r q) := by
  unfold SubWrite.StripFailed Fails
  rw [SubWrite.coherent_set]
  split
  · constructor
    · rintro ⟨r', hr', hi, hbad⟩
      by_cases he : r' = r
      · subst he
        exact .inr ⟨hi, hbad⟩
      · rw [SubWrite.idle_set_of_ne he] at hi
        rw [SubWrite.query_set_of_ne he] at hbad
        exact .inl ⟨r', hr', hi, hbad⟩
    · rintro (⟨r', hr', hi, hbad⟩ | ⟨hi, hbad⟩)
      · have he : r' ≠ r := by rintro rfl; exact hb hi
        rw [← SubWrite.idle_set_of_ne he (q := q)] at hi
        rw [← SubWrite.query_set_of_ne he (q := q)] at hbad
        exact ⟨r', hr', hi, hbad⟩
      · exact ⟨r, hr, hi, hbad⟩
  · have hnot : ¬ (w.Idle .wqd ∧ w.Idle .wqp) := fun h => hb (by
      obtain rfl | rfl := hr
      · exact h.1
      · exact h.2)
    have hself : (w.set r q).Idle .wqd ∧ (w.set r q).Idle .wqp → (w.set r q).Idle r := fun h => by
      obtain rfl | rfl := hr
      · exact h.1
      · exact h.2
    constructor
    · exact fun h => .inr ⟨hself h.1, h⟩
    · rintro (h | h)
      · exact absurd h.1 hnot
      · exact h.2

theorem err_strip {s : SubWrite × Inner} (hhon : ∀ r, (s.1.query r).Honest) :
    (whenIdle r (writeDone G r) s).1.err ≠ 0 ↔ s.1.err ≠ 0 ∨ Fails r s.1 := by
  by_cases hc : s.1.coherent = true
  · rw [err_whenIdle hc (hhon r), Fails, if_pos hc]
  · rw [Fails, if_neg hc]
    unfold whenIdle writeDone
    rw [if_neg hc]
    split
    · rename_i hi
      split
      · rename_i hb
        simp only [hi, hb, true_and, and_self]
        split
        · exact err_guard _ _ (.inr rfl) (.inl rfl) (by simp) fun r _ => hhon r
        · exact err_guard _ _ (.inl rfl) (.inr rfl) (by simp) fun r _ => hhon r
      · rename_i hb
        simp [hb]
    · rename_i hi
      simp [hi]

/-- A strip or the parity of a sub-write has ended, or one of its subqueries. -/
theorem started_strip (hr : r.Strip) (hq : q.Honest) (hwrite : q.write = (w.query r).write)
    (hrej : q.rej = (w.query r).rej) (hb : ¬ w.Idle r) (h : Started G w) :
    Started G (whenIdle r (writeDone G r) (w.set r q, x)).1 := by
  obtain ⟨hhon, hcourse, hres⟩ := h
  obtain ⟨hqs, -, hcs⟩ := query_whenIdle (G := G) (r := r) (s := (w.set r q, x))
  have hsize : (whenIdle r (writeDone G r) (w.set r q, x)).1.size = w.size :=
    size_of_request (stays_whenIdle (G := G) (w := w) (x := x) (s := (w.set r q, x))
      ⟨rfl, rfl, fun _ => elsewhere_refl⟩ fun _ => stays_writeDone).request
  have hhon' : ∀ r', ((w.set r q).query r').Honest := fun r' => by
    by_cases he : r' = r
    · subst he; rwa [SubWrite.query_set_self]
    · rw [SubWrite.query_set_of_ne he]; exact hhon r'
  have hrej' : ∀ r', ((w.set r q).query r').rej = (w.query r').rej := fun r' => by
    by_cases he : r' = r
    · subst he; rwa [SubWrite.query_set_self]
    · rw [SubWrite.query_set_of_ne he]
  have herr := err_strip (G := G) (r := r) (s := (w.set r q, x)) hhon'
  have hset := stripFailed_set (q := q) hr hb
  have hne : r ≠ .rqd ∧ r ≠ .rpq := by obtain rfl | rfl := hr <;> simp
  have hd := SubWrite.query_set_of_ne (w := w) (q := q) (Ne.symm hne.1)
  have hp := SubWrite.query_set_of_ne (w := w) (q := q) (Ne.symm hne.2)
  refine ⟨fun r' => hqs ▸ hhon' r', ?_, ?_⟩
  · cases hcourse with
    | data hpart hbusy _ hrest => exact absurd (idle_of_untouched (hrest r hne.1)) hb
    | parity _ _ _ _ _ _ _ hrest => exact absurd (idle_of_untouched (hrest r hr)) hb
    | failed _ _ _ hrest => exact absurd (idle_of_untouched (hrest r hr)) hb
    | write hidle hbad hw hfull herr' =>
      have hf : (whenIdle r (writeDone G r) (w.set r q, x)).1.StripFailed ↔
          (w.set r q).StripFailed := by
        simp only [SubWrite.StripFailed, SubWrite.Idle, hqs, hcs]
      have hj : (whenIdle r (writeDone G r) (w.set r q, x)).1.StripRejected ↔
          w.StripRejected := by
        simp only [SubWrite.StripRejected, hqs, hrej']
      apply Course.write <;> simp only [SubWrite.Idle, hqs, hcs, hsize, hd, hp]
      · exact hidle
      · exact hbad
      · intro r' hr'
        by_cases he : r' = r
        · subst he; rw [SubWrite.query_set_self, hwrite]; exact hw r' hr'
        · rw [SubWrite.query_set_of_ne he]; exact hw r' hr'
      · exact hfull
      · rw [herr, hf, hset, hj]
        change w.err ≠ 0 ∨ _ ↔ _ ∨ _ ∨ w.coherent = false ∧ _
        rw [herr', or_assoc, or_assoc, or_assoc]
        exact or_congr_right (or_congr_right or_comm)
  · rw [res_whenIdle fun _ _ => res_writeDone, hsize, hqs, hd, SubWrite.StripRejected, hqs, hrej',
      hrej']
    exact hres

theorem goes_started {s : SubWrite} (h : Goes G s w') (hpart : s.size < G.stripeDataSz)
    (hsame : w'.res = s.res) (hres : s.res ≠ 0 ↔ (s.query .rqd).rej ≠ 0) : Started G w' := by
  refine ⟨h.honest, h.course, ?_⟩
  rw [if_pos (h.size.trans_lt hpart), hsame, h.rqd]
  exact hres

theorem started_settle (h : Started G w) {n : Nat} (hs : (w.query r).settle n e = some q) :
    Started G (whenIdle r (queryDone G E r) (w.set r q, x)).1 := by
  obtain ⟨hops, hwrite, hrej, -, -⟩ := Query.settle_keeps hs
  have hb : ¬ w.Idle r := hops
  have hhon : q.Honest := Query.honest_settle (h.honest r) hs
  cases h.course with
  | data hpart hbusy hread hrest herr =>
    obtain rfl : r = .rqd := by_contra fun hr => hb (idle_of_untouched (hrest r hr))
    have hres := h.res
    rw [if_pos hpart] at hres
    refine goes_started (goes_rqd (s := (w.set .rqd q, x)) hpart (fun r hr => ?_) herr ?_ ?_)
      hpart       (res_whenIdle fun _ _ => res_rqdDone) ?_
    · rw [SubWrite.query_set_of_ne hr]; exact hrest r hr
    · rw [SubWrite.query_set_self, hwrite]; exact hread
    · rwa [SubWrite.query_set_self]
    · rw [SubWrite.query_set_self, hrej]; exact hres
  | parity hpart hc hdata hbad hbusy hz hread hrest herr =>
    obtain rfl : r = .rpq := by
      cases r with
      | rqd => exact absurd hdata hb
      | rpq => rfl
      | wqd => exact absurd (idle_of_untouched (hrest _ (.inl rfl))) hb
      | wqp => exact absurd (idle_of_untouched (hrest _ (.inr rfl))) hb
    have hd := @SubWrite.query_set_of_ne w .rpq .rqd q (by simp)
    have hres := h.res
    rw [if_pos hpart] at hres
    refine goes_started (goes_rpq (s := (w.set .rpq q, x)) hpart hc ?_ ?_ ?_ ?_ (fun r hr => ?_) herr
      fun r => ?_) hpart (res_whenIdle fun _ _ => res_rpqDone) ?_
    · rw [SubWrite.Idle, hd]; exact hdata
    · rw [hd]; exact hbad
    · rw [SubWrite.query_set_self, hrej]; exact hz
    · rw [SubWrite.query_set_self, hwrite]; exact hread
    · rw [SubWrite.query_set_of_ne (by rintro rfl; simp [Role.Strip] at hr)]; exact hrest r hr
    · by_cases hr : r = .rpq
      · subst hr; rwa [SubWrite.query_set_self]
      · rw [SubWrite.query_set_of_ne hr]; exact h.honest r
    · rw [hd]; exact hres
  | failed hpart hidle hbad hrest herr =>
    refine absurd ?_ hb
    cases r with
    | rqd => exact hidle.1
    | rpq => exact hidle.2
    | wqd => exact idle_of_untouched (hrest _ (.inl rfl))
    | wqp => exact idle_of_untouched (hrest _ (.inr rfl))
  | write hidle =>
    cases r with
    | rqd => exact absurd hidle.1 hb
    | rpq => exact absurd hidle.2 hb
    | wqd => exact started_strip (.inl rfl) hhon hwrite hrej hb h
    | wqp => exact started_strip (.inr rfl) hhon hwrite hrej hb h

theorem started_effect (h : Started G w) {n : Nat} {hit : Nat → Bool} {dev dev' : Addr → Byte}
    (hs : (w.query r).effect n hit dev = some (q, dev')) : Started G (w.set r q) := by
  obtain ⟨hwrite, hrej, herr, hbad, -, -⟩ := Query.effect_keeps hs
  have hb := idle_of_effect hs
  have hidle : ∀ r', (w.set r q).Idle r' ↔ w.Idle r' := fun _ => idle_effect hs
  have hsame : ∀ r', ((w.set r q).query r').write = (w.query r').write ∧
      ((w.set r q).query r').rej = (w.query r').rej ∧
      ((w.set r q).query r').err = (w.query r').err ∧
      ((w.set r q).query r').bad = (w.query r').bad := fun r' => by
    by_cases hr : r' = r
    · subst hr
      rw [SubWrite.query_set_self]
      exact ⟨hwrite, hrej, herr, hbad⟩
    · rw [SubWrite.query_set_of_ne hr]
      exact ⟨rfl, rfl, rfl, rfl⟩
  have hrest : ∀ r', (w.query r').Untouched → ((w.set r q).query r').Untouched := fun r' hu => by
    rwa [SubWrite.query_set_of_ne (by rintro rfl; exact hb (idle_of_untouched hu))]
  refine ⟨fun r' => Query.honest_of_eq (hsame r').2.2.1 (hsame r').2.2.2 (h.honest r'), ?_, ?_⟩
  · cases h.course with
    | data hpart hbusy hread hu herr =>
      exact .data hpart (by rwa [hidle]) ((hsame _).1.trans hread) (fun r' hr => hrest r' (hu r' hr)) herr
    | parity hpart hc hdata hbad hbusy hz hread hu herr =>
      exact .parity hpart hc ((hidle _).mpr hdata) ((hsame _).2.2.2.trans hbad) (by rwa [hidle])
        ((hsame _).2.1.trans hz) ((hsame _).1.trans hread) (fun r' hr => hrest r' (hu r' hr)) herr
    | failed hpart hi hbad hu herr =>
      refine .failed hpart ?_ ?_ (fun r' hr => hrest r' (hu r' hr)) herr
      · rwa [hidle, hidle]
      · rwa [(hsame _).2.2.2, (hsame _).2.2.2]
    | write hi hbad hw hfull herr =>
      refine .write ?_ ?_ (fun r' hr => (hsame r').1.trans (hw r' hr)) ?_ ?_
      · rwa [hidle, hidle]
      · rwa [(hsame _).2.2.2, (hsame _).2.2.2]
      · rw [(hsame _).2.1]; exact hfull
      · simp only [SubWrite.StripFailed, SubWrite.StripRejected, hidle, hsame]
        exact herr
  · have hres := h.res
    simp only [SubWrite.StripRejected, hsame] at hres ⊢
    exact hres

theorem started_react (h : Started G w) (hr : react G E act w x = some (w', x')) :
    Started G w' := by
  cases act with
  | effect r n hit =>
    obtain ⟨q, hq, he⟩ := Option.map_eq_some_iff.mp hr
    cases he
    exact started_effect h hq
  | settle r n e =>
    obtain ⟨q, hq, he⟩ := Option.map_eq_some_iff.mp hr
    have := started_settle (E := E) (x := x) h hq
    rwa [he] at this

/-- Each sub-write, from the moment it is made, whatever the handlers do. -/
theorem acceptor_rule : JobRule (acceptor G E) (fun w => New w ∧ w.waited = false)
    (fun w => New w ∧ w.waited = true) (Started G) fun _ _ => True where
  launch _ _ h := started_process h.1
  restart _ _ h := started_process h.1
  react _ _ _ _ _ _ h hr := started_react h hr
  park _ h := ⟨⟨h.1.untouched, h.1.err, h.1.res⟩, rfl⟩
  split _ _ _ _ h := by
    obtain ⟨_, -, -, hq, herr, hres, hwaited⟩ := mem_split h
    exact ⟨⟨fun r => by rw [hq]; rfl, herr, hres⟩, hwaited⟩

/-- A sub-write that ended carries an error exactly if a read or a write of it failed, the parity
read was rejected, or, the parity not being coherent, the write of a part was. -/
theorem err_of_ended (h : Started G w) (hb : w.busy = false) : w.err ≠ 0 ↔
    (∃ r, (w.query r).bad = true) ∨ (w.query .rpq).rej ≠ 0 ∨
      w.coherent = false ∧ w.size < G.stripeDataSz ∧ w.StripRejected := by
  have hidle := SubWrite.not_busy.mp hb
  cases h.course with
  | data _ hbusy => exact absurd (hidle _) hbusy
  | parity _ _ _ _ hbusy => exact absurd (hidle _) hbusy
  | failed _ _ hbad _ herr =>
    refine ⟨fun _ => .inl ?_, fun _ => herr⟩
    obtain hbad | hbad := hbad
    · exact ⟨_, hbad⟩
    · exact ⟨_, hbad⟩
  | write _ hbad _ _ herr =>
    have hf : w.StripFailed ↔ ∃ r, (w.query r).bad = true := by
      unfold SubWrite.StripFailed
      simp only [hidle, true_and, and_self, ite_self]
      refine exists_congr fun r => and_iff_right_of_imp fun hr => ?_
      cases r <;> simp_all [Role.Strip]
    rw [herr, hf]
    exact or_left_comm

/-- It wrote exactly if none of its reads completed with an error. -/
theorem wrote_of_ended (h : Started G w) (hb : w.busy = false) : w.Wrote ↔
    (w.query .rqd).bad = false ∧ (w.query .rpq).bad = false := by
  have hidle := SubWrite.not_busy.mp hb
  cases h.course with
  | data _ hbusy => exact absurd (hidle _) hbusy
  | parity _ _ _ _ hbusy => exact absurd (hidle _) hbusy
  | failed _ _ hbad hrest =>
    rw [SubWrite.Wrote, write_of_untouched (hrest _ (.inl rfl))]
    simp only [Bool.false_eq_true, false_iff, not_and]
    rintro h₁ h₂
    simp_all
  | write _ hbad hw => exact ⟨fun _ => hbad, fun _ => hw _ (.inl rfl)⟩

end Ublk.Raidsp
