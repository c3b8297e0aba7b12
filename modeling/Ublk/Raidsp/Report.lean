import Ublk.Lib.SerialReport
import Ublk.Raidsp.Course
import Ublk.Raidsp.Queries

/-! What the clients of an acceptor are told of its failures. -/
namespace Ublk.Raidsp

open Shared Serial Acceptor

variable {G : Geometry} {E : Env} {w w' : SubWrite} {x x' : Inner} {c : Nat} {t t' : Requests}
  {b : Beside} {rd : ClientRead}

/-- The call was told that the sub-write could not be started. -/
def SubWrite.Refused (w : SubWrite) : Prop := w.waited = false ∧ w.res ≠ 0

/-- A read of request `c` ended with an error. -/
def readFailed (c : Nat) (x : Inner) : Prop := ∃ rd ∈ x.served, rd.cid = c ∧ rd.query.err ≠ 0

/-- A part of a read of request `c` was rejected. -/
def readRefused (c : Nat) (x : Inner) : Prop :=
  ∃ rd, (rd ∈ x.reads ∨ rd ∈ x.served) ∧ rd.cid = c ∧ rd.query.rej ≠ 0

/-- What a change in one place of a list does to a property of some element. -/
theorem exists_set {α : Type} {p : α → Prop} {l : List α} {i : Nat} {a b : α} (h : l[i]? = some a)
    (hp : p b ↔ p a) : (∃ y ∈ l.set i b, p y) ↔ ∃ y ∈ l, p y := by
  obtain ⟨hlt, rfl⟩ := List.getElem?_eq_some_iff.mp h
  have h₁ := List.getElem_cons_eraseIdx_perm hlt
  have h₂ := List.getElem_cons_eraseIdx_perm (l := l.set i b) (by simpa using hlt)
  rw [List.getElem_set_self, List.eraseIdx_set_eq] at h₂
  simp only [← h₁.mem_iff, ← h₂.mem_iff, List.mem_cons, or_and_right, exists_or, exists_eq_left, hp]

theorem exists_eraseIdx {α : Type} {p : α → Prop} {l : List α} {i : Nat} {a : α}
    (h : l[i]? = some a) : (∃ y ∈ l, p y) ↔ p a ∨ ∃ y ∈ l.eraseIdx i, p y := by
  obtain ⟨hlt, rfl⟩ := List.getElem?_eq_some_iff.mp h
  simp only [← (List.getElem_cons_eraseIdx_perm hlt).mem_iff, List.mem_cons, or_and_right, exists_or,
    exists_eq_left]

theorem readRefused_iff : readRefused c x ↔ (∃ rd ∈ x.reads, rd.cid = c ∧ rd.query.rej ≠ 0) ∨
    ∃ rd ∈ x.served, rd.cid = c ∧ rd.query.rej ≠ 0 := by
  simp only [readRefused, or_and_right, exists_or]

section Beside

variable {P Q : Nat → Prop} {base : Nat → Nat}

theorem failed_serve : readFailed c (serve rd x t).1 ↔
    readFailed c x ∨ c = rd.cid ∧ rd.query.err ≠ 0 := by
  simp only [readFailed, serve, List.mem_append, List.mem_singleton, or_and_right, exists_or,
    exists_eq_left, eq_comm (a := c)]

theorem refused_serve : readRefused c (serve rd x t).1 ↔
    readRefused c x ∨ c = rd.cid ∧ rd.query.rej ≠ 0 := by
  simp only [readRefused_iff, serve, List.mem_append, List.mem_singleton, or_and_right, exists_or,
    exists_eq_left, eq_comm (a := c), or_assoc]

/-- A read that is served tells its request of its error. -/
theorem tells_serve (hc : rd.cid < t.count) (hr : (t.req rd.cid).runs = 0)
    (h : t.Tells (fun c => P c ∨ readFailed c x) Q) :
    (serve rd x t).2.Tells (fun c => P c ∨ readFailed c (serve rd x t).1) Q := by
  refine Requests.tells_drop (Requests.tells_congr (Requests.tells_setErr h hc hr) (fun c => ?_)
    fun _ _ => Iff.rfl)
  rw [failed_serve, or_assoc]

/-- A request a read of which is in flight is open. -/
theorem open_of_read (hb : t.Balanced (fun c => base c + readsOf c x) none) (h : rd ∈ x.reads) :
    rd.cid < t.count ∧ (t.req rd.cid).runs = 0 := by
  have hp : 0 < readsOf rd.cid x := List.countP_pos_iff.mpr ⟨rd, h, by simp⟩
  have hlt : rd.cid < t.count := by
    by_contra hn
    have := hb.beyond rd.cid (by omega)
    omega
  exact ⟨hlt, by rw [hb.runs _ hlt, if_neg (by omega)]⟩

/-- A new read has been submitted; its request's call is about to return. -/
theorem tells_read {r : Inner × Requests} (hrd : rd.cid = t.count)
    (hP : ¬ Q t.count ∧ ¬ readRefused t.count x) (hcount : r.2.count = t.count + 1)
    (hret : (r.2.req t.count).ret = none)
    (href : ∀ c, readRefused c r.1 ↔ readRefused c x ∨ c = rd.cid ∧ rd.query.rej ≠ 0)
    (h : r.2.Tells (fun c => P c ∨ readFailed c r.1) fun c => Q c ∨ readRefused c x) :
    (r.2.returned t.count rd.query.rej).Tells (fun c => P c ∨ readFailed c r.1)
      fun c => Q c ∨ readRefused c r.1 := by
  rw [hrd] at href
  refine Requests.tells_returned (Requests.tells_congr h (fun _ => Iff.rfl) fun c hc => ?_)
    (by omega) ?_
  · have hne : c ≠ t.count := by
      rintro rfl
      obtain hc | hc := hc
      · exact hc hret
      · omega
    simp [href, hne]
  · simp [href, hP.1, hP.2]

/-- The last part of a read has ended. -/
theorem tells_settled {i : Nat} {q : Query} (hrd : x.reads[i]? = some rd)
    (hrej : q.rej = rd.query.rej) (hlt : rd.cid < t.count) (hruns : (t.req rd.cid).runs = 0)
    (h : t.Tells (fun c => P c ∨ readFailed c x) fun c => Q c ∨ readRefused c x)
    {r : Inner × Requests}
    (hr : r = serve { rd with query := q } { x with reads := x.reads.eraseIdx i } t) :
    r.2.Tells (fun c => P c ∨ readFailed c r.1) fun c => Q c ∨ readRefused c r.1 := by
  subst hr
  refine Requests.tells_congr
    (@tells_serve { x with reads := x.reads.eraseIdx i } _ { rd with query := q } _ _ hlt hruns h)
    (fun _ => Iff.rfl) fun c _ => ?_
  rw [refused_serve, readRefused_iff, readRefused_iff, exists_eraseIdx hrd, eq_comm (a := c)]
  dsimp only
  rw [hrej, or_assoc, or_comm (a := rd.cid = c ∧ _), or_assoc]
  exact or_congr_right (or_congr_right or_comm)

theorem beside_tells (h : beside G E b x t = some (x', t'))
    (hb : t.Balanced (fun c => base c + readsOf c x) none)
    (ht : t.Tells (fun c => P c ∨ readFailed c x) fun c => Q c ∨ readRefused c x) :
    t'.Tells (fun c => P c ∨ readFailed c x') fun c => Q c ∨ readRefused c x' := by
  cases b with
  | read off size hpos =>
    simp only [beside, Option.some.injEq, Prod.mk.injEq] at h
    obtain ⟨rfl, rfl⟩ := h
    have hrej := @Query.rej_submitAll E (Query.read (E.junk t.count))
      (G.dataRead (off / G.stripeDataSz) (off % G.stripeDataSz) size) x.disk rfl
    have hnot := (ht.beyond t.count le_rfl).2.2
    rw [not_or] at hnot
    have hshared := Requests.tells_share (c := t.count) (Requests.tells_create ht)
    rw [← hrej]
    generalize hq : (Query.read (E.junk t.count)).submitAll E
      (G.dataRead (off / G.stripeDataSz) (off % G.stripeDataSz) size) x.disk = q
    split
    · refine @tells_read x _ (⟨t.count, off, size, q.2.1⟩) _ _ _ rfl hnot ?_ ?_ (fun c => ?_)
        (tells_serve ?_ ?_ hshared)
      · simp [serve]
      · simp [serve, Requests.req_create]
      · exact refused_serve
      · simp
      · simp [Requests.req_create]
    · refine @tells_read x _ ⟨t.count, off, size, q.2.1⟩ _ _ _ rfl hnot ?_ ?_ (fun c => ?_)
        hshared
      · simp
      · simp [Requests.req_create]
      · simp only [readRefused_iff, List.mem_append, List.mem_singleton, or_and_right, exists_or,
          exists_eq_left, eq_comm (a := c)]
        exact or_right_comm
  | effect i n hit =>
    obtain ⟨rd, hrd, h⟩ := Option.bind_eq_some_iff.mp h
    obtain ⟨⟨q, dev'⟩, hq, h⟩ := Option.map_eq_some_iff.mp h
    cases h
    refine Requests.tells_congr ht (fun _ => Iff.rfl) fun c _ => ?_
    rw [readRefused_iff, readRefused_iff]
    refine or_congr_right (or_congr_left (exists_set hrd ?_))
    rw [(Query.effect_keeps hq).2.1]
  | settle i n e =>
    obtain ⟨rd, hrd, h⟩ := Option.bind_eq_some_iff.mp h
    obtain ⟨q, hq, h⟩ := Option.map_eq_some_iff.mp h
    obtain ⟨-, -, hrej, -, -⟩ := Query.settle_keeps hq
    split at h
    · obtain ⟨hlt, hruns⟩ := open_of_read hb (List.mem_of_getElem? hrd)
      exact tells_settled hrd hrej hlt hruns ht h.symm
    · cases h
      refine Requests.tells_congr ht (fun _ => Iff.rfl) fun c _ => ?_
      rw [readRefused_iff, readRefused_iff]
      refine or_congr_right (or_congr_left (exists_set hrd ?_))
      rw [hrej]

end Beside

theorem same_of_rest (h : x' = { x with disk := x'.disk, coh := x'.coh }) (c : Nat) :
    (readFailed c x' ↔ readFailed c x) ∧ (readRefused c x' ↔ readRefused c x) := by
  rw [h]
  exact ⟨Iff.rfl, Iff.rfl⟩

theorem acceptor_reporting : Reporting (acceptor G E) readsOf
    (fun w => New w ∧ w.waited = false) (fun w => New w ∧ w.waited = true) SubWrite.err
    SubWrite.Refused readFailed readRefused where
  enter _ _ := rfl
  leave _ _ := rfl
  launch w x h := by
    have hw : (process G E w x).2.1.waited = w.waited :=
      waited_of_request stays_process.request
    exact and_iff_right (hw.trans h.2)
  restart w x h := by
    have hw : (process G E w x).2.1.waited = w.waited :=
      waited_of_request stays_process.request
    rintro ⟨hn, -⟩
    rw [h.2] at hw
    rw [show ((acceptor G E).start w x).2.1.waited = _ from hw] at hn
    cases hn
  react _ w _ w' _ h := by
    have hw : w'.waited = w.waited := waited_of_request (react_keeps h).1
    rw [SubWrite.Refused, SubWrite.Refused, hw, res_react h]
  split_same _ _ _ _ := ⟨Iff.rfl, Iff.rfl⟩
  start_same _ _ c := same_of_rest stays_process.rest c
  react_same _ _ _ _ _ c h := same_of_rest (react_keeps h).2 c
  enter_same _ _ _ := ⟨Iff.rfl, Iff.rfl⟩
  leave_same _ _ _ := ⟨Iff.rfl, Iff.rfl⟩
  aside _ _ _ _ _ _ _ _ h hb ht := beside_tells h hb ht

/-- All client reads, in flight or served, are queries with `P`. -/
def ReadsHave (P : Query → Prop) (x : Inner) : Prop :=
  ∀ rd, rd ∈ x.reads ∨ rd ∈ x.served → P rd.query

variable {okE : Int → Prop} {okF : Beside → Inner → Prop} {P : Query → Prop}

theorem beside_reads (hR : Query.Rule E okE P) (hok : b.Settles okE)
    (h : beside G E b x t = some (x', t')) (hx : ReadsHave P x) : ReadsHave P x' := by
  cases b with
  | read off size hpos =>
    simp only [beside, Option.some.injEq, Prod.mk.injEq] at h
    obtain ⟨rfl, -⟩ := h
    have hq := hR.submit false (E.junk t.count)
      (G.dataRead (off / G.stripeDataSz) (off % G.stripeDataSz) size) x.disk
    intro rd hrd
    split at hrd
    · obtain hrd | hrd := hrd
      · exact hx rd (.inl hrd)
      · obtain hrd | hrd := List.mem_append.mp hrd
        · exact hx rd (.inr hrd)
        · exact List.mem_singleton.mp hrd ▸ hq
    · obtain hrd | hrd := hrd
      · obtain hrd | hrd := List.mem_append.mp hrd
        · exact hx rd (.inl hrd)
        · exact List.mem_singleton.mp hrd ▸ hq
      · exact hx rd (.inr hrd)
  | effect i n hit =>
    obtain ⟨rd, hrd, h⟩ := Option.bind_eq_some_iff.mp h
    obtain ⟨⟨q, dev'⟩, hq, h⟩ := Option.map_eq_some_iff.mp h
    cases h
    rintro y (hy | hy)
    · obtain hy | rfl := List.mem_or_eq_of_mem_set hy
      · exact hx y (.inl hy)
      · exact hR.effect _ _ _ _ _ _ hq (hx rd (.inl (List.mem_of_getElem? hrd)))
    · exact hx y (.inr hy)
  | settle i n e =>
    obtain ⟨rd, hrd, h⟩ := Option.bind_eq_some_iff.mp h
    obtain ⟨q, hq, h⟩ := Option.map_eq_some_iff.mp h
    have hp : P q := hR.settle _ _ _ _ hok hq (hx rd (.inl (List.mem_of_getElem? hrd)))
    split at h
    · cases h
      rintro y (hy | hy)
      · exact hx y (.inl (List.mem_of_mem_eraseIdx hy))
      · obtain hy | hy := List.mem_append.mp hy
        · exact hx y (.inr hy)
        · exact List.mem_singleton.mp hy ▸ hp
    · cases h
      rintro y (hy | hy)
      · obtain hy | rfl := List.mem_or_eq_of_mem_set hy
        · exact hx y (.inl hy)
        · exact hp
      · exact hx y (.inr hy)

theorem reads_of_rest (h : x' = { x with disk := x'.disk, coh := x'.coh })
    (hx : ReadsHave P x) : ReadsHave P x' := by
  rw [h]
  exact hx

theorem reads_kept (hR : Query.Rule E okE P) :
    Kept (acceptor G E) (fun b _ => b.Settles okE) (ReadsHave P) where
  split _ _ _ h := h
  start _ _ h := reads_of_rest stays_process.rest h
  react _ _ _ _ _ hr h := reads_of_rest (react_keeps hr).2 h
  enter _ _ h := h
  leave _ _ h := h
  aside _ _ _ _ _ ho hs h := beside_reads hR ho hs h

theorem reads_initial {dev₀ : Addr → Byte} : ReadsHave P (Inner.initial dev₀) := by
  simp [ReadsHave, Inner.initial]

end Ublk.Raidsp
