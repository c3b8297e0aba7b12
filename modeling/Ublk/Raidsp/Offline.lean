import Ublk.Lib.SerialAlarm
import Ublk.Raidsp.Drain
import Ublk.Raidsp.Target

/-!
The target goes offline exactly with the first failure that a client is told of, and then touches no
device for what comes in. What had come in before is carried on to its end.
-/
namespace Ublk.Raidsp

open Shared Serial Acceptor

variable {G : Geometry} {E : Env} {x x' : Inner} {q q' : Requests} {b : Beside} {dev₀ : Addr → Byte}

theorem heeded_serve {rd : ClientRead} (hc : rd.cid < q.count) (h : q.Heeded) :
    (serve rd x q).2.Heeded :=
  Requests.heeded_drop (Requests.heeded_setErr h) (by simpa using hc)

theorem alarms_le_serve {rd : ClientRead} : q.alarms ≤ (serve rd x q).2.alarms :=
  Nat.le_trans (Nat.le_of_eq Requests.alarms_setErr.symm) Requests.alarms_le_drop

theorem alarms_le_beside (h : beside G E b x q = some (x', q')) : q.alarms ≤ q'.alarms := by
  cases b with
  | read off size hpos =>
    simp only [beside, Option.some.injEq, Prod.mk.injEq] at h
    obtain ⟨-, rfl⟩ := h
    refine Nat.le_trans ?_ Requests.alarms_le_returned
    split
    · exact alarms_le_serve (q := q.create.share q.count)
    · exact Nat.le_refl _
  | effect i k hit =>
    obtain ⟨rd, -, h⟩ := Option.bind_eq_some_iff.mp h
    obtain ⟨y, -, h⟩ := Option.map_eq_some_iff.mp h
    cases h
    exact Nat.le_refl _
  | settle i k e =>
    obtain ⟨rd, -, h⟩ := Option.bind_eq_some_iff.mp h
    obtain ⟨y, -, h⟩ := Option.map_eq_some_iff.mp h
    split at h
    · cases h
      exact alarms_le_serve (x := { x with reads := x.reads.eraseIdx i })
    · cases h
      exact Nat.le_refl _

/-- Steps beside the sub-writes touch only requests they read for, and the one they make. -/
theorem req_beside (h : beside G E b x q = some (x', q')) (c : Nat) (hz : readsOf c x = 0)
    (hlt : c < q.count) : q'.req c = q.req c := by
  have hserve : ∀ (rd : ClientRead) y, c ≠ rd.cid → (serve rd y q).2.req c = q.req c :=
    fun rd y hne => (Requests.req_drop_of_ne _ _ _ hne).trans (Requests.req_setErr_of_ne hne)
  cases b with
  | read off size hpos =>
    have hne : c ≠ q.count := by omega
    simp only [beside, Option.some.injEq, Prod.mk.injEq] at h
    obtain ⟨-, rfl⟩ := h
    refine (Requests.req_drop_of_ne _ _ _ hne).trans ?_
    simp only [Function.update_of_ne hne]
    split
    · refine (Requests.req_drop_of_ne _ _ _ hne).trans ((Requests.req_setErr_of_ne hne).trans ?_)
      rw [Requests.req_share_of_ne hne, Requests.req_create, if_neg hne]
    · rw [Requests.req_share_of_ne hne, Requests.req_create, if_neg hne]
  | effect i k hit =>
    obtain ⟨rd, -, h⟩ := Option.bind_eq_some_iff.mp h
    obtain ⟨y, -, h⟩ := Option.map_eq_some_iff.mp h
    cases h
    rfl
  | settle i k e =>
    obtain ⟨rd, hrd, h⟩ := Option.bind_eq_some_iff.mp h
    obtain ⟨y, -, h⟩ := Option.map_eq_some_iff.mp h
    split at h
    · cases h
      refine hserve { rd with query := y } { x with reads := x.reads.eraseIdx i } fun he => ?_
      simp only [readsOf, List.countP_eq_zero, beq_iff_eq] at hz
      exact hz rd (List.mem_of_getElem? hrd) he
    · cases h
      rfl

theorem heeded_beside (h : beside G E b x q = some (x', q'))
    (hlt : ∀ c, readsOf c x ≠ 0 → c < q.count) (hq : q.Heeded) : q'.Heeded := by
  cases b with
  | read off size hpos =>
    simp only [beside, Option.some.injEq, Prod.mk.injEq] at h
    obtain ⟨-, rfl⟩ := h
    have hs := Requests.heeded_share (c := q.count) (Requests.heeded_create hq)
    split
    · refine Requests.heeded_returned (heeded_serve (by simp) hs) (by simp [serve]) ?_
      simp [serve, Requests.req_create]
    · exact Requests.heeded_returned hs (by simp) (by simp [Requests.req_create])
  | effect i k hit =>
    obtain ⟨rd, -, h⟩ := Option.bind_eq_some_iff.mp h
    obtain ⟨y, -, h⟩ := Option.map_eq_some_iff.mp h
    cases h
    exact hq
  | settle i k e =>
    obtain ⟨rd, hrd, h⟩ := Option.bind_eq_some_iff.mp h
    obtain ⟨y, -, h⟩ := Option.map_eq_some_iff.mp h
    have hmem : readsOf rd.cid x ≠ 0 :=
      Nat.ne_of_gt (List.countP_pos_iff.mpr ⟨rd, List.mem_of_getElem? hrd, by simp⟩)
    split at h
    · cases h
      exact heeded_serve (x := { x with reads := x.reads.eraseIdx i }) (hlt _ hmem) hq
    · cases h
      exact hq

namespace Target

variable {t u : Target} {l : Label WriteReq Act Beside}

/-- `is_stripe_parity_coherent`; offline, no stripe is. -/
def isStripeParityCoherent (t : Target) (k : Nat) : Bool := t.online && t.acc.inner.coh k

/-- The alarms that were raised are the failures that clients were told of. -/
structure Alarmed (t : Target) : Prop where
  online : t.online = decide (t.acc.reqs.alarms = 0)
  heeded : t.acc.reqs.Heeded

theorem alarmed_initial : Alarmed (initial dev₀) := ⟨rfl, Requests.heeded_empty⟩

theorem alarmed_forward (hi : Inv G E t) (h : Alarmed t) (hs : forward G E t l = some u) :
    Alarmed u := by
  obtain ⟨acc, hacc, rfl⟩ := Option.map_eq_some_iff.mp hs
  refine ⟨?_, heeded_step (fun _ _ _ _ _ => heeded_beside)
    (hi.counted (dead_of_step hacc)) h.heeded hacc⟩
  have hle := alarms_le_step (fun _ _ _ _ _ => alarms_le_beside) hacc
  dsimp only
  rw [h.online]
  by_cases hz : t.acc.reqs.alarms = 0
  · simp [hz]
  · have : acc.reqs.alarms ≠ 0 := by omega
    simp [hz, this]

theorem turnDown_cases (h : turnDown t = some u) : t.acc.Quiet ∧ u = { t with
    acc := { t.acc with reqs := t.acc.reqs.create.returned t.acc.reqs.count EIO }
    turned := t.turned ++ [t.acc.reqs.count] } := by
  unfold turnDown at h
  split at h
  · cases h
    exact ⟨‹_›, rfl⟩
  · cases h

theorem alarmed_turnDown (h : Alarmed t) (ho : t.online = false) (hs : turnDown t = some u) :
    Alarmed u := by
  obtain ⟨hq, rfl⟩ := turnDown_cases hs
  refine ⟨?_, Requests.heeded_returned (Requests.heeded_create h.heeded) (by simp)
    (by simp [Requests.req_create])⟩
  have hz := h.online
  have hle := Requests.alarms_le_returned (t := t.acc.reqs.create) (c := t.acc.reqs.count) (e := EIO)
  have : (t.acc.reqs.create.returned t.acc.reqs.count EIO).alarms ≠ 0 := by
    have : t.acc.reqs.alarms ≠ 0 := by simpa [ho] using hz
    have hc : t.acc.reqs.create.alarms = t.acc.reqs.alarms := rfl
    omega
  simp [ho, this]

theorem alarmed_step (hi : Inv G E t) (h : Alarmed t) (hs : step G E t l = some u) :
    Alarmed u := by
  obtain hs | ⟨ho, hs⟩ := step_cases hs
  · exact alarmed_forward hi h hs
  · exact alarmed_turnDown h ho hs

theorem alarmed_run (h : Lts.Run (step G E) (fun _ _ => True) (initial dev₀) t) : Alarmed t :=
  (Lts.run_invariant (I := fun t => Inv G E t ∧ Alarmed t) h ⟨inv_initial, alarmed_initial⟩
    fun _ _ _ hi _ hs => ⟨inv_step hi.1 hs, alarmed_step hi.1 hi.2 hs⟩).2

/-- What a target that went offline after `n` requests makes of the later ones. -/
structure Barred (n : Nat) (t : Target) : Prop where
  offline : t.online = false
  count : n ≤ t.acc.reqs.count
  turned : ∀ c, n ≤ c → c < t.acc.reqs.count → t.acc.reqs.req c = ⟨0, some EIO, 0, 1⟩

theorem shares_of_barred {n : Nat} (hi : Inv G E t) (h : Barred n t) (hd : t.acc.dead = false)
    (hn : n ≤ c) : shares (acceptor G E) readsOf t.acc c = 0 := by
  have hb := (hi.counted hd).balanced
  by_cases hlt : c < t.acc.reqs.count
  · rw [← hb.holders c hlt, h.turned c hn hlt]
  · exact hb.beyond c (by omega)

/-- Something that a client asks for. -/
def Incoming : Label WriteReq Act Beside → Prop
  | .arrive _ => True
  | .aside (.read _ _ _) => True
  | _ => False

theorem step_offline (ho : t.online = false) (hs : step G E t l = some u) :
    turnDown t = some u ∨ (¬ Incoming l ∧ forward G E t l = some u) := by
  unfold step at hs
  rw [ho] at hs
  split at hs
  · exact .inl hs
  · exact .inl hs
  · rename_i harr hread
    refine .inr ⟨fun hi => ?_, hs⟩
    unfold Incoming at hi
    split at hi
    · exact harr _ rfl rfl
    · exact hread _ _ _ rfl rfl
    · exact hi

theorem count_beside (hb : ¬ Incoming (.aside b)) (h : beside G E b x q = some (x', q')) :
    q'.count = q.count := by
  cases b with
  | read off size hpos => exact absurd trivial hb
  | effect i k hit =>
    obtain ⟨rd, -, h⟩ := Option.bind_eq_some_iff.mp h
    obtain ⟨y, -, h⟩ := Option.map_eq_some_iff.mp h
    cases h
    rfl
  | settle i k e =>
    obtain ⟨rd, -, h⟩ := Option.bind_eq_some_iff.mp h
    obtain ⟨y, -, h⟩ := Option.map_eq_some_iff.mp h
    split at h
    · cases h
      exact (Requests.count_drop _ _).trans (Requests.count_setErr _ _ _)
    · cases h
      rfl

theorem barred_forward {n : Nat} (hi : Inv G E t) (h : Barred n t) (hl : ¬ Incoming l)
    (hs : forward G E t l = some u) : Barred n u := by
  obtain ⟨acc, hacc, rfl⟩ := Option.map_eq_some_iff.mp hs
  have hlive := dead_of_step hacc
  have hcount : acc.reqs.count = t.acc.reqs.count := by
    refine count_step ?_ ?_ hacc
    · rintro r rfl
      exact hl trivial
    · rintro b x q x' q' rfl hb
      exact count_beside hl hb
  refine ⟨by simp [h.offline], Nat.le_trans h.count (Nat.le_of_eq hcount.symm), fun c hn hlt => ?_⟩
  have hlt : c < t.acc.reqs.count := by
    dsimp only at hlt
    omega
  exact (req_step acceptor_sharing (fun _ _ _ _ _ h => req_beside h) (hi.counted hlive) hlt
    (shares_of_barred hi h hlive hn) hacc).trans (h.turned c hn hlt)

/-- A request that is turned down is over at once. -/
theorem req_turnDown (c : Nat) : (q.create.returned q.count e).req c =
    if c = q.count then ⟨0, some e, 0, 1⟩ else q.req c := by
  split
  · subst c
    simp [Requests.returned, Requests.drop, Requests.create]
  · rename_i hne
    refine (Requests.req_drop_of_ne _ _ _ hne).trans ?_
    simp [hne, Requests.req_create]

theorem barred_turnDown {n : Nat} (h : Barred n t) (hs : turnDown t = some u) : Barred n u := by
  obtain ⟨-, rfl⟩ := turnDown_cases hs
  have hcount := h.count
  refine ⟨h.offline, ?_, fun c hn hlt => ?_⟩
  · simp only [Requests.count_returned, Requests.count_create]
    omega
  · simp only [Requests.count_returned, Requests.count_create] at hlt
    refine (req_turnDown c).trans ?_
    split
    · rfl
    · exact h.turned c hn (by omega)

theorem barred_run {n : Nat} (hi : Inv G E t) (h : Barred n t)
    (hr : Lts.Run (step G E) (fun _ _ => True) t u) : Inv G E u ∧ Barred n u := by
  refine Lts.run_invariant (I := fun t => Inv G E t ∧ Barred n t) hr ⟨hi, h⟩
    fun s l v hs _ hv => ⟨inv_step hs.1 hv, ?_⟩
  obtain hv' | ⟨hl, hv'⟩ := step_offline hs.2.offline hv
  · exact barred_turnDown hs.2 hv'
  · exact barred_forward hs.1 hs.2 hl hv'

/-- The target is offline exactly if a client has been told of a failure. It then stays so, no stripe
counts as coherent, and each later request is answered with `EIO` by the call, is completed once,
without an error, and has nothing done for it. -/
theorem fail_stop (G : Geometry) (E : Env) (dev₀ : Addr → Byte) (t : Target)
    (h : Lts.Run (step G E) (fun _ _ => True) (initial dev₀) t) :
    (t.online = false ↔ ∃ c < t.acc.reqs.count, t.acc.reqs.Told c) ∧
    (t.online = false → ∀ u, Lts.Run (step G E) (fun _ _ => True) t u →
      u.online = false ∧ (∀ k, u.isStripeParityCoherent k = false) ∧
      ∀ c, t.acc.reqs.count ≤ c → c < u.acc.reqs.count →
        u.acc.reqs.req c = ⟨0, some EIO, 0, 1⟩ ∧
        (u.acc.dead = false → shares (acceptor G E) readsOf u.acc c = 0)) := by
  have hi := inv_run h
  have ha := alarmed_run h
  refine ⟨⟨fun ho => ?_, fun ⟨c, hlt, hc⟩ => ?_⟩, fun ho u hu => ?_⟩
  · refine ha.heeded ?_
    have hz := ha.online
    rw [ho] at hz
    simp only [false_eq_decide_iff] at hz
    omega
  · obtain ⟨v, hv, hne⟩ | ⟨hr, he⟩ := hc
    · exact hi.offline (hi.reported.tells.returned c v hv hne)
    · exact hi.offline (hi.reported.tells.completed c hr he)
  · obtain ⟨hiu, hbu⟩ := barred_run hi ⟨ho, Nat.le_refl _, fun c hn hlt => by omega⟩ hu
    exact ⟨hbu.offline, fun k => by simp [isStripeParityCoherent, hbu.offline],
      fun c hn hlt => ⟨hbu.turned c hn hlt, fun hd => shares_of_barred hiu hbu hd hn⟩⟩

/-- A write is told of a rejected strip; the next one is turned down. -/
theorem fail_stop_rejected : ∃ t u, afterRun secondRejected stripeWriteRun = some t ∧
    t.online = false ∧ t.acc.reqs.Told 0 ∧
    Lts.exec (step smallRaid secondRejected) t [.arrive (stripReq 0 fun _ => ⟨1#8⟩)] = some u ∧
    u.acc.reqs.req 1 = ⟨0, some EIO, 0, 1⟩ := by
  have hend : (afterRun secondRejected stripeWriteRun).map (fun t => (t.online, t.acc.reqs.count,
      (Lts.exec (step smallRaid secondRejected) t [.arrive (stripReq 0 fun _ => ⟨1#8⟩)]).map
        fun u => u.acc.reqs.count)) = some (false, 1, some 2) := by decide +kernel
  obtain ⟨t, ht, hend⟩ := Option.map_eq_some_iff.mp hend
  simp only [Prod.mk.injEq] at hend
  obtain ⟨ho, hcount, hnext⟩ := hend
  obtain ⟨u, hu, hcount'⟩ := Option.map_eq_some_iff.mp hnext
  obtain ⟨htold, hlater⟩ := fail_stop smallRaid secondRejected _ t
    (Lts.run_of_exec (fun _ _ _ => trivial) ht)
  obtain ⟨c, hlt, hc⟩ := htold.mp ho
  obtain rfl : c = 0 := by omega
  obtain ⟨-, -, hreq⟩ := hlater ho u (Lts.run_of_exec (fun _ _ _ => trivial) hu)
  exact ⟨t, u, ht, ho, hc, hu, (hreq 1 (by omega) (by omega)).1⟩

end Target
end Ublk.Raidsp
