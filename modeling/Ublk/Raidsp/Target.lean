import Ublk.Raidsp.Coherency
import Ublk.Raidsp.Report

/-!
The target in front of an acceptor. It goes offline for good with the first failure a client is
told of, and from then on turns requests down.
-/
namespace Ublk.Raidsp

open Shared Serial Acceptor

def EIO : Int := 5

structure Target where
  acc : State SubWrite Inner
  online : Bool
  /-- History: the requests that were turned down. -/
  turned : List Nat

namespace Target

variable (G : Geometry) (E : Env)

def initial (dev₀ : Addr → Byte) : Target := ⟨.initial (Inner.initial dev₀), true, []⟩

/-- The acceptor works; `ev::fail` comes with each failure a client is told of. -/
def forward (t : Target) (l : Label WriteReq Act Beside) : Option Target :=
  ((acceptor G E).step t.acc l).map fun acc =>
    { t with acc, online := t.online && decide (acc.reqs.alarms = t.acc.reqs.alarms) }

/-- Offline, `process` returns `EIO` and the acceptor is not called. -/
def turnDown (t : Target) : Option Target :=
  if t.acc.Quiet then
    some { t with
      acc := { t.acc with reqs := t.acc.reqs.create.returned t.acc.reqs.count EIO }
      turned := t.turned ++ [t.acc.reqs.count] }
  else none

/-- `Target::process` and what runs by itself. -/
def step (t : Target) (l : Label WriteReq Act Beside) : Option Target :=
  match t.online, l with
  | false, .arrive _ => turnDown t
  | false, .aside (.read _ _ _) => turnDown t
  | _, l => forward G E t l

variable {G E} {t u : Target} {l : Label WriteReq Act Beside} {dev₀ : Addr → Byte} {c : Nat}

theorem step_cases (h : step G E t l = some u) : forward G E t l = some u ∨
    (t.online = false ∧ turnDown t = some u) := by
  unfold step at h
  split at h
  · exact .inr ⟨‹_›, h⟩
  · exact .inr ⟨‹_›, h⟩
  · exact .inl h

/-- What holds of a target in every state it reaches. -/
structure Inv (G : Geometry) (E : Env) (t : Target) : Prop where
  reported : Reported (acceptor G E) (fun x => x.done) SubWrite.err SubWrite.Refused readFailed
    (fun c x => readRefused c x ∨ c ∈ t.turned) t.acc
  jobs : Jobs (acceptor G E) (fun x => x.done) (fun w => New w ∧ w.waited = false)
    (fun w => New w ∧ w.waited = true) (Started G) t.acc
  honest : ReadsHave Query.Honest t.acc.inner
  counted : t.acc.dead = false → Counted (acceptor G E) readsOf t.acc
  offline : 0 < t.acc.reqs.alarms → t.online = false

theorem inv_initial : Inv G E (initial dev₀) := by
  refine ⟨⟨?_, fun q hq => by cases hq⟩, ?_, reads_initial, fun _ => counted_initial _ fun _ => rfl,
    fun h => absurd h (Nat.lt_irrefl 0)⟩
  · refine Requests.tells_congr Requests.tells_empty (fun c => ?_) fun c _ => ?_
    · simp [Failing, readFailed, initial, State.initial, Inner.initial]
    · simp [Refusing, Begun, readRefused, initial, State.initial, Inner.initial]
  · constructor <;> simp [initial, State.initial, Inner.initial, making]

theorem inv_forward (h : Inv G E t) (hs : forward G E t l = some u) : Inv G E u := by
  obtain ⟨acc, hacc, rfl⟩ := Option.map_eq_some_iff.mp hs
  have hc := h.counted (dead_of_step hacc)
  have hguard : Guarded (fun _ _ => True) (fun b _ => b.Settles fun _ => True) t.acc l := by
    cases l with
    | act i a => exact fun _ _ => trivial
    | aside b => exact beside_settles_any
    | _ => trivial
  refine ⟨reported_step (reporting_or acceptor_reporting (· ∈ t.turned)) acceptor_tracing
    acceptor_sharing hc h.jobs h.reported hacc,
    jobs_step acceptor_tracing acceptor_rule h.jobs hguard hacc,
    kept_step (reads_kept Query.honest_rule) h.honest hguard hacc,
    counted_step acceptor_sharing hc hacc, fun ha => ?_⟩
  by_cases he : acc.reqs.alarms = t.acc.reqs.alarms
  · have := h.offline (he ▸ ha)
    simp [this]
  · simp [he]

theorem inv_turnDown (h : Inv G E t) (ho : t.online = false) (hs : turnDown t = some u) :
    Inv G E u := by
  unfold turnDown at hs
  split at hs
  · rename_i hq
    cases hs
    have hc := h.counted hq.2.2
    have ht := h.reported.tells
    have hnew := ht.beyond _ le_rfl
    have hb := hc.balanced
    rw [hq.2.1] at hb
    refine ⟨⟨?_, fun q hq' => by rw [hq.2.1] at hq'; cases hq'⟩, ?_, h.honest, fun hd => ⟨?_, ?_⟩,
      fun _ => ho⟩
    · refine Requests.tells_returned (Requests.tells_congr (Requests.tells_create ht)
        (fun _ => Iff.rfl) fun c hc => ?_) (Nat.lt_succ_self _) ?_
      · have hne : c ≠ t.acc.reqs.count := by
          rintro rfl
          obtain hc | hc := hc
          · simp [Requests.req_create] at hc
          · simp at hc
        simp only [Refusing, List.mem_append, List.mem_singleton, hne, or_false]
        exact or_congr_left (begun_congr rfl rfl)
      · simp [Refusing, EIO]
    · exact ⟨h.jobs.active, h.jobs.frames, h.jobs.book, h.jobs.pending, h.jobs.making⟩
    · change Requests.Balanced _ _ (t.acc.issue.map (·.client))
      rw [hq.2.1]
      exact Requests.balanced_returned (Requests.balanced_create hb fun _ => rfl) fun _ => rfl
    · exact hc.making
  · cases hs

theorem inv_step (h : Inv G E t) (hs : step G E t l = some u) : Inv G E u := by
  obtain hs | ⟨ho, hs⟩ := step_cases hs
  · exact inv_forward h hs
  · exact inv_turnDown h ho hs

theorem inv_run (h : Lts.Run (step G E) (fun _ _ => True) (initial dev₀) t) : Inv G E t :=
  Lts.run_invariant h inv_initial fun _ _ _ hi _ hs => inv_step hi hs

/-- A backend rejected something issued for request `c`, or completed it with an error. -/
def Failed (t : Target) (c : Nat) : Prop :=
  (∃ w, (w ∈ t.acc.active ∨ w ∈ t.acc.inner.done) ∧ w.cid = c ∧
    ∃ r, (w.query r).rej ≠ 0 ∨ (w.query r).bad = true) ∨
  ∃ rd, (rd ∈ t.acc.inner.reads ∨ rd ∈ t.acc.inner.served) ∧ rd.cid = c ∧
    (rd.query.rej ≠ 0 ∨ rd.query.bad = true)

/-- A failure of a sub-write that is passed on: something completed with an error, the parity
read was rejected, the write of a part was rejected while the parity was not coherent, or the
first submits were and the sub-write had not been waiting. -/
def Loud (G : Geometry) (w : SubWrite) : Prop :=
  (∃ r, (w.query r).bad = true) ∨ (w.query .rpq).rej ≠ 0 ∨
    (w.coherent = false ∧ w.size < G.stripeDataSz ∧ w.StripRejected) ∨
    (w.waited = false ∧ if w.size < G.stripeDataSz then (w.query .rqd).rej ≠ 0 else w.StripRejected)

/-- Some failure of request `c` is passed on; every failure of a read is. -/
def Heard (G : Geometry) (t : Target) (c : Nat) : Prop :=
  (∃ w, (w ∈ t.acc.active ∨ w ∈ t.acc.inner.done) ∧ w.cid = c ∧ Loud G w) ∨
  ∃ rd, (rd ∈ t.acc.inner.reads ∨ rd ∈ t.acc.inner.served) ∧ rd.cid = c ∧
    (rd.query.rej ≠ 0 ∨ rd.query.bad = true)

/-- `process` returned an error for request `c`, or its completer was given one. -/
def Told (t : Target) (c : Nat) : Prop :=
  (∃ v, (t.acc.reqs.req c).ret = some v ∧ v ≠ 0) ∨ (t.acc.reqs.req c).err ≠ 0

theorem failed_of_heard (h : Heard G t c) : Failed t c := by
  obtain ⟨w, hw, hcid, hl⟩ | h := h
  · refine .inl ⟨w, hw, hcid, ?_⟩
    obtain ⟨r, hr⟩ | hr | ⟨-, -, hr⟩ | ⟨-, hr⟩ := hl
    · exact ⟨r, .inr hr⟩
    · exact ⟨.rpq, .inl hr⟩
    · obtain hr | hr := hr
      · exact ⟨_, .inl hr⟩
      · exact ⟨_, .inl hr⟩
    · split at hr
      · exact ⟨_, .inl hr⟩
      · obtain hr | hr := hr
        · exact ⟨_, .inl hr⟩
        · exact ⟨_, .inl hr⟩
  · exact .inr h

/-- The loud failures of a sub-write that ended are those it handed to its request or its call. -/
theorem loud_iff {w : SubWrite} (h : Started G w) (hb : w.busy = false) :
    Loud G w ↔ w.Refused ∨ w.err ≠ 0 := by
  rw [err_of_ended h hb, SubWrite.Refused, h.res, Loud, or_comm (a := w.waited = false ∧ _),
    or_assoc, or_assoc]

/-- A request whose completer has run has no parts left. -/
theorem ended_of_completed (h : Inv G E t) (hd : t.acc.dead = false) (hc : c < t.acc.reqs.count)
    (hr : (t.acc.reqs.req c).runs ≠ 0) : (∀ w ∈ t.acc.active, w.cid ≠ c) ∧
      (∀ rd ∈ t.acc.inner.reads, rd.cid ≠ c) ∧ (t.acc.reqs.req c).ret ≠ none := by
  have hcount := h.counted hd
  have hz : shares (acceptor G E) readsOf t.acc c = 0 := by
    by_contra hn
    rw [runs_of_counted hcount hc, if_neg hn] at hr
    exact hr rfl
  simp only [shares, Nat.add_eq_zero_iff, List.countP_eq_zero, readsOf, beq_iff_eq] at hz
  refine ⟨fun w hw he => hz.1.1.1.2 w hw he.symm, fun rd hrd he => hz.2 rd hrd he.symm, fun hn => ?_⟩
  obtain ⟨q, hq, rfl⟩ := Option.map_eq_some_iff.mp ((hcount.balanced.ret c hc).mp hn)
  simp [hq] at hz

/-- What a client has been told of a request that is over. -/
theorem tells_iff (h : Inv G E t) (hd : t.acc.dead = false) (hc : c < t.acc.reqs.count)
    (hr : (t.acc.reqs.req c).runs ≠ 0) : Told t c ↔ c ∈ t.turned ∨ Heard G t c := by
  obtain ⟨hact, hreads, hret⟩ := ended_of_completed h hd hc hr
  obtain ⟨v, hv⟩ := Option.ne_none_iff_exists'.mp hret
  have htells := h.reported.tells
  have hbook : ∀ w ∈ t.acc.inner.done, Started G w ∧ w.busy = false := h.jobs.book
  have htold : Told t c ↔ Refusing (acceptor G E) (fun x => x.done) SubWrite.Refused
      (fun c x => readRefused c x ∨ c ∈ t.turned) t.acc c ∨
      Failing (acceptor G E) (fun x => x.done) SubWrite.err readFailed t.acc c := by
    rw [Told, htells.err, ← htells.ret c v hv]
    simp [hv]
  have hhon : ∀ rd ∈ t.acc.inner.served, (rd.query.err ≠ 0 ↔ rd.query.bad = true) := fun rd hrd => by
    have := h.honest rd (.inr hrd)
    unfold Query.Honest at this
    rw [ne_eq, this, Bool.not_eq_false]
  rw [htold]
  constructor
  · rintro ((⟨w, hw | hw, hcid, href⟩ | ⟨rd, hrd | hrd, hcid, hrej⟩ | hturn) |
      (⟨w, hw, hcid, herr⟩ | ⟨rd, hrd, hcid, herr⟩))
    · exact absurd hcid (hact w hw)
    · exact .inr (.inl ⟨w, .inr hw, hcid, (loud_iff (hbook w hw).1 (hbook w hw).2).mpr (.inl href)⟩)
    · exact absurd hcid (hreads rd hrd)
    · exact .inr (.inr ⟨rd, .inr hrd, hcid, .inl hrej⟩)
    · exact .inl hturn
    · exact .inr (.inl ⟨w, .inr hw, hcid, (loud_iff (hbook w hw).1 (hbook w hw).2).mpr (.inr herr)⟩)
    · exact .inr (.inr ⟨rd, .inr hrd, hcid, .inr ((hhon rd hrd).mp herr)⟩)
  · rintro (hturn | ⟨w, hw | hw, hcid, hloud⟩ | ⟨rd, hrd | hrd, hcid, hf⟩)
    · exact .inl (.inr (.inr hturn))
    · exact absurd hcid (hact w hw)
    · obtain href | herr := (loud_iff (hbook w hw).1 (hbook w hw).2).mp hloud
      · exact .inl (.inl ⟨w, .inr hw, hcid, href⟩)
      · exact .inr (.inl ⟨w, hw, hcid, herr⟩)
    · exact absurd hcid (hreads rd hrd)
    · obtain hrej | hbad := hf
      · exact .inl (.inr (.inl ⟨rd, .inr hrd, hcid, hrej⟩))
      · exact .inr (.inr ⟨rd, hrd, hcid, (hhon rd hrd).mpr hbad⟩)

theorem offline_of_told (h : Inv G E t) (hr : (t.acc.reqs.req c).runs ≠ 0) (ht : Told t c) :
    t.online = false := by
  obtain ⟨v, hv, hne⟩ | herr := ht
  · exact h.offline (h.reported.tells.returned c v hv hne)
  · exact h.offline (h.reported.tells.completed c hr herr)

/-- What the property says of request `c`. -/
def Noticed (t : Target) (c : Nat) : Prop := Failed t c → Told t c ∧ t.online = false

theorem noticed_iff (h : Inv G E t) (hd : t.acc.dead = false) (hc : c < t.acc.reqs.count)
    (hr : (t.acc.reqs.req c).runs ≠ 0) :
    Noticed t c ↔ c ∈ t.turned ∨ (Failed t c → Heard G t c) := by
  have htold := tells_iff h hd hc hr
  constructor
  · intro hn
    by_cases hturn : c ∈ t.turned
    · exact .inl hturn
    · exact .inr fun hf => (htold.mp (hn hf).1).resolve_left hturn
  · rintro hor hf
    have ht : Told t c := htold.mpr (hor.imp_right fun h => h hf)
    exact ⟨ht, offline_of_told h hr ht⟩

/-- The step with which the program stops. -/
theorem stop_cases (hs : step G E t l = some u) (hd : u.acc.dead = true) :
    u.acc.active = t.acc.active ∧ u.acc.inner = t.acc.inner ∧
      u.acc.reqs.count = t.acc.reqs.count ∧ u.online = t.online ∧ u.turned = t.turned ∧
      t.acc.dead = false ∧ ∀ c, (u.acc.reqs.req c).ret = (t.acc.reqs.req c).ret ∧
        (u.acc.reqs.req c).err = (t.acc.reqs.req c).err ∧
        (u.acc.reqs.req c).runs = (t.acc.reqs.req c).runs := by
  obtain hs | ⟨-, hs⟩ := step_cases hs
  · obtain ⟨acc, hacc, rfl⟩ := Option.map_eq_some_iff.mp hs
    obtain ⟨h₁, h₂, h₃, h₄, h₅⟩ := same_of_dead hacc hd
    exact ⟨h₁, h₂, h₃, by simp [h₄], rfl, dead_of_step hacc, h₅⟩
  · unfold turnDown at hs
    split at hs
    · rename_i hq
      cases hs
      exact absurd (hq.2.2.symm.trans hd) Bool.false_ne_true
    · cases hs

/-- A request that is over was turned down, or it was reported and took the target offline
exactly if one of its failures, should there be any, is one that is passed on. -/
theorem noticed_run (h : Lts.Run (step G E) (fun _ _ => True) (initial dev₀) t)
    (hc : c < t.acc.reqs.count) (hr : (t.acc.reqs.req c).runs ≠ 0) :
    Noticed t c ↔ c ∈ t.turned ∨ (Failed t c → Heard G t c) := by
  cases hd : t.acc.dead with
  | false => exact noticed_iff (inv_run h) hd hc hr
  | true =>
    cases h with
    | refl => cases hd
    | tail hrun _ hs =>
      obtain ⟨hact, hin, hcount, hon, hturn, hlive, hreq⟩ := stop_cases hs hd
      have := noticed_iff (inv_run hrun) hlive (hcount ▸ hc) ((hreq c).2.2 ▸ hr)
      simpa only [Noticed, Failed, Heard, Told, hact, hin, hon, hturn, hreq] using this

/-- A run of a small target. -/
def afterRun (E : Env) (ls : List (Label WriteReq Act Beside)) : Option Target :=
  Lts.exec (step smallRaid E) (initial fun _ => 0) ls

/-- A rejected strip of a whole stripe is reported. -/
theorem noticed_run_stripeWrite : ∃ t, afterRun secondRejected stripeWriteRun = some t ∧
    Failed t 0 ∧ Told t 0 ∧ t.online = false := by
  obtain ⟨t, ht⟩ : ∃ t, afterRun secondRejected stripeWriteRun = some t :=
    Option.isSome_iff_exists.mp (by decide +kernel)
  have hreqs : (afterRun secondRejected stripeWriteRun).map (fun t => (t.acc.reqs.count,
      (t.acc.reqs.req 0).runs)) = some (1, 1) := by decide +kernel
  have hdone : (afterRun secondRejected stripeWriteRun).map (fun t => t.acc.inner.done.map fun w =>
      (w.cid, w.size, w.waited, (w.query .wqd).rej)) = some [(0, 1024, false, 5)] := by
    decide +kernel
  simp only [ht, Option.map_some, Option.some.injEq, Prod.mk.injEq,
    List.map_eq_singleton_iff] at hreqs hdone
  obtain ⟨hcount, hruns⟩ := hreqs
  obtain ⟨w, hdone, hcid, hsize, hwaited, hrej⟩ := hdone
  have hheard : Heard smallRaid t 0 := by
    refine .inl ⟨w, .inr (by simp [hdone]), hcid, .inr (.inr (.inr ⟨hwaited, ?_⟩))⟩
    rw [if_neg (by rw [hsize]; decide)]
    exact .inl (by simp [hrej])
  have hfailed := failed_of_heard hheard
  exact ⟨t, ht, hfailed, (noticed_run (Lts.run_of_exec (fun _ _ _ => trivial) ht) (by omega)
    (by omega)).mpr (.inr fun _ => hheard) hfailed⟩

/-- The data strip of a partial write on a coherent stripe is rejected. -/
def partRejected : Env where
  beh write i := if write ∧ i = 5 then .refused else .done 0 fun _ => true
  junk _ _ := 0

/-- A stripe is written, then its first strip. -/
def partWriteRun : List (Label WriteReq Act Beside) :=
  stripeWriteRun ++ [.arrive (stripReq 0 fun _ => ⟨1#8⟩), .tick, .tick, .tick, .tick]

/-- A write that never reached the devices is acknowledged. -/
theorem unnoticed : ¬ ∀ (G : Geometry) (E : Env) (dev₀ : Addr → Byte) (t : Target) (c : Nat),
    Lts.Run (step G E) (fun _ _ => True) (initial dev₀) t → c < t.acc.reqs.count →
    (t.acc.reqs.req c).runs ≠ 0 → Failed t c → Told t c ∧ t.online = false := by
  intro h
  obtain ⟨t, ht⟩ : ∃ t, afterRun partRejected partWriteRun = some t :=
    Option.isSome_iff_exists.mp (by decide +kernel)
  have hend : (afterRun partRejected partWriteRun).map (fun t => (t.online, t.acc.reqs.count,
      (t.acc.reqs.req 1).runs, t.acc.inner.done.map fun w => (w.cid, (w.query .wqd).rej))) =
        some (true, 2, 1, [(0, 0), (1, 5)]) := by decide +kernel
  simp only [ht, Option.map_some, Option.some.injEq, Prod.mk.injEq] at hend
  obtain ⟨hon, hcount, hruns, hdone⟩ := hend
  obtain ⟨w, hw, hpair⟩ := List.mem_map.mp (hdone ▸ List.mem_cons_of_mem (0, 0) (.head []))
  obtain ⟨hcid, hrej⟩ := Prod.mk.inj hpair
  have := h smallRaid partRejected _ t 1 (Lts.run_of_exec (fun _ _ _ => trivial) ht) (by omega)
    (by omega) (.inl ⟨w, .inr hw, hcid, .wqd, .inl (by simp [hrej])⟩)
  simp [hon] at this

end Target
end Ublk.Raidsp
