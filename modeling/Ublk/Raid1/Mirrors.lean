import Ublk.Failstop.Report
import Ublk.Raid1.Backend

/-! A byte that no write in flight covers is the same on all the mirrors, unless writes that
overlap were in flight together. -/
namespace Ublk.Raid1

open Failstop

/-- The request writes byte `x`. -/
def Covers (r : Req) (x : Nat) : Prop :=
  r.q.write = true ∧ r.off ≤ x ∧ x < r.off + r.v.len

instance (r : Req) (x : Nat) : Decidable (Covers r x) :=
  inferInstanceAs (Decidable (_ ∧ _))

variable {C : Config} {E : Env} {s t u : State (backend C)} {x i j k m h : Nat} {r : Req} {q : Query}
  {e : Event} {dev dev' dev₀ : Addr → Byte} {hit : Nat → Bool} {c : Int}

/-- No write of byte `x` is in flight. -/
def Settled (x : Nat) (s : State (backend C)) : Prop :=
  ∀ r ∈ s.reqs, Covers r x → r.ended = true

instance (x : Nat) (s : State (backend C)) : Decidable (Settled x s) :=
  inferInstanceAs (Decidable (∀ r ∈ s.reqs, _ → _))

/-- The mirrors hold the same byte `x`. -/
def Agree (C : Config) (x : Nat) (dev : Addr → Byte) : Prop :=
  ∀ h < C.n, ∀ h' < C.n, dev (h, x) = dev (h', x)

/-- What mirrors that succeed do. -/
def Succeeds : Event → Prop
  | .effect _ _ _ => True
  | .settle _ _ e => e = 0

def Fine : Label → Prop
  | .event e => Succeeds e
  | .process _ _ _ _ during => ∀ i, ∀ e ∈ during i, Succeeds e

/-- A write of byte `x` comes only when no other one is in flight. -/
def Lone (x : Nat) (s : State (backend C)) : Label → Prop
  | .event _ => True
  | .process write off v _ _ =>
    write = true → off ≤ x → x < off + v.len → Settled x s

instance (x : Nat) (s : State (backend C)) : (l : Label) → Decidable (Lone x s l)
  | .event _ => isTrue trivial
  | .process write off v _ _ =>
    inferInstanceAs (Decidable (write = true → off ≤ x → x < off + v.len → Settled x s))

/-- The pieces of a write are copies of it. -/
def Shaped (r : Req) : Prop :=
  r.q.write = true → ∀ op ∈ r.q.ops, op.sub.off = r.off ∧ op.sub.pos = 0 ∧ op.sub.len = r.v.len

/-- The byte that `r` writes at `x` is on mirror `h`, or will be. -/
def Reaches (r : Req) (x h : Nat) (dev : Addr → Byte) : Prop :=
  dev (h, x) = r.q.buf (x - r.off) ∨
    ∃ op ∈ r.q.ops, op.sub.hid = h ∧ op.took (x - r.off) = false

/-- At most request `j` writes byte `x`; it is on its way to the first `m` mirrors. -/
structure Good (x j m : Nat) (s : State (backend C)) : Prop where
  lone : ∀ i r, s.reqs[i]? = some r → i ≠ j → Covers r x → r.ended = true
  reaches : ∀ r, s.reqs[j]? = some r → Covers r x → r.ended = false →
    ∀ h < m, Reaches r x h s.disk.dev
  agree : (∀ r, s.reqs[j]? = some r → Covers r x → r.ended = true) → Agree C x s.disk.dev

/-- A piece of another range, or of a read, leaves byte `x` alone. -/
theorem carry_other {p : Sub} (hq : q.write = true → ¬ (p.off ≤ x ∧ x < p.off + p.len)) :
    (q.carry p hit dev).2 (h, x) = dev (h, x) := by
  unfold Query.carry
  split
  · rename_i hw
    exact if_neg fun hn => hq hw ⟨hn.2.1, hn.2.2.1⟩
  · rfl

/-- The bytes of a copy that take effect. -/
theorem carry_copy {p : Sub} (hw : q.write = true) (hpos : p.pos = 0) (hlo : p.off ≤ x)
    (hhi : x < p.off + p.len) : (q.carry p hit dev).2 (h, x) =
      if h = p.hid ∧ hit (x - p.off) = true then q.buf (x - p.off) else dev (h, x) := by
  rw [Query.carry, if_pos hw]
  dsimp only
  by_cases hc : h = p.hid ∧ hit (x - p.off) = true
  · rw [if_pos hc, if_pos ⟨hc.1, hlo, hhi, hc.2⟩, hpos, Nat.zero_add]
  · rw [if_neg hc, if_neg fun hn => hc ⟨hn.1, hn.2.2.2⟩]

/-- A byte on its way stays so until it is there. -/
theorem reaches_effect (hs : Shaped r) (hx : Covers r x) (hr : Reaches r x h dev)
    (he : r.q.effect k hit dev = some (q, dev')) : Reaches { r with q } x h dev' := by
  obtain ⟨op, hop, rfl, rfl⟩ := Query.effect_eq he
  obtain ⟨hw, hlo, hhi⟩ := hx
  obtain ⟨hlt, rfl⟩ := List.getElem?_eq_some_iff.mp hop
  obtain ⟨hoff, hpos, hlen⟩ := hs hw _ (List.getElem_mem hlt)
  have hcopy := @carry_copy x h r.q dev (fun i => hit i && !r.q.ops[k].took i) r.q.ops[k].sub hw hpos
    (by omega) (by omega)
  rw [hoff] at hcopy
  by_cases hc : h = r.q.ops[k].sub.hid ∧
      (hit (x - r.off) && !r.q.ops[k].took (x - r.off)) = true
  · rw [if_pos hc] at hcopy
    exact .inl (hcopy.trans (congrFun (Query.buf_carry_of_write hw).symm _))
  · rw [if_neg hc] at hcopy
    obtain hr | ⟨op, hop', hhid, htook⟩ := hr
    · exact .inl (hcopy.trans (hr.trans (congrFun (Query.buf_carry_of_write hw).symm _)))
    · obtain ⟨i, hi, rfl⟩ := List.mem_iff_getElem.mp hop'
      by_cases hik : i = k
      · subst hik
        have hhit : hit (x - r.off) = false := by
          by_contra hn
          exact hc ⟨hhid.symm, by simpa [htook] using hn⟩
        exact .inr ⟨_, List.mem_set hlt _, hhid, by simp [htook, hhit]⟩
      · refine .inr ⟨r.q.ops[i], ?_, hhid, htook⟩
        exact List.mem_iff_getElem.mpr ⟨i, by simpa using hi, by simp [Ne.symm hik]⟩

theorem reaches_settle (hs : Shaped r) (hx : Covers r x) (hr : Reaches r x h dev)
    (he : r.q.settle k 0 = some q) : Reaches { r with q } x h dev := by
  obtain ⟨op, hop, htook, rfl⟩ := Query.settle_eq he
  obtain ⟨hlt, rfl⟩ := List.getElem?_eq_some_iff.mp hop
  obtain ⟨hoff, hpos, hlen⟩ := hs hx.1 _ (List.getElem_mem hlt)
  obtain hr | ⟨op, hop', hhid, ht⟩ := hr
  · exact .inl hr
  · obtain rfl | hop' :=
      List.mem_cons.mp ((List.getElem_cons_eraseIdx_perm hlt).mem_iff.mpr hop')
    · have := htook rfl (x - r.off) (by have := hx.2; omega)
      exact absurd (ht.symm.trans this) (by simp)
    · exact .inr ⟨op, hop', hhid, ht⟩

@[simp] theorem covers_finish : Covers r.finish x ↔ Covers r x := by
  unfold Req.finish
  split <;> exact Iff.rfl

theorem reaches_finish : Reaches r.finish x h dev ↔ Reaches r x h dev := by
  unfold Req.finish
  split <;> exact Iff.rfl

variable {disk : Disk} {r' : Req}

theorem good_put_other (hg : Good x j m s) (hr : s.reqs[i]? = some r) (hx : ¬ Covers r x)
    (hx' : ¬ Covers r' x) (hdev : ∀ h, disk.dev (h, x) = s.disk.dev (h, x)) :
    Good x j m (({ s with disk }).put i r') := by
  obtain ⟨hlt, -⟩ := List.getElem?_eq_some_iff.mp hr
  have hget : ∀ (y : Req) (l : Nat), (s.reqs.set i r'.finish)[l]? = some y →
      Covers y x → s.reqs[l]? = some y := by
    intro y l hy hc
    by_cases hil : i = l
    · subst hil
      rw [List.getElem?_set_self hlt] at hy
      cases hy
      exact absurd (covers_finish.mp hc) hx'
    · rwa [List.getElem?_set_ne hil] at hy
  refine ⟨fun l y hy hl hc => hg.lone l y (hget y l hy hc) hl hc, fun y hy hc ho h hh => ?_,
    fun hall => ?_⟩
  · obtain hreach | hreach := hg.reaches y (hget y j hy hc) hc ho h hh
    · exact .inl ((hdev h).trans hreach)
    · exact .inr hreach
  · have hagree := hg.agree fun y hy hc => hall y ?_ hc
    · intro a ha b hb
      exact (hdev a).trans ((hagree a ha b hb).trans (hdev b).symm)
    · by_cases hij : i = j
      · subst hij
        cases hr.symm.trans hy
        exact absurd hc hx
      · exact (List.getElem?_set_ne hij).trans hy

theorem good_put_self (hg : Good x j m s) (hr : s.reqs[j]? = some r)
    (hreach : ∀ h < k, Reaches r' x h disk.dev)
    (hagree : r'.finish.ended = true → Agree C x disk.dev) (hx' : Covers r' x) :
    Good x j k (({ s with disk }).put j r') := by
  obtain ⟨hlt, -⟩ := List.getElem?_eq_some_iff.mp hr
  have hself : (s.reqs.set j r'.finish)[j]? = some r'.finish := List.getElem?_set_self hlt
  refine ⟨fun l y hy hl hc => ?_, fun y hy _ _ h hh => ?_, fun hall => ?_⟩
  · have hy : (s.reqs.set j r'.finish)[l]? = some y := hy
    rw [List.getElem?_set_ne (Ne.symm hl)] at hy
    exact hg.lone l y hy hl hc
  · cases hself.symm.trans hy
    exact reaches_finish.mpr (hreach h hh)
  · exact hagree (hall _ hself (covers_finish.mpr hx'))

/-- What has reached all the mirrors and is under way to none is the same on all. -/
theorem agree_of_reaches (hops : r.q.ops = []) (hr : ∀ h < C.n, Reaches r x h dev) :
    Agree C x dev := by
  have hbuf : ∀ h < C.n, dev (h, x) = r.q.buf (x - r.off) := by
    intro h hh
    obtain hb | ⟨op, hop, -⟩ := hr h hh
    · exact hb
    · simp [hops] at hop
  exact fun a ha b hb => (hbuf a ha).trans (hbuf b hb).symm

/-- What holds while the action of request `k` is under way, if nothing fails. -/
structure Healthy (k : Nat) (s : State (backend C)) : Prop where
  inv : Inv k s
  online : s.online = true
  queued : s.queued = false
  clean : ∀ r ∈ s.reqs, r.q.Clean
  shaped : ∀ r ∈ s.reqs, Shaped r

theorem healthy_put (h : Healthy k s) (hinv : Inv k (({ s with disk }).put i r)) (hc : r.q.Clean)
    (hhon : r.q.Honest) (hs : Shaped r) : Healthy k (({ s with disk }).put i r) := by
  have herr : r.q.err = 0 := hhon.mpr hc.2
  refine ⟨hinv, h.online, ?_, fun y hy => ?_, fun y hy => ?_⟩
  · simp [State.put, h.queued, herr]
  all_goals obtain hy | rfl := List.mem_or_eq_of_mem_set hy
  · exact h.clean y hy
  · simpa using hc
  · exact h.shaped y hy
  · unfold Req.finish
    split <;> exact hs

/-- An event changes the subquery of its request, and the bytes where the subquery leads. -/
theorem event_eq (h : s.event e = some t) (he : Succeeds e) : ∃ (i : Nat) (r : Req) (q : Query)
    (disk : Disk), s.reqs[i]? = some r ∧ t = ({ s with disk }).put i { r with q } ∧
      r.q.ops ≠ [] ∧ q.write = r.q.write ∧ (r.q.Clean → q.Clean) ∧ (r.q.Honest → q.Honest) ∧
      (Shaped r → Shaped { r with q } ∧
        (∀ x h, ¬ Covers r x → disk.dev (h, x) = s.disk.dev (h, x)) ∧
        ∀ x h, Covers r x → Reaches r x h s.disk.dev → Reaches { r with q } x h disk.dev) := by
  cases e with
  | effect i j hit =>
    obtain ⟨r, hr, h⟩ := Option.bind_eq_some_iff.mp h
    obtain ⟨⟨q, dev⟩, hq, h⟩ := Option.bind_eq_some_iff.mp h
    cases h
    obtain ⟨hw, hrej, herr, hbad, hops, -⟩ := Query.effect_keeps hq
    obtain ⟨op, hop, hq', hdev⟩ := Query.effect_eq hq
    refine ⟨i, r, q, { s.disk with dev }, hr, rfl, fun hn => by simp [hn] at hop, hw,
      fun hc => ⟨hrej.trans hc.1, hbad.trans hc.2⟩, Query.honest_of_eq herr hbad, fun hs =>
      ⟨fun hw' y hy => ?_, fun x h hx => ?_, fun x h hx hr => reaches_effect hs hx hr hq⟩⟩
    · rw [hq'] at hy
      have hw' : r.q.write = true := hw.symm.trans hw'
      obtain hy | rfl := List.mem_or_eq_of_mem_set hy
      · exact hs hw' y hy
      · exact hs hw' op (List.mem_of_getElem? hop)
    · rw [hdev]
      refine carry_other fun hw' hn => hx ⟨hw', ?_⟩
      obtain ⟨hoff, -, hlen⟩ := hs hw' op (List.mem_of_getElem? hop)
      rwa [hoff, hlen] at hn
  | settle i j e =>
    obtain ⟨r, hr, h⟩ := Option.bind_eq_some_iff.mp h
    obtain ⟨q, hq, h⟩ := Option.bind_eq_some_iff.mp h
    cases h
    have he : e = 0 := he
    subst he
    obtain ⟨hops, hw, hrej, hbuf, hbad⟩ := Query.settle_keeps hq
    obtain ⟨op, -, -, hq'⟩ := Query.settle_eq hq
    refine ⟨i, r, q, s.disk, hr, rfl, hops, hw, fun hc => ⟨hrej.trans hc.1, hbad.mpr ⟨rfl, hc.2⟩⟩,
      fun hh => Query.honest_settle hh hq, fun hs => ⟨fun hw' y hy => ?_, fun _ _ _ => rfl,
      fun x h hx hr => reaches_settle hs hx hr hq⟩⟩
    rw [hq'] at hy
    exact hs (hw.symm.trans hw') y (List.mem_of_mem_eraseIdx (by simpa using hy))

/-- Request `j` is still being processed, or has gone to all the mirrors. -/
def Far (j m : Nat) (s : State (backend C)) : Prop :=
  m = C.n ∨ ∀ r, s.reqs[j]? = some r → r.ret = none

theorem ended_finish (h : r.ended = false) (ho : r.finish.ended = true) :
    r.ret.isSome ∧ r.q.ops = [] := by
  unfold Req.finish at ho
  split at ho
  · rename_i hd
    exact ⟨hd.1, hd.2.1⟩
  · exact absurd (h.symm.trans ho) (by simp)

theorem good_event (hk : Healthy k s) (hg : Good x j m s) (hfar : Far j m s)
    (h : s.event e = some t) (he : Succeeds e) : Good x j m t := by
  obtain ⟨i, r, q, disk, hr, rfl, hops, hw, -, -, hshape⟩ := event_eq h he
  obtain ⟨-, hother, hreach⟩ := hshape (hk.shaped r (List.mem_of_getElem? hr))
  by_cases hx : Covers r x
  · have hover : r.ended = false := by
      cases ho : r.ended with
      | false => rfl
      | true => exact absurd ((hk.inv.sound r (List.mem_of_getElem? hr)).ended.mp ho).2 hops
    have hij : i = j := by
      by_contra hij
      exact absurd (hover.symm.trans (hg.lone i r hr hij hx)) (by simp)
    subst hij
    have hreaches : ∀ h < m, Reaches { r with q } x h disk.dev := fun h hh =>
      hreach x h hx (hg.reaches r hr hx hover h hh)
    refine good_put_self hg hr hreaches (fun ho => ?_) ⟨hw.trans hx.1, hx.2⟩
    obtain ⟨hret, hops⟩ := ended_finish (r := { r with q }) hover ho
    obtain rfl | hfar := hfar
    · exact agree_of_reaches hops hreaches
    · simp [hfar r hr] at hret
  · exact good_put_other hg hr hx (fun hc => hx ⟨hw.symm.trans hc.1, hc.2⟩) fun h => hother x h hx

theorem healthy_event (hk : Healthy k s) (h : s.event e = some t) (he : Succeeds e) :
    Healthy k t := by
  have hinv := inv_event hk.inv h
  obtain ⟨i, r, q, disk, hr, rfl, -, -, hclean, hhon, hshape⟩ := event_eq h he
  have hmem := List.mem_of_getElem? hr
  exact healthy_put hk hinv (hclean (hk.clean r hmem)) (hhon (hk.inv.sound r hmem).honest)
    (hshape (hk.shaped r hmem)).1

/-- A piece of `r` that is a copy of it, if `r` is a write. -/
def Copy (r : Req) (p : Sub) : Prop :=
  r.q.write = true → p.off = r.off ∧ p.pos = 0 ∧ p.len = r.v.len

variable {p : Sub} {d : Disk}

theorem reaches_submit (hE : ∀ b i, (E.beh b i).Succeeds) (hp : Copy r p) (hx : Covers r x) :
    (∀ h, Reaches r x h d.dev → Reaches { r with q := (r.q.submit E p d).2.1 } x h
      (r.q.submit E p d).2.2.dev) ∧
    Reaches { r with q := (r.q.submit E p d).2.1 } x p.hid (r.q.submit E p d).2.2.dev := by
  obtain ⟨hw, hlo, hhi⟩ := hx
  obtain ⟨hoff, hpos, hlen⟩ := hp hw
  have hsucc := hE r.q.write d.next
  unfold Query.submit
  cases hb : E.beh r.q.write d.next with
  | reject e he =>
    rw [hb] at hsucc
    exact hsucc.elim
  | held =>
    refine ⟨fun h hr => ?_, .inr ⟨_, List.mem_append_right _ (.head _), rfl, rfl⟩⟩
    obtain hr | ⟨op, hop, hr⟩ := hr
    · exact .inl hr
    · exact .inr ⟨op, List.mem_append_left _ hop, hr⟩
  | done e hit =>
    rw [hb] at hsucc
    have he : e = 0 := hsucc
    subst he
    have hcopy := fun h =>
      @carry_copy x h r.q d.dev (fun i => (0 : Int) == 0 || hit i) p hw hpos (by omega) (by omega)
    rw [hoff] at hcopy
    simp only [beq_self_eq_true, Bool.true_or, and_true] at hcopy
    have hbuf : ∀ y, ((r.q.carry p (fun i => (0 : Int) == 0 || hit i) d.dev).1.setErr 0).buf y =
        r.q.buf y := fun y => by rw [Query.buf_setErr, Query.buf_carry_of_write hw]
    refine ⟨fun h hr => ?_, .inl ?_⟩
    · by_cases hh : h = p.hid
      · exact .inl ((hcopy h).trans ((if_pos hh).trans (hbuf _).symm))
      · obtain hr | ⟨op, hop, hr⟩ := hr
        · exact .inl ((hcopy h).trans ((if_neg hh).trans (hr.trans (hbuf _).symm)))
        · exact .inr ⟨op, by simpa using hop, hr⟩
    · exact (hcopy p.hid).trans ((if_pos rfl).trans (hbuf _).symm)

theorem dev_submit_other (hp : Copy r p) (hx : ¬ Covers r x) :
    (r.q.submit E p d).2.2.dev (h, x) = d.dev (h, x) := by
  unfold Query.submit
  split
  · rfl
  · rfl
  · refine carry_other fun hw hn => hx ⟨hw, ?_⟩
    obtain ⟨hoff, -, hlen⟩ := hp hw
    rwa [hoff, hlen] at hn

theorem shaped_submit (hs : Shaped r) (hp : Copy r p) :
    Shaped { r with q := (r.q.submit E p d).2.1 } := by
  intro hw' op hop
  have hw : r.q.write = true := by simpa using hw'
  have hop : op ∈ r.q.ops ∨ op.sub = p := by
    unfold Query.submit at hop
    split at hop
    · exact .inl hop
    · obtain hop | hop := List.mem_append.mp hop
      · exact .inl hop
      · rw [List.mem_singleton.mp hop]
        exact .inr rfl
    · exact .inl (by simpa using hop)
  obtain hop | rfl := hop
  · exact hs hw op hop
  · exact hp hw

/-- The request being processed is the write or the read it was made as. -/
def Made (k : Nat) (w : Bool) (off : Nat) (v : Span) (s : State (backend C)) : Prop :=
  ∀ r, s.reqs[k]? = some r → r.q.write = w ∧ r.off = off ∧ r.v = v

variable {w : Bool} {off : Nat} {v : Span}

theorem made_put (hm : Made k w off v s) (hr : s.reqs[i]? = some r) (hw : q.write = r.q.write) :
    Made k w off v (({ s with disk }).put i { r with q }) := by
  intro y hy
  have hy : (s.reqs.set i _)[k]? = some y := hy
  by_cases hik : i = k
  · subst hik
    rw [List.getElem?_set_self (List.getElem?_eq_some_iff.mp hr).1] at hy
    cases hy
    have := hm r hr
    unfold Req.finish
    split <;> exact ⟨hw.trans this.1, this.2⟩
  · exact hm y (by rwa [List.getElem?_set_ne hik] at hy)

/-- What holds in the loop of `process`, if nothing fails. -/
structure Looping (k : Nat) (w : Bool) (off : Nat) (v : Span) (s : State (backend C)) : Prop where
  healthy : Healthy k s
  running : Running k 0 s
  made : Made k w off v s

theorem looping_event (hl : Looping k w off v s) (h : s.event e = some t) (he : Succeeds e) :
    Looping k w off v t := by
  refine ⟨healthy_event hl.healthy h he, running_event hl.running h, ?_⟩
  obtain ⟨i, r, q, disk, hr, rfl, -, hw, -⟩ := event_eq h he
  exact made_put hl.made hr hw

theorem looping_submit (hE : ∀ b i, (E.beh b i).Succeeds) (hl : Looping k w off v s)
    (hp : w = true → p.off = off ∧ p.pos = 0 ∧ p.len = v.len)
    (h : s.submit E k p = some (c, t)) : c = 0 ∧ Looping k w off v t ∧
      (∀ j, (w = true → ¬ (off ≤ x ∧ x < off + v.len)) → Good x j m s → Good x j m t) ∧
      (w = true → off ≤ x → x < off + v.len → p.hid = m → Good x k m s → Good x k (m + 1) t) := by
  obtain ⟨hinv, hrun⟩ := inv_submit hl.healthy.inv hl.running h
  obtain ⟨r, hr, rfl, rfl⟩ := submit_cases h
  have hmem := List.mem_of_getElem? hr
  obtain ⟨rfl, rfl, rfl⟩ := hl.made r hr
  obtain ⟨hzero, hclean⟩ := Query.clean_submit (s := p) (d := s.disk) (hE _ _)
    (hl.healthy.clean r hmem)
  rw [hzero] at hrun
  have hover : r.ended = false := by
    obtain ⟨y, hy, hret, -⟩ := hl.running
    cases hr.symm.trans hy
    exact (Req.live_of_sound (hl.healthy.inv.sound r hmem) (.inl hret)).ended
  refine ⟨hzero, ⟨healthy_put hl.healthy hinv hclean
    (Query.honest_submit (hl.healthy.inv.sound r hmem).honest)
    (shaped_submit (hl.healthy.shaped r hmem) hp), hrun, made_put hl.made hr Query.write_submit⟩,
    fun j hx hg => ?_, fun hw hlo hhi hm hg => ?_⟩
  · have hx : ¬ Covers r x := fun hc => hx hc.1 hc.2
    exact good_put_other hg hr hx (fun hc => hx ⟨by simpa using hc.1, hc.2⟩)
      fun h => dev_submit_other hp hx
  · have hx : Covers r x := ⟨hw, hlo, hhi⟩
    obtain ⟨hkeep, hnew⟩ := reaches_submit (d := s.disk) hE hp hx
    refine good_put_self hg hr (fun h hh => ?_) (fun ho => ?_) ⟨by simpa using hw, hlo, hhi⟩
    · obtain hh | rfl := Nat.lt_succ_iff_lt_or_eq.mp hh
      · exact hkeep h (hg.reaches r hr hx hover h hh)
      · rw [← hm]
        exact hnew
    · obtain ⟨hret, -⟩ := ended_finish (r := { r with q := (r.q.submit E p s.disk).2.1 }) hover ho
      obtain ⟨y, hy, hnone, -⟩ := hl.running
      cases hr.symm.trans hy
      simp [hnone] at hret

variable {during : Nat → List Event} {route : List (Sub × Fin C.n)} {buf : Nat → Byte}

theorem looping_events (hd : ∀ e ∈ during i, Succeeds e) (hl : Looping k w off v s)
    (h : s.events (during i) = some t) : Looping k w off v t ∧
      ∀ j, (m = C.n ∨ j = k) → Good x j m s → Good x j m t := by
  have hfar : ∀ {j : Nat} {s : State (backend C)}, Looping k w off v s → (m = C.n ∨ j = k) →
      Far j m s := by
    intro j s hl hj
    refine hj.imp_right fun hj r hr => ?_
    obtain ⟨y, hy, hret, -⟩ := hl.running
    cases (hj ▸ hr).symm.trans hy
    exact hret
  refine ⟨events_keep (P := Looping k w off v)
    (fun e he _ _ hl h => looping_event hl h (hd e he)) hl h, fun j hj hg => ?_⟩
  exact (events_keep (P := fun s : State (backend C) => Looping k w off v s ∧ Good x j m s)
    (fun e he _ _ hs h => ⟨looping_event hs.1 h (hd e he),
      good_event hs.1.healthy hs.2 (hfar hs.1 hj) h (hd e he)⟩) ⟨hl, hg⟩ h).2

theorem looping_inner {inner : Fin C.n} (hl : Looping k w off v s) :
    Looping k w off v { s with inner } :=
  ⟨⟨⟨hl.healthy.inv.sound, hl.healthy.inv.returned, hl.healthy.inv.alarm⟩, hl.healthy.online,
    hl.healthy.queued, hl.healthy.clean, hl.healthy.shaped⟩, hl.running, hl.made⟩

theorem good_inner {inner : Fin C.n} (hg : Good x j m s) : Good x j m { s with inner } :=
  ⟨hg.lone, hg.reaches, hg.agree⟩

theorem looping_forward (hE : ∀ b i, (E.beh b i).Succeeds)
    (hd : ∀ i, ∀ e ∈ during i, Succeeds e)
    (hr : ∀ p ∈ route, w = true → p.1.off = off ∧ p.1.pos = 0 ∧ p.1.len = v.len)
    (hl : Looping k w off v s) (h : s.forward E k during route i = some (c, t)) :
    c = 0 ∧ Looping k w off v t := by
  induction route generalizing i s with
  | nil =>
    cases h
    exact ⟨rfl, hl⟩
  | cons p route ih =>
    obtain ⟨s₁, h₁, h⟩ := Option.bind_eq_some_iff.mp h
    obtain ⟨⟨c₁, s₂⟩, h₂, h⟩ := Option.bind_eq_some_iff.mp h
    have hl₁ := (looping_events (x := 0) (m := 0) (hd i) hl h₁).1
    obtain ⟨rfl, hl₂, -⟩ := looping_submit (x := 0) (m := 0) hE hl₁ (hr p (.head _)) h₂
    exact ih (fun y hy => hr y (.tail _ hy)) (looping_inner hl₂) h

/-- A request that does not write byte `x` goes by. -/
theorem good_forward_other (hE : ∀ b i, (E.beh b i).Succeeds)
    (hd : ∀ i, ∀ e ∈ during i, Succeeds e)
    (hr : ∀ p ∈ route, w = true → p.1.off = off ∧ p.1.pos = 0 ∧ p.1.len = v.len)
    (hx : w = true → ¬ (off ≤ x ∧ x < off + v.len)) (hl : Looping k w off v s)
    (hg : Good x j C.n s) (h : s.forward E k during route i = some (c, t)) :
    Good x j C.n t := by
  induction route generalizing i s with
  | nil =>
    cases h
    exact hg
  | cons p route ih =>
    obtain ⟨s₁, h₁, h⟩ := Option.bind_eq_some_iff.mp h
    obtain ⟨⟨c₁, s₂⟩, h₂, h⟩ := Option.bind_eq_some_iff.mp h
    obtain ⟨hl₁, hg₁⟩ := looping_events (hd i) hl h₁
    obtain ⟨rfl, hl₂, hg₂, -⟩ := looping_submit hE hl₁ (hr p (.head _)) h₂
    exact ih (fun y hy => hr y (.tail _ hy)) (looping_inner hl₂)
      (good_inner (hg₂ j hx (hg₁ j (.inl rfl) hg))) h

/-- A write of byte `x` goes to one mirror after the other. -/
theorem good_forward_copies {l : Nat} {hid : Fin C.n} (hE : ∀ b i, (E.beh b i).Succeeds)
    (hd : ∀ i, ∀ e ∈ during i, Succeeds e) (hlo : off ≤ x) (hhi : x < off + v.len)
    (hl : Looping k true off v s) (hg : Good x k m s)
    (h : s.forward E k during ((List.range' m l).map fun h => (⟨h, off, 0, v.len⟩, hid)) i =
      some (c, t)) : Good x k (m + l) t := by
  induction l generalizing i m s with
  | zero =>
    cases h
    exact hg
  | succ l ih =>
    obtain ⟨s₁, h₁, h⟩ := Option.bind_eq_some_iff.mp h
    obtain ⟨⟨c₁, s₂⟩, h₂, h⟩ := Option.bind_eq_some_iff.mp h
    obtain ⟨hl₁, hg₁⟩ := looping_events (x := x) (m := m) (hd i) hl h₁
    obtain ⟨rfl, hl₂, -, hg₂⟩ := looping_submit hE hl₁ (fun _ => ⟨rfl, rfl, rfl⟩) h₂
    have := ih (looping_inner hl₂) (good_inner (hg₂ rfl hlo hhi rfl (hg₁ k (.inr rfl) hg))) h
    rwa [Nat.add_right_comm] at this

/-- The state a request finds, with the request in it. -/
theorem looping_enter (hk : Healthy s.reqs.length s) :
    Looping s.reqs.length w off v (s.enter w off v buf) := by
  have hmem : ∀ r ∈ (s.enter w off v buf).reqs, r ∈ s.reqs ∨ r.q = ⟨w, buf, [], 0, 0, false⟩ := by
    intro r hr
    obtain hr | hr := List.mem_append.mp hr
    · exact .inl hr
    · rw [List.mem_singleton.mp hr]
      exact .inr rfl
  refine ⟨⟨inv_enter ⟨hk.inv, hk.queued⟩, hk.online, hk.queued, fun r hr => ?_, fun r hr => ?_⟩,
    ⟨_, entered, rfl, by simp [hk.online], rfl⟩, fun r hr => ?_⟩
  · obtain hr | hr := hmem r hr
    · exact hk.clean r hr
    · rw [hr]
      exact ⟨rfl, rfl⟩
  · obtain hr | hr := hmem r hr
    · exact hk.shaped r hr
    · intro _ op hop
      simp [hr] at hop
  · cases entered.symm.trans hr
    exact ⟨rfl, rfl, rfl⟩

/-- Only the new request may be in flight at byte `x`. -/
theorem good_enter_self (hx : Settled x s) (hw : w = true) (hlo : off ≤ x) (hhi : x < off + v.len) :
    Good x s.reqs.length 0 (s.enter w off v buf) := by
  refine ⟨fun i r hr hi hc => ?_, fun _ _ _ _ h hh => absurd hh (Nat.not_lt_zero h), fun hall => ?_⟩
  · have hr : (s.reqs ++ [_])[i]? = some r := hr
    obtain ⟨hlt, -⟩ := List.getElem?_eq_some_iff.mp hr
    rw [List.length_append, List.length_singleton] at hlt
    rw [List.getElem?_append_left (by omega)] at hr
    exact hx r (List.mem_of_getElem? hr) hc
  · exact absurd (hall _ entered ⟨hw, hlo, hhi⟩) (by simp)

theorem good_enter_other (hg : Good x j C.n s) (hx : w = true → ¬ (off ≤ x ∧ x < off + v.len)) :
    Good x j C.n (s.enter w off v buf) := by
  have hold : ∀ (i : Nat) (r : Req), (s.enter w off v buf).reqs[i]? = some r → Covers r x →
      s.reqs[i]? = some r := by
    intro i r hr hc
    have hr : (s.reqs ++ [_])[i]? = some r := hr
    by_cases hlt : i < s.reqs.length
    · rwa [List.getElem?_append_left hlt] at hr
    · have hlen := (List.getElem?_eq_some_iff.mp hr).1
      rw [List.length_append, List.length_singleton] at hlen
      obtain rfl : i = s.reqs.length := by omega
      cases entered.symm.trans hr
      exact absurd hc.2 (hx hc.1)
  refine ⟨fun i r hr hi hc => hg.lone i r (hold i r hr hc) hi hc,
    fun r hr hc ho h hh => hg.reaches r (hold j r hr hc) hc ho h hh, fun hall => ?_⟩
  refine hg.agree fun r hr hc => hall r ?_ hc
  exact (List.getElem?_append_left (List.getElem?_eq_some_iff.mp hr).1).trans hr

theorem drain_eq (ho : s.online = true) (hq : s.queued = false) : s.drain = s := by
  cases s
  simp_all [State.drain]

theorem good_returned (hl : Looping k w off v s) (hg : Good x j C.n s)
    (h : s.returned k 0 = some t) : Good x j C.n t := by
  obtain ⟨r, hr, rfl⟩ := returned_cases h
  by_cases hx : Covers r x
  · have hover : r.ended = false := by
      obtain ⟨y, hy, hret, -⟩ := hl.running
      cases hr.symm.trans hy
      exact (Req.live_of_sound (hl.healthy.inv.sound r (List.mem_of_getElem? hr)) (.inl hret)).ended
    have hkj : k = j := by
      by_contra hkj
      exact absurd (hover.symm.trans (hg.lone k r hr hkj hx)) (by simp)
    subst hkj
    have hreaches := hg.reaches r hr hx hover
    have hput := @good_put_self C s x k C.n C.n r s.disk { r with ret := some 0 } hg hr hreaches
      (fun ho => agree_of_reaches (ended_finish (r := { r with ret := some 0 }) hover ho).2 hreaches)
      hx
    exact ⟨hput.lone, hput.reaches, hput.agree⟩
  · have hput := @good_put_other C s x k j C.n r s.disk { r with ret := some 0 } hg hr hx hx
      fun _ => rfl
    exact ⟨hput.lone, hput.reaches, hput.agree⟩

theorem healthy_returned (hl : Looping k w off v s) (ht : Rest t) (h : s.returned k 0 = some t) :
    Healthy t.reqs.length t := by
  obtain ⟨r, hr, rfl⟩ := returned_cases h
  have hmem := List.mem_of_getElem? hr
  have herr : r.q.err = 0 :=
    (hl.healthy.inv.sound r hmem).honest.mpr (hl.healthy.clean r hmem).2
  refine ⟨ht.1, ?_, rfl, fun y hy => ?_, fun y hy => ?_⟩
  · simp [State.drain, State.put, hl.healthy.online, hl.healthy.queued, herr]
  all_goals obtain hy | rfl := List.mem_or_eq_of_mem_set hy
  · exact hl.healthy.clean y hy
  · simpa using hl.healthy.clean r hmem
  · exact hl.healthy.shaped y hy
  · have := hl.healthy.shaped r hmem
    unfold Req.finish
    split <;> exact this

/-- The copies of a write are its pieces. -/
theorem copy_of_route {hid : Fin C.n} (h : Raid1.route C hid w off v = some route) :
    ∀ p ∈ route, w = true → p.1.off = off ∧ p.1.pos = 0 ∧ p.1.len = v.len := by
  rintro p hp rfl
  cases h
  obtain ⟨h, -, rfl⟩ := List.mem_map.mp hp
  exact ⟨rfl, rfl, rfl⟩

/-- A request that comes when no other write of byte `x` is in flight, if it writes byte `x`. -/
theorem process_eq (hE : ∀ b i, (E.beh b i).Succeeds) (hd : ∀ i, ∀ e ∈ during i, Succeeds e)
    (hk : Healthy s.reqs.length s) (h : s.process E w off v buf during = some t) :
    Healthy t.reqs.length t ∧
      (∀ j, (w = true → ¬ (off ≤ x ∧ x < off + v.len)) → Good x j C.n s → Good x j C.n t) ∧
      (w = true → off ≤ x → x < off + v.len → Settled x s → Good x s.reqs.length C.n t) := by
  have ht := rest_process ⟨hk.inv, hk.queued⟩ h
  obtain ⟨v', hv, ⟨-, c, u, hu, hret⟩ | ⟨ho, -⟩⟩ := process_cases h
  · obtain ⟨route, u, hroute, hf, rfl⟩ := action_cases hu
    obtain rfl : v' = v := Span.eq_of_subquery hv
    have hloop : Looping s.reqs.length w off v' (s.enter w off v' buf) := looping_enter hk
    have hcopy := copy_of_route (C := C) hroute
    obtain ⟨rfl, hl⟩ := looping_forward hE hd hcopy hloop hf
    have hu : State.drain { u with queued := u.queued || decide ((0 : Int) ≠ 0) } = u := by
      have := drain_eq hl.healthy.online hl.healthy.queued
      simpa using this
    rw [hu] at hret
    refine ⟨healthy_returned hl ht hret, fun j hx hg => ?_, fun hw hlo hhi hx => ?_⟩
    · exact good_returned hl (good_forward_other hE hd hcopy hx hloop (good_enter_other hg hx) hf)
        hret
    · subst hw
      cases hroute
      have hf : State.forward E _ during (copies C off v' s.inner) 0 _ = some (0, u) := hf
      unfold copies at hf
      rw [List.range_eq_range'] at hf
      have hg := good_forward_copies hE hd hlo hhi hloop (good_enter_self hx rfl hlo hhi) hf
      rw [Nat.zero_add] at hg
      exact good_returned hl hg hret
  · exact absurd (hk.online.symm.trans ho) (by simp)

theorem healthy_step (hE : ∀ b i, (E.beh b i).Succeeds) (hk : Healthy s.reqs.length s)
    {l : Label} (hl : Fine l) (h : s.step E l = some t) : Healthy t.reqs.length t := by
  cases l with
  | event e =>
    obtain ⟨u, hu, rfl⟩ := Option.map_eq_some_iff.mp h
    have hk' := healthy_event hk hu hl
    rw [drain_eq hk'.online hk'.queued, length_event hu]
    exact hk'
  | process w off v buf during => exact (process_eq (x := 0) hE hl hk h).1

theorem good_step (hE : ∀ b i, (E.beh b i).Succeeds) (hk : Healthy s.reqs.length s)
    (hg : Good x j C.n s) {l : Label} (hl : Fine l) (hx : Lone x s l) (h : s.step E l = some t) :
    ∃ j, Good x j C.n t := by
  cases l with
  | event e =>
    obtain ⟨u, hu, rfl⟩ := Option.map_eq_some_iff.mp h
    have hk' := healthy_event hk hu hl
    rw [drain_eq hk'.online hk'.queued]
    exact ⟨j, good_event hk hg (.inl rfl) hu hl⟩
  | process w off v buf during =>
    obtain ⟨-, hother, hself⟩ := process_eq (x := x) hE hl hk h
    by_cases hc : w = true ∧ off ≤ x ∧ x < off + v.len
    · exact ⟨_, hself hc.1 hc.2.1 hc.2.2 (hx hc.1 hc.2.1 hc.2.2)⟩
    · exact ⟨j, hother j (fun hw hb => hc ⟨hw, hb⟩) hg⟩

theorem healthy_initial : Healthy 0 (State.initial (backend C) dev₀) :=
  ⟨inv_initial, rfl, rfl, by simp [State.initial], by simp [State.initial]⟩

theorem good_initial (h : Agree C x dev₀) : Good x 0 C.n (State.initial (backend C) dev₀) :=
  ⟨by simp [State.initial], by simp [State.initial], fun _ => h⟩

theorem agree_of_good (hg : Good x j m s) (hx : Settled x s) : Agree C x s.disk.dev :=
  hg.agree fun r hr hc => hx r (List.mem_of_getElem? hr) hc

theorem good_run (hE : ∀ b i, (E.beh b i).Succeeds) (hk : Healthy s.reqs.length s)
    (hg : Good x j C.n s)
    (h : Lts.Run (State.step E) (fun s l => Fine l ∧ Lone x s l) s t) (hx : Settled x t) :
    Agree C x t.disk.dev := by
  obtain ⟨-, j, hg⟩ := Lts.run_invariant
    (I := fun s : State (backend C) => Healthy s.reqs.length s ∧ ∃ j, Good x j C.n s) h ⟨hk, j, hg⟩
    fun _ _ _ hi hl hs => ⟨healthy_step hE hi.1 hl.1 hs,
      good_step hE hi.1 hi.2.choose_spec hl.1 hl.2 hs⟩
  exact agree_of_good hg hx

/-- Handlers that answer at once. -/
def prompt : Env where
  beh _ _ := .done 0 fun _ => true
  junk _ _ := 0

/-- What a read returns that goes round the mirrors from `hid` on. -/
def fetched (s : State (backend C)) (hid : Fin C.n) (off : Nat) (v : Span) (buf : Nat → Byte) :
    Option (Nat → Byte) := do
  let t ← State.step (B := backend C) prompt { s with inner := hid }
    (.process false off v buf fun _ => [])
  let r ← t.reqs[s.reqs.length]?
  return r.q.buf

theorem submit_prompt (hw : q.write = false) : q.submit prompt p d =
    (0, { q with buf := fun i => if p.Covers i then d.dev (p.addr i) else q.buf i },
      { d with next := d.next + 1 }) := by
  simp [Query.submit, prompt, Query.carry, hw, Query.setErr]

/-- Chunk by chunk the buffer fills with what the mirrors agree on. -/
theorem forward_prompt {pos : Nat}
    (h : s.forward prompt k (fun _ => []) route i = some (c, t))
    (hr : s.reqs[k]? = some r) (hret : r.ret = none) (hw : r.q.write = false)
    (hroute : ∀ p ∈ route, p.1.hid < C.n ∧ p.1.off = off + p.1.pos)
    (hc : Consecutive pos (route.map Prod.fst) v.len)
    (hag : ∀ i < v.len, Agree C (off + i) s.disk.dev) :
    ∃ r', t.reqs[k]? = some r' ∧ ∀ i < v.len,
      r'.q.buf i = if pos ≤ i then s.disk.dev (0, off + i) else r.q.buf i := by
  induction route generalizing i pos s r with
  | nil =>
    cases h
    refine ⟨r, hr, fun i hi => ?_⟩
    have hpos : pos = v.len := hc
    rw [if_neg (by omega)]
  | cons p route ih =>
    rw [State.forward] at h
    simp only [State.events, Option.bind_eq_bind, Option.bind_some] at h
    obtain ⟨⟨c₁, s₂⟩, h₂, h⟩ := Option.bind_eq_some_iff.mp h
    obtain ⟨y, hy, rfl, rfl⟩ := submit_cases h₂
    cases hr.symm.trans hy
    rw [submit_prompt hw] at h
    dsimp only at h
    rw [if_pos rfl] at h
    obtain ⟨rfl, hlen, hc⟩ := hc
    obtain ⟨hhid, hoff⟩ := hroute p (.head _)
    have hself : ∀ z : Req, (s.reqs.set k z)[k]? = some z := fun z =>
      List.getElem?_set_self (List.getElem?_eq_some_iff.mp hr).1
    obtain ⟨r', hr', hbuf⟩ := ih h (hself _) (by simpa using hret) (by simpa using hw)
      (fun q hq => hroute q (.tail _ hq)) hc hag
    refine ⟨r', hr', fun i hi => ?_⟩
    rw [hbuf i hi, Req.q_finish]
    dsimp only
    have hcov : p.1.Covers i ↔ p.1.pos ≤ i ∧ i < p.1.pos + p.1.len := Iff.rfl
    by_cases hlo : p.1.pos ≤ i
    · rw [if_pos hlo]
      split
      · rfl
      · have hi' : p.1.Covers i := hcov.mpr ⟨hlo, by omega⟩
        have haddr : p.1.addr i = (p.1.hid, off + i) := by
          rw [Sub.addr, hoff]
          congr 1
          omega
        rw [if_pos hi', haddr]
        exact hag i hi _ hhid _ (Nat.zero_lt_of_lt C.two)
    · rw [if_neg hlo, if_neg (by omega), if_neg fun hn => hlo (hcov.mp hn).1]

theorem buf_returned (hr : s.reqs[k]? = some r) (h : s.returned k c = some t) :
    ∃ r', t.reqs[k]? = some r' ∧ r'.q.buf = r.q.buf := by
  obtain ⟨y, hy, rfl⟩ := returned_cases h
  cases hr.symm.trans hy
  refine ⟨{ r with ret := some c }.finish, ?_, by simp⟩
  simp [State.drain, State.put, (List.getElem?_eq_some_iff.mp hr).1]

theorem fetched_eq (ho : s.online = true) (hv : Sized off v)
    (hag : ∀ i < v.len, Agree C (off + i) s.disk.dev) (hid : Fin C.n) :
    ∃ b, fetched s hid off v buf = some b ∧ ∀ i < v.len, b i = s.disk.dev (0, off + i) := by
  let s' : State (backend C) := { s with inner := hid }
  obtain ⟨t, ht⟩ : ∃ t, s'.process prompt false off v buf (fun _ => []) = some t :=
    process_total (fun hid w _ _ hv => route_total C hid w hv) hv
  obtain ⟨v', hv', ⟨-, c, u, hu, hret⟩ | ⟨hoff, -⟩⟩ := process_cases ht
  · obtain rfl : v' = v := Span.eq_of_subquery hv'
    obtain ⟨route, u, hroute, hf, rfl⟩ := action_cases hu
    obtain ⟨ss, hss, hc, hall⟩ := @chunks_total C off _ 0 v' hid hv.room (Nat.zero_le _)
      (show v'.len - 0 < v'.len + 1 by omega)
    cases hss.symm.trans hroute
    obtain ⟨r, hr, hbuf⟩ := forward_prompt hf entered rfl rfl hall hc hag
    obtain ⟨r', hr', he⟩ := buf_returned
      (s := State.drain { u with queued := u.queued || decide (c ≠ 0) }) hr hret
    refine ⟨r'.q.buf, ?_, fun i hi => ?_⟩
    · rw [fetched, State.step, ht]
      simp only [Option.bind_eq_bind, Option.bind_some]
      rw [hr']
      rfl
    · rw [he, hbuf i hi]
      rfl
  · exact absurd (ho.symm.trans hoff) (by simp)

/-- With mirrors that succeed. -/
structure Mirrored (C : Config) (E : Env) (dev₀ : Addr → Byte) : Prop where
  /-- Mirrors that agree on a byte agree on it whenever no write of it is in flight, in every run
  with at most one write of it in flight at a time. -/
  agree : ∀ (t : State (backend C)) (x : Nat), Agree C x dev₀ →
    Lts.Run (State.step E) (fun s l => Fine l ∧ Lone x s l) (State.initial _ dev₀) t →
    Settled x t → Agree C x t.disk.dev
  /-- Mirrors that differ in a byte agree on it after the next write of it. -/
  mend : ∀ (s t u : State (backend C)) (x off : Nat) (v : Span) (buf : Nat → Byte)
    (during : Nat → List Event),
    Lts.Run (State.step E) (fun _ l => Fine l) (State.initial _ dev₀) s → Settled x s →
    (∀ i, ∀ e ∈ during i, Succeeds e) → off ≤ x → x < off + v.len →
    s.step E (.process true off v buf during) = some t →
    Lts.Run (State.step E) (fun s l => Fine l ∧ Lone x s l) t u → Settled x u →
    Agree C x u.disk.dev
  /-- Where the mirrors agree, it makes no difference from which one a read goes round. -/
  same : ∀ (t : State (backend C)) (off : Nat) (v : Span) (buf : Nat → Byte),
    Lts.Run (State.step E) (fun _ l => Fine l) (State.initial _ dev₀) t → Sized off v →
    (∀ i < v.len, Agree C (off + i) t.disk.dev) → ∀ hid hid' : Fin C.n,
    ∃ b b', fetched t hid off v buf = some b ∧ fetched t hid' off v buf = some b' ∧
      ∀ i < v.len, b i = b' i

theorem healthy_run (hE : ∀ b i, (E.beh b i).Succeeds)
    (h : Lts.Run (State.step E) (fun _ l => Fine l) (State.initial (backend C) dev₀) t) :
    Healthy t.reqs.length t :=
  Lts.run_invariant (I := fun s : State (backend C) => Healthy s.reqs.length s) h healthy_initial
    fun _ _ _ hi hl hs => healthy_step hE hi hl hs

/-- Mirrors agree on a byte unless two writes of it were in flight together. -/
theorem mirrored (hE : ∀ b i, (E.beh b i).Succeeds) : Mirrored C E dev₀ where
  agree _ _ h₀ h hx := good_run (s := .initial _ _) hE healthy_initial (good_initial h₀) h hx
  mend _ _ _ _ _ _ _ _ hs hx hd hlo hhi hp h hu := by
    obtain ⟨ht, -, hg⟩ := process_eq hE hd (healthy_run hE hs) hp
    exact good_run hE ht (hg rfl hlo hhi hx) h hu
  same _ _ _ _ h hv hag hid hid' := by
    have ho := (healthy_run hE h).online
    obtain ⟨b, hb, hbuf⟩ := fetched_eq ho hv hag hid
    obtain ⟨b', hb', hbuf'⟩ := fetched_eq ho hv hag hid'
    exact ⟨b, b', hb, hb', fun i hi => (hbuf i hi).trans (hbuf' i hi).symm⟩

/-- Three mirrors. -/
def trio : Config := ⟨1536, 3, ⟨3, rfl⟩, by decide, by decide, Nat.le_succ 2⟩

/-- Mirrors that take their time. -/
def slow : Env where
  beh _ _ := .held
  junk _ _ := 0

/-- A write of one byte. -/
def put1 (b : Byte) : Label := .process true 0 ⟨0, 1⟩ (fun _ => b) fun _ => []

/-- The `j`-th piece in flight of request `k` takes effect and completes. -/
def effect1 (k j : Nat) : Label := .event (.effect k j fun _ => true)

def settle1 (k j : Nat) : Label := .event (.settle k j 0)

def afterRun (ls : List Label) : Option (State (backend trio)) :=
  Lts.exec (State.step slow) (.initial _ fun _ => 0) ls

/-- Two writes, one after the other. -/
def inTurn : List Label :=
  [put1 ⟨1#8⟩, effect1 0 1, effect1 0 0, effect1 0 2, settle1 0 0, settle1 0 0, settle1 0 0,
    put1 ⟨2#8⟩, effect1 1 0, effect1 1 2, effect1 1 1, settle1 1 1, settle1 1 1, settle1 1 0]

theorem fine_put1 {b : Byte} : Fine (put1 b) := fun _ _ he => by cases he

theorem fine_inTurn : ∀ l ∈ inTurn, Fine l := by
  simp only [inTurn, List.forall_mem_cons]
  exact ⟨fine_put1, trivial, trivial, trivial, rfl, rfl, rfl, fine_put1, trivial, trivial, trivial, rfl,
    rfl, rfl, by simp⟩

theorem slow_succeeds (b : Bool) (i : Nat) : (slow.beh b i).Succeeds := trivial

theorem mirrored_inTurn : ∃ t, afterRun inTurn = some t ∧ Agree trio 0 t.disk.dev ∧
    t.disk.dev (0, 0) = ⟨2#8⟩ := by
  obtain ⟨t, ht⟩ : ∃ t, afterRun inTurn = some t := Option.isSome_iff_exists.mp (by decide +kernel)
  have hend : (afterRun inTurn).map (fun t => (t.disk.dev (0, 0), decide (Settled 0 t))) =
      some (⟨2#8⟩, true) := by decide +kernel
  simp only [ht, Option.map_some, Option.some.injEq, Prod.mk.injEq, decide_eq_true_eq] at hend
  have halong : Lts.Along (State.step slow) (Lone (C := trio) 0) (.initial _ fun _ => 0) inTurn := by
    decide +kernel
  have hrun := Lts.run_of_along (Lts.along_of_mem (fun l hl _ => fine_inTurn l hl) halong) ht
  exact ⟨t, ht, (mirrored slow_succeeds).agree t 0 (fun _ _ _ _ => rfl) hrun hend.2, hend.1⟩

/-- Two writes of one byte in flight together; the mirrors do not take them in the same order. -/
def crossed : List Label :=
  [put1 ⟨1#8⟩, put1 ⟨2#8⟩, effect1 0 0, effect1 1 0, effect1 1 1, effect1 0 1, effect1 0 2,
    effect1 1 2, settle1 0 0, settle1 0 0, settle1 0 0, settle1 1 0, settle1 1 0, settle1 1 0]

theorem fine_crossed : ∀ l ∈ crossed, Fine l := by
  simp only [crossed, List.forall_mem_cons]
  exact ⟨fine_put1, fine_put1, trivial, trivial, trivial, trivial, trivial, trivial, rfl, rfl, rfl, rfl,
    rfl, rfl, by simp⟩

/-- With no write in flight any more the mirrors differ. -/
theorem not_agree : ¬ ∀ (C : Config) (E : Env) (dev₀ : Addr → Byte) (t : State (backend C)),
    (∀ b i, (E.beh b i).Succeeds) → (∀ x, Agree C x dev₀) →
    Lts.Run (State.step E) (fun _ l => Fine l) (State.initial _ dev₀) t →
    (∀ r ∈ t.reqs, r.ended = true) → ∀ x, Agree C x t.disk.dev := by
  intro h
  obtain ⟨t, ht⟩ : ∃ t, afterRun crossed = some t :=
    Option.isSome_iff_exists.mp (by decide +kernel)
  have hend : (afterRun crossed).map (fun t => (t.disk.dev (0, 0), t.disk.dev (1, 0),
      decide (∀ r ∈ t.reqs, r.ended = true))) = some (⟨2#8⟩, ⟨1#8⟩, true) := by decide +kernel
  simp only [ht, Option.map_some, Option.some.injEq, Prod.mk.injEq, decide_eq_true_eq] at hend
  obtain ⟨hzero, hone, hover⟩ := hend
  have hrun : Lts.Run (State.step slow) (fun _ l => Fine l) (.initial _ fun _ => 0) t :=
    Lts.run_of_exec (fun l hl _ => fine_crossed l hl) ht
  have := h trio slow _ t slow_succeeds (fun _ _ _ _ _ => rfl) hrun hover 0 0 (by decide) 1
    (by decide)
  rw [hzero, hone] at this
  cases this

end Ublk.Raid1
