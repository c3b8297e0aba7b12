import Ublk.Failstop.Report

/-!
What clients of a striped or a mirrored target find whatever fails. A write that ended well is in
each of its places until a later one covers it, and no read brings bytes it replaced.
-/
namespace Ublk.Failstop

/-- Where a backend keeps its bytes: `At x a` if `a` is a place of byte `x`. -/
structure Placed (B : Backend) (At : Nat → Addr → Prop) : Prop where
  apart : ∀ x y a, At x a → At y a → x = y
  somewhere : ∀ x, ∃ a, At x a
  pieces : ∀ s w off v route, Sized off v → B.route s w off v = some route → ∀ p ∈ route, ∀ i,
    p.1.Covers i → i < v.len ∧ At (off + i) (p.1.addr i)
  /-- A read takes each byte from one of its places, a write brings it to all of them. -/
  covers : ∀ s w off v route, Sized off v → B.route s w off v = some route → ∀ i < v.len, ∀ a,
    At (off + i) a → ∃ p ∈ route, p.1.Covers i ∧ (w = true → p.1.addr i = a)

/-- The piece moves byte `i` of a request, of a write the one for the place `a`. -/
def Carries (w : Bool) (i : Nat) (a : Addr) (p : Sub) : Prop :=
  p.Covers i ∧ (w = true → p.addr i = a)

/-- A piece in flight has not moved byte `i` yet. -/
def Owes (q : Query) (i : Nat) (a : Addr) : Prop :=
  ∃ op ∈ q.ops, Carries q.write i a op.sub ∧ op.took (i - op.sub.pos) = false

/-- What is where byte `i` goes to. -/
def arrival (q : Query) (i : Nat) (a : Addr) (dev : Addr → Byte) : Byte :=
  if q.write then dev a else q.buf i

def Laid (At : Nat → Addr → Prop) (off len : Nat) (p : Sub) : Prop :=
  ∀ i, p.Covers i → i < len ∧ At (off + i) (p.addr i)

/-- What may become of a request: `new` pieces are submitted, or bytes move. -/
structure Moved (At : Nat → Addr → Prop) (off len : Nat) (new : List Sub) (q : Query)
    (dev : Addr → Byte) (q' : Query) (dev' : Addr → Byte) : Prop where
  write : q'.write = q.write
  buf : q.write = true → q'.buf = q.buf
  laid : ∀ op ∈ q'.ops, Laid At off len op.sub
  placed : ∀ a, dev' a = dev a ∨ q.write = true ∧ ∃ i < len, At (off + i) a ∧ dev' a = q.buf i
  arrives : ∀ i a, q'.Clean → ¬ Owes q' i a →
    (q.Clean ∧ ¬ Owes q i a ∧ (∀ p ∈ new, ¬ Carries q.write i a p) ∧
      (q.write = false → q'.buf i = q.buf i)) ∨
    (q.write = true ∧ dev' a = q.buf i) ∨
    (q.write = false ∧ ∃ b, At (off + i) b ∧ q'.buf i = dev b)

variable {At : Nat → Addr → Prop} {off len i j k n x : Nat} {a : Addr} {p : Sub} {q q' : Query}
  {dev dev' dev₀ : Addr → Byte} {hit : Nat → Bool} {E : Env} {d : Disk} {e : Int} {b : Byte}

theorem carry_dev : (q.carry p hit dev).2 a = dev a ∨
    q.write = true ∧ ∃ i, p.Covers i ∧ p.addr i = a ∧ (q.carry p hit dev).2 a = q.buf i := by
  cases hw : q.write with
  | false => exact .inl (by rw [Query.carry_of_read hw])
  | true =>
    simp only [Query.carry, hw, if_true]
    by_cases ha : a.1 = p.hid ∧ p.off ≤ a.2 ∧ a.2 < p.off + p.len ∧ hit (a.2 - p.off) = true
    · rw [if_pos ha]
      obtain ⟨hhid, hlo, hhi, -⟩ := ha
      refine .inr ⟨trivial, p.pos + (a.2 - p.off), ⟨by omega, by omega⟩, ?_, rfl⟩
      rw [Sub.addr, ← hhid]
      exact Prod.ext rfl (by dsimp only; omega)
    · exact .inl (if_neg ha)

/-- A byte of a write is in its place once it has taken effect. -/
theorem carry_lands (hw : q.write = true) (hc : p.Covers i) (hh : hit (i - p.pos) = true) :
    (q.carry p hit dev).2 (p.addr i) = q.buf i := by
  obtain ⟨hlo, hhi⟩ := hc
  simp only [Query.carry, hw, if_true, Sub.addr]
  have hsub : p.off + (i - p.pos) - p.off = i - p.pos := by omega
  have hpos : p.pos + (i - p.pos) = i := by omega
  rw [hsub, hpos, if_pos ⟨trivial, by omega, by omega, hh⟩]

theorem carry_fetches (hw : q.write = false) : (q.carry p hit dev).1.buf i =
    if p.Covers i ∧ hit (i - p.pos) = true then dev (p.addr i) else q.buf i := by
  simp [Query.carry, hw]

/-- A byte that takes effect arrives. -/
theorem arrival_carry (hit : Nat → Bool) (hp : Laid At off len p) (hc : Carries q.write i a p)
    (hh : hit (i - p.pos) = true) :
    (q.write = true ∧ (q.carry p hit dev).2 a = q.buf i) ∨
      (q.write = false ∧ ∃ b, At (off + i) b ∧ (q.carry p hit dev).1.buf i = dev b) := by
  obtain ⟨hcov, haddr⟩ := hc
  cases hw : q.write with
  | true =>
    rw [← haddr hw]
    exact .inl ⟨rfl, carry_lands hw hcov hh⟩
  | false =>
    rw [carry_fetches hw, if_pos ⟨hcov, hh⟩]
    exact .inr ⟨rfl, p.addr i, (hp i hcov).2, rfl⟩

theorem buf_carry_of_not (hc : ¬ (Carries q.write i a p ∧ hit (i - p.pos) = true))
    (hw : q.write = false) : (q.carry p hit dev).1.buf i = q.buf i := by
  rw [carry_fetches hw, if_neg]
  rintro ⟨hcov, hh⟩
  exact hc ⟨⟨hcov, by simp [hw]⟩, hh⟩

theorem dev_of_carry (hp : Laid At off len p) : (q.carry p hit dev).2 a = dev a ∨
    q.write = true ∧ ∃ i < len, At (off + i) a ∧ (q.carry p hit dev).2 a = q.buf i := by
  obtain h | ⟨hw, i, hcov, rfl, hi⟩ := @carry_dev a p q dev hit
  · exact .inl h
  · exact .inr ⟨hw, i, (hp i hcov).1, (hp i hcov).2, hi⟩

theorem moved_effect (hq : ∀ op ∈ q.ops, Laid At off len op.sub)
    (he : q.effect k hit dev = some (q', dev')) : Moved At off len [] q dev q' dev' := by
  obtain ⟨hwrite, -, -, -, -, hbuf⟩ := Query.effect_keeps he
  obtain ⟨op, hop, rfl, rfl⟩ := Query.effect_eq he
  obtain ⟨hlt, rfl⟩ := List.getElem?_eq_some_iff.mp hop
  have hp := hq _ (List.getElem_mem hlt)
  refine ⟨hwrite, hbuf, fun x hx => ?_, fun a => dev_of_carry hp, fun i a hc hn => ?_⟩
  · obtain hx | rfl := List.mem_or_eq_of_mem_set hx
    · exact hq x hx
    · exact hp
  · by_cases hm : Carries q.write i a q.ops[k].sub ∧
        (hit (i - q.ops[k].sub.pos) && !q.ops[k].took (i - q.ops[k].sub.pos)) = true
    · exact .inr (arrival_carry _ hp hm.1 hm.2)
    · refine .inl ⟨by simpa [Query.Clean] using hc, ?_, by simp, buf_carry_of_not hm⟩
      rintro ⟨x, hx, hcar, htook⟩
      obtain ⟨m, hm', rfl⟩ := List.mem_iff_getElem.mp hx
      rw [Owes, hwrite] at hn
      by_cases hmk : m = k
      · subst hmk
        refine hn ⟨_, List.mem_set hlt _, hcar, ?_⟩
        simp_all
      · refine hn ⟨q.ops[m], ?_, hcar, htook⟩
        exact List.mem_iff_getElem.mpr ⟨m, by simpa using hm', by simp [Ne.symm hmk]⟩

theorem moved_settle (hq : ∀ op ∈ q.ops, Laid At off len op.sub)
    (he : q.settle k e = some q') : Moved At off len [] q dev q' dev := by
  obtain ⟨op, hop, htook, rfl⟩ := Query.settle_eq he
  obtain ⟨hlt, rfl⟩ := List.getElem?_eq_some_iff.mp hop
  refine ⟨by simp, by simp, fun x hx => ?_, fun _ => .inl rfl, fun i a hc hn => .inl ?_⟩
  · rw [Query.ops_setErr] at hx
    exact hq x (List.mem_of_mem_eraseIdx hx)
  · obtain ⟨rfl, hc⟩ := Query.clean_setErr hc
    refine ⟨hc, ?_, by simp, by simp⟩
    rintro ⟨x, hx, hcar, hx'⟩
    obtain rfl | hx := List.mem_cons.mp ((List.getElem_cons_eraseIdx_perm hlt).mem_iff.mpr hx)
    · have hcov := hcar.1
      have := htook rfl (i - q.ops[k].sub.pos) (by unfold Sub.Covers at hcov; omega)
      simp_all
    · refine hn ⟨x, by simpa using hx, by simpa using hcar, hx'⟩

theorem moved_submit (hq : ∀ op ∈ q.ops, Laid At off len op.sub) (hp : Laid At off len p) :
    Moved At off len [p] q d.dev (q.submit E p d).2.1 (q.submit E p d).2.2.dev := by
  refine ⟨Query.write_submit, Query.buf_submit_of_write, ?_, ?_, ?_⟩
  all_goals unfold Query.submit
  all_goals split
  · exact hq
  · intro op hop
    obtain hop | hop := List.mem_append.mp hop
    · exact hq op hop
    · exact List.mem_singleton.mp hop ▸ hp
  · simpa using hq
  · exact fun _ => .inl rfl
  · exact fun _ => .inl rfl
  · exact fun _ => dev_of_carry hp
  · rename_i he _
    exact fun i a hc => absurd hc.1 he
  · intro i a hc hn
    refine .inl ⟨hc, ?_, ?_, fun _ => rfl⟩
    · rintro ⟨op, hop, ho⟩
      exact hn ⟨op, List.mem_append_left _ hop, ho⟩
    · intro p' hp' hcar
      obtain rfl := List.mem_singleton.mp hp'
      exact hn ⟨_, List.mem_append_right _ (.head _), hcar, rfl⟩
  · rename_i e hit _
    intro i a hc hn
    obtain ⟨rfl, hc⟩ := Query.clean_setErr hc
    simp only [Query.buf_setErr]
    by_cases hcar : Carries q.write i a p
    · exact .inr (arrival_carry (fun i => (0 : Int) == 0 || hit i) hp hcar rfl)
    · refine .inl ⟨by simpa [Query.Clean] using hc, ?_, by simpa using hcar, ?_⟩
      · simpa [Owes] using hn
      · exact buf_carry_of_not fun hm => hcar hm.1

/-- What came before: the bytes a place may have had, and the requests that had ended. -/
structure Past where
  base : Byte → Prop
  old : Nat → Prop

def Req.Writes (r : Req) (x : Nat) : Prop :=
  r.q.write = true ∧ r.off ≤ x ∧ x < r.off + r.v.len

/-- The client was told that the request went well. -/
def Req.Succeeded (r : Req) : Prop := r.ret = some 0 ∧ r.ended = true ∧ r.err = 0

instance (r : Req) (x : Nat) : Decidable (r.Writes x) := inferInstanceAs (Decidable (_ ∧ _))

instance (r : Req) : Decidable r.Succeeded := inferInstanceAs (Decidable (_ ∧ _))

variable {B : Backend} {P : Past} {s t u : State B} {r : Req} {new rest : List Sub} {disk : Disk}
  {dv : Prop} {c : Int} {ev : Event} {es : List Event} {during : Nat → List Event}
  {route : List (Sub × B.State)} {w : Bool} {v : Span} {buf : Nat → Byte} {l : Label}

/-- The byte is one of the past, or of a write of byte `x` that had not ended. -/
def Current (P : Past) (x : Nat) (s : State B) (b : Byte) : Prop :=
  P.base b ∨ ∃ (j : Nat) (w : Req), s.reqs[j]? = some w ∧ ¬ P.old j ∧ w.Writes x ∧
    b = w.q.buf (x - w.off)

/-- Byte `x` since then. The requests from the `n`-th on are watched, writes alone unless its places
have current bytes; for the `k`-th the pieces `rest` are still to be submitted. -/
structure Watch (At : Nat → Addr → Prop) (P : Past) (x : Nat) (dv : Prop) (n k : Nat)
    (rest : List Sub) (s : State B) : Prop where
  laid : ∀ r ∈ s.reqs, ∀ op ∈ r.q.ops, Laid At r.off r.v.len op.sub
  calm : ∀ j, P.old j → ∃ r, s.reqs[j]? = some r ∧ r.q.ops = []
  devs : dv → ∀ a, At x a → Current P x s (s.disk.dev a)
  brings : ∀ (j : Nat) (r : Req), n ≤ j → s.reqs[j]? = some r → r.offline = false →
    (r.q.write = true ∨ dv) → ∀ i < r.v.len, r.off + i = x → ∀ a, At x a → r.q.Clean →
    (j = k → ∀ p ∈ rest, ¬ Carries r.q.write i a p) → ¬ Owes r.q i a →
    Current P x s (arrival r.q i a s.disk.dev)

namespace Req

@[simp] theorem off_finish : r.finish.off = r.off := by unfold finish; split <;> rfl
@[simp] theorem v_finish : r.finish.v = r.v := by unfold finish; split <;> rfl

end Req

theorem current_put (disk : Disk) {r' : Req} (hr : s.reqs[k]? = some r) (hoff : r'.off = r.off) (hv : r'.v = r.v)
    (hw : r'.q.write = r.q.write) (hb : r.q.write = true → r'.q.buf = r.q.buf)
    (h : Current P x s b) : Current P x ({ s with disk }.put k r') b := by
  refine h.imp_right ?_
  rintro ⟨j, y, hy, hold, hx, rfl⟩
  have hlt := (List.getElem?_eq_some_iff.mp hr).1
  by_cases hjk : j = k
  · subst hjk
    cases hr.symm.trans hy
    refine ⟨j, r'.finish, List.getElem?_set_self hlt, hold, ?_, ?_⟩
    · simpa [Req.Writes, hoff, hv, hw] using hx
    · simp [hoff, hb hx.1]
  · refine ⟨j, y, ?_, hold, hx, rfl⟩
    exact (List.getElem?_set_ne (Ne.symm hjk)).trans hy

/-- A byte that a request writes, if it had not ended. -/
theorem current_own (hr : s.reqs[j]? = some r) (hold : ¬ P.old j) (hi : i < r.v.len)
    (hw : r.q.write = true) : Current P (r.off + i) s (r.q.buf i) := by
  refine .inr ⟨j, r, hr, hold, ⟨hw, by omega, by omega⟩, ?_⟩
  rw [Nat.add_sub_cancel_left]

section Goes

variable (hB : ∀ x y a, At x a → At y a → x = y) (hr : s.reqs[j]? = some r) (hold : ¬ P.old j)
  (hm : Moved At r.off r.v.len new r.q s.disk.dev q disk.dev)

include hr hm

theorem current_goes (h : Current P x s b) :
    Current P x ({ s with disk }.put j { r with q }) b :=
  current_put disk hr rfl rfl hm.write hm.buf h

include hB hold

/-- What a place gets is a byte of the request. -/
theorem current_dev_goes (ha : At x a) (h : Current P x s (s.disk.dev a)) :
    Current P x ({ s with disk }.put j { r with q }) (disk.dev a) := by
  obtain he | ⟨hw, i, hi, hai, he⟩ := hm.placed a
  · rw [he]
    exact current_goes hr hm h
  · obtain rfl := hB _ _ _ hai ha
    rw [he]
    exact current_goes hr hm (current_own hr hold hi hw)

/-- What a byte of another request has come to. -/
theorem current_arrival_goes {y : Query} (ha : At x a)
    (h : Current P x s (arrival y i a s.disk.dev)) :
    Current P x ({ s with disk }.put j { r with q }) (arrival y i a disk.dev) := by
  unfold arrival at h ⊢
  split at h
  · rw [if_pos ‹_›]
    exact current_dev_goes hB hr hold hm ha h
  · rw [if_neg ‹_›]
    exact current_goes hr hm h

/-- And a byte of its own: it had arrived, or it does now. -/
theorem current_arrival_own (hi : i < r.v.len) (ha : At (r.off + i) a) (hc : q.Clean)
    (howe : ¬ Owes q i a)
    (hread : r.q.write = false → ∀ b, At (r.off + i) b → Current P (r.off + i) s (s.disk.dev b))
    (h : r.q.Clean → ¬ Owes r.q i a → (∀ p ∈ new, ¬ Carries r.q.write i a p) →
      Current P (r.off + i) s (arrival r.q i a s.disk.dev)) :
    Current P (r.off + i) ({ s with disk }.put j { r with q }) (arrival q i a disk.dev) := by
  obtain ⟨hc', howe', hnot, hbuf⟩ | ⟨hwr, he⟩ | ⟨hwr, b, hb, he⟩ := hm.arrives i a hc howe
  · have hcur := h hc' howe' hnot
    cases hwr : r.q.write with
    | true =>
      rw [arrival, hwr, if_pos rfl] at hcur
      rw [arrival, hm.write, hwr, if_pos rfl]
      exact current_dev_goes hB hr hold hm ha hcur
    | false =>
      rw [arrival, hwr, if_neg Bool.false_ne_true] at hcur
      rw [arrival, hm.write, hwr, if_neg Bool.false_ne_true, hbuf hwr]
      exact current_goes hr hm hcur
  · rw [arrival, hm.write, hwr, if_pos rfl, he]
    exact current_goes hr hm (current_own hr hold hi hwr)
  · rw [arrival, hm.write, hwr, if_neg Bool.false_ne_true, he]
    exact current_goes hr hm (hread hwr b hb)

end Goes

/-- A request goes on. -/
theorem watch_put (new : List Sub) (disk : Disk) (hB : ∀ x y a, At x a → At y a → x = y)
    (h : Watch At P x dv n k (new ++ rest) s) (hr : s.reqs[j]? = some r) (hold : ¬ P.old j)
    (hnew : ∀ p ∈ new, j = k)
    (hm : Moved At r.off r.v.len new r.q s.disk.dev q disk.dev) :
    Watch At P x dv n k rest ({ s with disk }.put j { r with q }) := by
  have hlt := (List.getElem?_eq_some_iff.mp hr).1
  refine ⟨fun y hy => ?_, fun m hm' => ?_,
    fun hdv a ha => current_dev_goes hB hr hold hm ha (h.devs hdv a ha), ?_⟩
  · obtain hy | rfl := List.mem_or_eq_of_mem_set hy
    · exact h.laid y hy
    · simpa using hm.laid
  · obtain ⟨y, hy, ho⟩ := h.calm m hm'
    have hmj : m ≠ j := by
      rintro rfl
      exact hold hm'
    exact ⟨y, (List.getElem?_set_ne (Ne.symm hmj)).trans hy, ho⟩
  · intro m y hn hy hoff hw i hi hx a ha hc hrest howe
    by_cases hmj : m = j
    · subst hmj
      cases (List.getElem?_set_self hlt).symm.trans hy
      simp only [Req.q_finish, Req.off_finish, Req.v_finish, Req.offline_finish] at *
      subst hx
      have hw : r.q.write = true ∨ dv := hm.write ▸ hw
      refine current_arrival_own hB hr hold hm hi ha hc howe (fun hwr b hb => ?_) fun hc' howe' hnot => ?_
      · exact h.devs (hw.resolve_left (by simp [hwr])) b hb
      · refine h.brings m r hn hr hoff hw i hi rfl a ha hc' (fun hmk p hp => ?_) howe'
        obtain hp | hp := List.mem_append.mp hp
        · exact hnot p hp
        · exact hm.write ▸ hrest hmk p hp
    · have hy : s.reqs[m]? = some y := (List.getElem?_set_ne (Ne.symm hmj)).symm.trans hy
      refine current_arrival_goes hB hr hold hm ha
        (h.brings m y hn hy hoff hw i hi hx a ha hc (fun hmk p hp => ?_) howe)
      obtain hp | hp := List.mem_append.mp hp
      · exact absurd (hmk.trans (hnew p hp).symm) hmj
      · exact hrest hmk p hp

section Steps

variable (hB : Placed B At)

include hB

theorem watch_event (h : Watch At P x dv n k rest s) (he : s.event ev = some t) :
    Watch At P x dv n k rest t := by
  have hyoung : ∀ j r, s.reqs[j]? = some r → r.q.ops ≠ [] → ¬ P.old j := by
    intro j r hr hops hold
    obtain ⟨y, hy, ho⟩ := h.calm j hold
    cases hr.symm.trans hy
    exact hops ho
  cases ev with
  | effect i m hit =>
    obtain ⟨r, hr, he⟩ := Option.bind_eq_some_iff.mp he
    obtain ⟨⟨q, dev⟩, hq, he⟩ := Option.bind_eq_some_iff.mp he
    cases he
    obtain ⟨op, hop, -⟩ := Query.effect_eq hq
    refine watch_put [] { s.disk with dev } hB.apart h hr ?_ (by simp) ?_
    · exact hyoung i r hr (List.ne_nil_of_mem (List.mem_of_getElem? hop))
    · exact moved_effect (h.laid r (List.mem_of_getElem? hr)) hq
  | settle i m e =>
    obtain ⟨r, hr, he⟩ := Option.bind_eq_some_iff.mp he
    obtain ⟨q, hq, he⟩ := Option.bind_eq_some_iff.mp he
    cases he
    obtain ⟨op, hop, -⟩ := Query.settle_eq hq
    refine watch_put [] s.disk hB.apart h hr ?_ (by simp) ?_
    · exact hyoung i r hr (List.ne_nil_of_mem (List.mem_of_getElem? hop))
    · exact moved_settle (h.laid r (List.mem_of_getElem? hr)) hq

theorem watch_submit (h : Watch At P x dv n k (p :: rest) s) (hr : s.reqs[k]? = some r)
    (hold : ¬ P.old k) (hp : Laid At r.off r.v.len p) (hs : s.submit E k p = some (c, t)) :
    Watch At P x dv n k rest t ∧ (c ≠ 0 → Watch At P x dv n k [] t) := by
  obtain ⟨y, hy, rfl, rfl⟩ := submit_cases hs
  cases hr.symm.trans hy
  have hm := moved_submit (E := E) (d := s.disk) (h.laid r (List.mem_of_getElem? hr)) hp
  have hput := watch_put [p] (r.q.submit E p s.disk).2.2 hB.apart h hr hold (fun _ _ => rfl) hm
  refine ⟨hput, fun hc => ⟨hput.laid, hput.calm, hput.devs, ?_⟩⟩
  -- a request with a piece that was turned down is not clean
  intro j y hn hy hoff hw i hi hx a ha hclean _ howe
  refine hput.brings j y hn hy hoff hw i hi hx a ha hclean (fun hjk => ?_) howe
  subst hjk
  cases (List.getElem?_set_self (List.getElem?_eq_some_iff.mp hr).1).symm.trans hy
  have hrej := hclean.1
  rw [Req.q_finish, Query.rej_submit, if_neg hc] at hrej
  exact absurd hrej hc

/-- Request `k` under way, with its offset and length. -/
def Under (k off len : Nat) (s : State B) : Prop :=
  ∃ r, s.reqs[k]? = some r ∧ r.off = off ∧ r.v.len = len

omit hB in
theorem under_put {r' : Req} (hr : s.reqs[j]? = some r) (hoff : r'.off = r.off) (hv : r'.v = r.v)
    (h : Under k off len s) : Under k off len ({ s with disk }.put j r') := by
  obtain ⟨y, hy, ho, hl⟩ := h
  by_cases hkj : k = j
  · subst hkj
    cases hr.symm.trans hy
    exact ⟨r'.finish, List.getElem?_set_self (List.getElem?_eq_some_iff.mp hr).1,
      by simpa [hoff] using ho, by simpa [hv] using hl⟩
  · exact ⟨y, (List.getElem?_set_ne (Ne.symm hkj)).trans hy, ho, hl⟩

omit hB in
theorem under_event (h : Under k off len s) (he : s.event ev = some t) : Under k off len t := by
  obtain ⟨i, r, q, hr, -, -, -, -, disk, -, rfl⟩ := event_cases he
  exact under_put hr rfl rfl h

omit hB in
theorem under_submit (h : Under k off len s) (hs : s.submit E j p = some (c, t)) :
    Under k off len t := by
  obtain ⟨r, hr, -, rfl⟩ := submit_cases hs
  exact under_put hr rfl rfl h

/-- The loop of `process`: the route is submitted up to a piece that is turned down. -/
theorem watch_forward (h : Watch At P x dv n k (route.map Prod.fst) s) (hu : Under k off len s)
    (hold : ¬ P.old k) (hlaid : ∀ p ∈ route, Laid At off len p.1)
    (hs : s.forward E k during route i = some (c, t)) : Watch At P x dv n k [] t := by
  induction route generalizing i s with
  | nil =>
    cases hs
    exact h
  | cons p route ih =>
    obtain ⟨s₁, h₁, hs⟩ := Option.bind_eq_some_iff.mp hs
    obtain ⟨⟨c₁, s₂⟩, h₂, hs⟩ := Option.bind_eq_some_iff.mp hs
    have hw := events_keep (P := Watch At P x dv n k (p.1 :: route.map Prod.fst))
      (fun _ _ _ _ => watch_event hB) h h₁
    have hu₁ := events_keep (P := Under k off len) (fun _ _ _ _ => under_event) hu h₁
    obtain ⟨r, hr, rfl, rfl⟩ := id hu₁
    obtain ⟨hw₂, hnone⟩ := watch_submit hB hw hr hold (hlaid p (.head _)) h₂
    by_cases h₀ : c₁ = 0
    · subst h₀
      have hu₂ := under_submit hu₁ h₂
      exact ih (s := { s₂ with inner := p.2 }) ⟨hw₂.laid, hw₂.calm, hw₂.devs, hw₂.brings⟩ hu₂
        (fun p hp => hlaid p (.tail _ hp)) hs
    · dsimp only at hs
      rw [if_neg h₀] at hs
      cases hs
      exact hnone h₀

omit hB in
theorem watch_returned (h : Watch At P x dv n k [] s) (hs : s.returned j c = some t) :
    Watch At P x dv n i [] t := by
  obtain ⟨r, hr, rfl⟩ := returned_cases hs
  have hlt := (List.getElem?_eq_some_iff.mp hr).1
  have hreq : ∀ (m : Nat) (y : Req), (s.reqs.set j { r with ret := some c }.finish)[m]? = some y →
      ∃ z, s.reqs[m]? = some z ∧ y.off = z.off ∧ y.v = z.v ∧ y.q = z.q ∧ y.offline = z.offline := by
    intro m y hy
    by_cases hmj : m = j
    · subst hmj
      cases (List.getElem?_set_self hlt).symm.trans hy
      exact ⟨r, hr, by simp, by simp, by simp, by simp⟩
    · exact ⟨y, (List.getElem?_set_ne (Ne.symm hmj)).symm.trans hy, rfl, rfl, rfl, rfl⟩
  have hcur : ∀ b, Current P x s b →
      Current P x ((s.put j { r with ret := some c }).drain) b := fun b hb =>
    current_put s.disk hr rfl rfl rfl (fun _ => rfl) hb
  refine ⟨fun y hy => ?_, fun m hm => ?_, fun hdv a ha => hcur _ (h.devs hdv a ha), ?_⟩
  · obtain ⟨m, hm⟩ := List.getElem?_of_mem hy
    obtain ⟨z, hz, ho, hv, hq, -⟩ := hreq m y hm
    rw [ho, hv, hq]
    exact h.laid z (List.mem_of_getElem? hz)
  · obtain ⟨y, hy, ho⟩ := h.calm m hm
    by_cases hmj : m = j
    · subst hmj
      cases hr.symm.trans hy
      exact ⟨_, List.getElem?_set_self hlt, by simpa using ho⟩
    · exact ⟨y, (List.getElem?_set_ne (Ne.symm hmj)).trans hy, ho⟩
  · intro m y hn hy hoff hw i hi hx a ha hc _ howe
    obtain ⟨z, hz, ho, hv, hq, hf⟩ := hreq m y hy
    rw [hq] at hw hc howe ⊢
    rw [hv] at hi
    exact hcur _ (h.brings m z hn hz (hf ▸ hoff) hw i hi (ho ▸ hx) a ha hc (by simp) howe)

omit hB in
/-- A new request still has its whole route before it. -/
theorem watch_enter {pieces : List Sub} (h : Watch At P x dv n k [] s)
    (hcov : s.online = true → ∀ i < v.len, ∀ a, At (off + i) a →
      ∃ p ∈ pieces, Carries w i a p) :
    Watch At P x dv n s.reqs.length pieces (s.enter w off v buf) := by
  have hcur : ∀ b, Current P x s b → Current P x (s.enter w off v buf) b := by
    rintro b (hb | ⟨j, y, hy, hrest⟩)
    · exact .inl hb
    · refine .inr ⟨j, y, ?_, hrest⟩
      rw [← hy]
      exact List.getElem?_append_left (List.getElem?_eq_some_iff.mp hy).1
  refine ⟨fun y hy => ?_, fun m hm => ?_, fun hdv a ha => hcur _ (h.devs hdv a ha), ?_⟩
  · obtain hy | hy := List.mem_append.mp hy
    · exact h.laid y hy
    · rw [List.mem_singleton.mp hy]
      simp
  · obtain ⟨y, hy, ho⟩ := h.calm m hm
    refine ⟨y, ?_, ho⟩
    rw [← hy]
    exact List.getElem?_append_left (List.getElem?_eq_some_iff.mp hy).1
  · intro m y hn hy hoff hw i hi hx a ha hc hrest howe
    have hlt := (List.getElem?_eq_some_iff.mp hy).1
    simp only [State.enter, List.length_append, List.length_singleton] at hlt
    by_cases hm : m = s.reqs.length
    · subst hm
      cases entered.symm.trans hy
      obtain ⟨p, hp, hcar⟩ := hcov (by simpa using hoff) i hi a (hx ▸ ha)
      exact absurd hcar (hrest rfl p hp)
    · have hy : (s.reqs ++ [_])[m]? = some y := hy
      rw [List.getElem?_append_left (by omega)] at hy
      exact hcur _ (h.brings m y hn hy hoff hw i hi hx a ha hc (by simp) howe)

theorem watch_process (h : Watch At P x dv n k [] s) (hv : Sized off v)
    (hs : s.process E w off v buf during = some t) : Watch At P x dv n i [] t := by
  obtain ⟨v', hv', ⟨-, c, u, hu, hs⟩ | ⟨ho, hs⟩⟩ := process_cases hs
  · obtain rfl : v' = v := Span.eq_of_subquery hv'
    obtain ⟨route, u, hroute, hf, rfl⟩ := action_cases hu
    have hpieces := hB.pieces _ w off v' route hv hroute
    have hwatch : Watch At P x dv n s.reqs.length (route.map Prod.fst) (s.enter w off v' buf) := by
      refine watch_enter h fun _ i hi a ha => ?_
      obtain ⟨p, hp, hcar⟩ := hB.covers _ w off v' route hv hroute i hi a ha
      exact ⟨p.1, List.mem_map_of_mem hp, hcar⟩
    have hold : ¬ P.old s.reqs.length := by
      intro hold
      obtain ⟨y, hy, -⟩ := h.calm _ hold
      exact absurd (List.getElem?_eq_some_iff.mp hy).1 (Nat.lt_irrefl _)
    have hend := watch_forward hB hwatch ⟨_, entered, rfl, rfl⟩ hold hpieces hf
    exact watch_returned (s := State.drain { u with queued := u.queued || decide (c ≠ 0) })
      ⟨hend.laid, hend.calm, hend.devs, hend.brings⟩ hs
  · exact watch_returned (watch_enter h fun hn => absurd (ho.symm.trans hn) (by simp)) hs

end Steps

/-- The requests that are made fit their types. -/
def Fit : Label → Prop
  | .event _ => True
  | .process _ off v _ _ => Sized off v

theorem watch_step (hB : Placed B At) (h : Watch At P x dv n k [] s) (hl : Fit l)
    (hs : s.step E l = some t) : Watch At P x dv n k [] t := by
  cases l with
  | event e =>
    obtain ⟨u, hu, rfl⟩ := Option.map_eq_some_iff.mp hs
    have hw := watch_event hB h hu
    exact ⟨hw.laid, hw.calm, hw.devs, hw.brings⟩
  | process w off v buf during => exact watch_process hB h hl hs

theorem watch_run (hB : Placed B At) (h : Watch At P x dv n k [] s)
    (hr : Lts.Run (State.step E) (fun _ l => Fit l) s t) : Watch At P x dv n k [] t :=
  Lts.run_invariant (I := fun s : State B => Watch At P x dv n k [] s) hr h
    fun _ _ _ hi hl hs => watch_step hB hi hl hs

/-- The runs of a target whose requests fit their types. -/
abbrev FitRun (E : Env) (s t : State B) : Prop := Lts.Run (State.step E) (fun _ l => Fit l) s t

theorem reached_of_fitRun (h : FitRun E (.initial B dev₀) t) : Reached E dev₀ t :=
  Lts.run_mono (fun _ _ _ => trivial) h

theorem laid_run (hB : Placed B At) (h : FitRun E (.initial B dev₀) t) :
    ∀ r ∈ t.reqs, ∀ op ∈ r.q.ops, Laid At r.off r.v.len op.sub := by
  have h₀ : Watch At ⟨fun _ => False, fun _ => False⟩ 0 False 0 0 [] (State.initial B dev₀) :=
    ⟨by simp [State.initial], fun _ => False.elim, False.elim, by simp [State.initial]⟩
  exact (watch_run hB h₀ h).laid

/-- The byte is of a write of byte `x` that had not ended at `s`. -/
def Since (s t : State B) (x : Nat) (b : Byte) : Prop :=
  ∃ (j : Nat) (w : Req), t.reqs[j]? = some w ∧ (∀ r, s.reqs[j]? = some r → r.ended = false) ∧
    w.Writes x ∧ b = w.q.buf (x - w.off)

/-- What is known at `s`: the requests that have ended. -/
def State.past (s : State B) : Past :=
  ⟨fun _ => False, fun j => ∃ r, s.reqs[j]? = some r ∧ r.ended = true⟩

theorem since_of_current (h : Current s.past x t b) : Since s t x b := by
  obtain h | ⟨j, w, hj, hold, hw⟩ := h
  · exact h.elim
  · refine ⟨j, w, hj, fun r hr => ?_, hw⟩
    by_contra hn
    exact hold ⟨r, hr, by simpa using hn⟩

theorem watch_past (hB : Placed B At) (h : FitRun E (.initial B dev₀) s) :
    Watch At s.past x False s.reqs.length 0 [] s := by
  refine ⟨laid_run hB h, fun j hj => ?_, False.elim, fun j r hn hr => ?_⟩
  · obtain ⟨r, hr, hend⟩ := hj
    have hsound := (rest_of_reached (reached_of_fitRun h)).1.sound r (List.mem_of_getElem? hr)
    exact ⟨r, hr, (hsound.ended.mp hend).2⟩
  · have := (List.getElem?_eq_some_iff.mp hr).1
    omega

/-- From here on reads are watched too. -/
theorem watch_reads (h : Watch At P x dv n k [] s) (hd : ∀ a, At x a → Current P x s (s.disk.dev a)) :
    Watch At P x True s.reqs.length k [] s := by
  refine ⟨h.laid, h.calm, fun _ => hd, fun j r hn hr => ?_⟩
  have := (List.getElem?_eq_some_iff.mp hr).1
  omega

theorem calm_of_succeeded (h : Reached E dev₀ t) (hr : r ∈ t.reqs) (hs : r.Succeeded) :
    r.offline = false ∧ r.q.Clean ∧ r.q.ops = [] := by
  have hsound := (rest_of_reached h).1.sound r hr
  obtain ⟨hret, hend, herr⟩ := hs
  have hcode := hsound.ret 0 hret
  have hoff : r.offline = false := by
    cases ho : r.offline with
    | false => rfl
    | true => simp [ho, EIO] at hcode
  rw [hoff] at hcode
  rw [hsound.err, if_pos hend] at herr
  exact ⟨hoff, ⟨hcode.symm, hsound.honest.mp herr⟩, (hsound.ended.mp hend).2⟩

/-- What is watched has arrived when its request ends. -/
theorem current_of_succeeded (h : Watch At P x dv n k [] t) (ht : Reached E dev₀ t) (hn : n ≤ j)
    (hr : t.reqs[j]? = some r) (hs : r.Succeeded) (hw : r.q.write = true ∨ dv)
    (hlo : r.off ≤ x) (hhi : x < r.off + r.v.len) (ha : At x a) :
    Current P x t (arrival r.q (x - r.off) a t.disk.dev) := by
  obtain ⟨hoff, hclean, hops⟩ := calm_of_succeeded ht (List.mem_of_getElem? hr) hs
  exact h.brings j r hn hr hoff hw (x - r.off) (by omega) (by omega) a ha hclean (by simp)
    (by simp [Owes, hops])

/-- Clients of the target find what was written last, as far as writes do not overlap. -/
structure Regular (B : Backend) (E : Env) (dev₀ : Addr → Byte) (At : Nat → Addr → Prop) :
    Prop where
  /-- Each byte that a read brings was there at first, or a write has brought it. -/
  first : ∀ t : State B, FitRun E (.initial B dev₀) t → ∀ r ∈ t.reqs, r.q.write = false →
    r.Succeeded → ∀ i < r.v.len, (∃ a, At (r.off + i) a ∧ r.q.buf i = dev₀ a) ∨
      ∃ w ∈ t.reqs, w.Writes (r.off + i) ∧ r.q.buf i = w.q.buf (r.off + i - w.off)
  /-- After a write that came after `s` and ended well by `u`, each place of its bytes has a byte of
  this write or of one that had not ended at `s`. -/
  stored : ∀ s u t : State B, FitRun E (.initial B dev₀) s → FitRun E s u → FitRun E u t →
    ∀ k w, s.reqs.length ≤ k → u.reqs[k]? = some w → w.Succeeded → ∀ x, w.Writes x →
    ∀ a, At x a → Since s t x (t.disk.dev a)
  /-- And that is what reads bring that come after `u`. -/
  fresh : ∀ s u t : State B, FitRun E (.initial B dev₀) s → FitRun E s u → FitRun E u t →
    ∀ k w, s.reqs.length ≤ k → u.reqs[k]? = some w → w.Succeeded → ∀ x, w.Writes x →
    ∀ j r, u.reqs.length ≤ j → t.reqs[j]? = some r → r.q.write = false → r.Succeeded →
    r.off ≤ x → x < r.off + r.v.len → Since s t x (r.q.buf (x - r.off))

theorem watch_stored (hB : Placed B At) (hs : FitRun E (.initial B dev₀) s) (hu : FitRun E s u)
    (ht : FitRun E u t) {w : Req} (hk : s.reqs.length ≤ k) (hw : u.reqs[k]? = some w)
    (hgood : w.Succeeded) (hx : w.Writes x) :
    Watch At s.past x True u.reqs.length 0 [] t := by
  have hwatch := watch_run hB (watch_past (x := x) hB hs) hu
  have hreached := reached_of_fitRun (Lts.run_trans hs hu)
  refine watch_run hB (watch_reads hwatch fun a ha => ?_) ht
  have hcur := current_of_succeeded hwatch hreached hk hw hgood (.inl hx.1) hx.2.1 hx.2.2 ha
  rwa [arrival, hx.1, if_pos rfl] at hcur

theorem regular (hB : Placed B At) : Regular B E dev₀ At where
  first t ht r hr hread hgood i hi := by
    have h₀ : Watch At ⟨fun b => ∃ a, At (r.off + i) a ∧ b = dev₀ a, fun _ => False⟩ (r.off + i)
        True 0 0 [] (State.initial B dev₀) :=
      ⟨by simp [State.initial], fun _ => False.elim, fun _ a ha => .inl ⟨a, ha, rfl⟩,
        by simp [State.initial]⟩
    obtain ⟨j, hj⟩ := List.getElem?_of_mem hr
    obtain ⟨a, ha⟩ := hB.somewhere (r.off + i)
    have hcur := current_of_succeeded (watch_run hB h₀ ht) (reached_of_fitRun ht) (Nat.zero_le j) hj
      hgood (.inr trivial) (Nat.le_add_right _ _) (by omega) ha
    rw [arrival, hread, if_neg Bool.false_ne_true, Nat.add_sub_cancel_left] at hcur
    refine hcur.imp_right ?_
    rintro ⟨m, w, hm, -, hx, hb⟩
    exact ⟨w, List.mem_of_getElem? hm, hx, hb⟩
  stored s u t hs hu ht k w hk hw hgood x hx a ha :=
    since_of_current ((watch_stored hB hs hu ht hk hw hgood hx).devs trivial a ha)
  fresh s u t hs hu ht k w hk hw hgood x hx j r hj hr hread hok hlo hhi := by
    have hwatch := watch_stored hB hs hu ht hk hw hgood hx
    have hreached := reached_of_fitRun (Lts.run_trans (Lts.run_trans hs hu) ht)
    obtain ⟨a, ha⟩ := hB.somewhere x
    have hcur := current_of_succeeded hwatch hreached hj hr hok (.inr trivial) hlo hhi ha
    rw [arrival, hread, if_neg Bool.false_ne_true] at hcur
    exact since_of_current hcur

end Ublk.Failstop
