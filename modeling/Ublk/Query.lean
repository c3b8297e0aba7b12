import Ublk.Lib.Blocks
import Mathlib.Data.List.Basic

/-!
Queries and the handlers below. A query is forwarded as subqueries, each submitted to
one handler. A handler rejects a submit, keeps the subquery, or completes it at once.
The bytes of a kept subquery take effect one by one at any time before it completes.
-/
namespace Ublk

/-- Byte `x` of handler `h` is at `(h, x)`. -/
abbrev Addr := Nat × Nat

/-- The new bytes of a partial write laid over the old ones. -/
def overlay (old : Nat → Byte) (off size : Nat) (src : Nat → Byte) : Nat → Byte :=
  fun i => if off ≤ i ∧ i < off + size then src (i - off) else old i

/-- What a handler makes of a submit. Completing with an error it may have moved some bytes. -/
inductive Outcome
  | reject (e : Int) (h : e ≠ 0)
  | held
  | done (e : Int) (hit : Nat → Bool)

/-- Turned down with the code 5. -/
def Outcome.refused : Outcome := .reject 5 (by decide)

/-- Kept, or completed without an error. -/
def Outcome.Succeeds : Outcome → Prop
  | .reject _ _ => False
  | .held => True
  | .done e _ => e = 0

def Outcome.Accepts : Outcome → Prop
  | .reject _ _ => False
  | _ => True

theorem accepts_of_succeeds {o : Outcome} (h : o.Succeeds) : o.Accepts := by
  cases o with
  | reject e he => exact h
  | _ => trivial

/-- The answers to all submits, reads and writes, one after the other, what fresh buffers
hold, and the order in which the compiler has the arguments of a call evaluated. -/
structure Env where
  beh : Bool → Nat → Outcome
  junk : Nat → Nat → Byte
  /-- A lambda takes what it moves before the arguments in front of it are evaluated. -/
  movesFirst : Bool := false

structure Disk where
  dev : Addr → Byte
  /-- Submits made so far. -/
  next : Nat

/-- A subquery: `len` bytes at `pos` of the buffer and at `off` of handler `hid`. -/
structure Sub where
  hid : Nat
  off : Nat
  pos : Nat
  len : Nat
  deriving DecidableEq

/-- A subquery in flight and which of its bytes took effect. -/
structure Op where
  sub : Sub
  took : Nat → Bool

/-- The bytes of a handler that a submit writes at once. -/
def Outcome.lands (o : Outcome) (s : Sub) (x : Nat) : Bool :=
  match o with
  | .done e hit => decide (s.off ≤ x ∧ x < s.off + s.len) && (e == 0 || hit (x - s.off))
  | _ => false

/-- The bytes of a handler that are written when some of an operation take effect. -/
def Op.lands (op : Op) (hit : Nat → Bool) (x : Nat) : Bool :=
  decide (op.sub.off ≤ x ∧ x < op.sub.off + op.sub.len) &&
    (hit (x - op.sub.off) && !op.took (x - op.sub.off))

/-- A query with its subqueries in flight. It is destroyed, and its completer runs, when
there is none and nobody submits for it any more. -/
structure Query where
  write : Bool
  buf : Nat → Byte
  ops : List Op
  err : Int
  /-- History: the code of a rejected submit. -/
  rej : Int
  /-- History: some subquery completed with an error. -/
  bad : Bool

namespace Sub

def Covers (s : Sub) (p : Nat) : Prop := s.pos ≤ p ∧ p < s.pos + s.len

def addr (s : Sub) (p : Nat) : Addr := (s.hid, s.off + (p - s.pos))

instance (s : Sub) (p : Nat) : Decidable (s.Covers p) :=
  inferInstanceAs (Decidable (s.pos ≤ p ∧ p < s.pos + s.len))

/-- The subquery moves what the map `loc` says. -/
def Fits (s : Sub) (loc : Nat → Addr) (size : Nat) : Prop :=
  ∀ p, s.Covers p → p < size ∧ s.addr p = loc p

end Sub

/-- The subqueries of a request follow each other in its buffer from `pos` on. -/
def Consecutive : Nat → List Sub → Nat → Prop
  | pos, [], size => pos = size
  | pos, s :: ss, size => s.pos = pos ∧ 0 < s.len ∧ Consecutive (pos + s.len) ss size

theorem bounds_of_consecutive {ss : List Sub} {pos size : Nat} (h : Consecutive pos ss size) :
    pos ≤ size ∧ ∀ p ∈ ss, 0 < p.len ∧ p.pos + p.len ≤ size := by
  induction ss generalizing pos with
  | nil => exact ⟨h.le, by simp⟩
  | cons q ss ih =>
    obtain ⟨rfl, hlen, hrest⟩ := h
    obtain ⟨hle, hmem⟩ := ih hrest
    refine ⟨by omega, fun p hp => ?_⟩
    obtain rfl | hp := List.mem_cons.mp hp
    · exact ⟨hlen, hle⟩
    · exact hmem p hp

theorem covers_of_consecutive {ss : List Sub} {pos size i : Nat} (h : Consecutive pos ss size)
    (hlo : pos ≤ i) (hhi : i < size) : ∃ s ∈ ss, s.Covers i := by
  induction ss generalizing pos with
  | nil =>
    have hend : pos = size := h
    omega
  | cons s ss ih =>
    obtain ⟨rfl, -, hrest⟩ := h
    by_cases hi : i < s.pos + s.len
    · exact ⟨s, .head _, hlo, hi⟩
    · obtain ⟨t, ht, hc⟩ := ih hrest (by omega)
      exact ⟨t, .tail _ ht, hc⟩

namespace Query

def read (buf : Nat → Byte) : Query := ⟨false, buf, [], 0, 0, false⟩

def writing (buf : Nat → Byte) : Query := ⟨true, buf, [], 0, 0, false⟩

/-- A completed subquery hands its error to the query; a later error replaces it. -/
def setErr (q : Query) (e : Int) : Query := if e = 0 then q else { q with err := e, bad := true }

/-- The bytes of `s` picked by `hit` take effect. -/
def carry (q : Query) (s : Sub) (hit : Nat → Bool) (dev : Addr → Byte) : Query × (Addr → Byte) :=
  if q.write then
    (q, fun a => if a.1 = s.hid ∧ s.off ≤ a.2 ∧ a.2 < s.off + s.len ∧ hit (a.2 - s.off) then
      q.buf (s.pos + (a.2 - s.off)) else dev a)
  else
    ({ q with buf := fun p => if s.Covers p ∧ hit (p - s.pos) then dev (s.addr p) else q.buf p },
      dev)

def submit (E : Env) (q : Query) (s : Sub) (d : Disk) : Int × Query × Disk :=
  match E.beh q.write d.next with
  | .reject e _ => (e, { q with rej := e }, { d with next := d.next + 1 })
  | .held =>
    (0, { q with ops := q.ops ++ [⟨s, fun _ => false⟩] }, { d with next := d.next + 1 })
  | .done e hit =>
    let r := q.carry s (fun i => e == 0 || hit i) d.dev
    (0, r.1.setErr e, ⟨r.2, d.next + 1⟩)

/-- Submit one after the other until one is rejected. -/
def submitAll (E : Env) (q : Query) : List Sub → Disk → Int × Query × Disk
  | [], d => (0, q, d)
  | s :: ss, d =>
    let r := q.submit E s d
    if r.1 = 0 then submitAll E r.2.1 ss r.2.2 else r

/-- Some bytes of the `k`-th subquery in flight take effect, each for the first time. -/
def effect (q : Query) (k : Nat) (hit : Nat → Bool) (dev : Addr → Byte) :
    Option (Query × (Addr → Byte)) :=
  q.ops[k]?.map fun op =>
    let r := q.carry op.sub (fun i => hit i && !op.took i) dev
    ({ r.1 with ops := q.ops.set k ⟨op.sub, fun i => op.took i || hit i⟩ }, r.2)

/-- The `k`-th subquery in flight completes. It has no error only if every byte took effect. -/
def settle (q : Query) (k : Nat) (e : Int) : Option Query :=
  q.ops[k]?.bind fun op =>
    if e ≠ 0 ∨ ∀ i < op.sub.len, op.took i = true then
      some ({ q with ops := q.ops.eraseIdx k }.setErr e)
    else none

/-- Neither rejected nor failed so far. -/
def Clean (q : Query) : Prop := q.rej = 0 ∧ q.bad = false

/-- Nothing was submitted for the query. -/
def Untouched (q : Query) : Prop := q = read q.buf

/-- The error a query carries says whether a subquery completed with one. -/
def Honest (q : Query) : Prop := q.err = 0 ↔ q.bad = false

/-- Byte `p` of the buffer is still to be moved. -/
def Pending (q : Query) (p : Nat) : Prop :=
  ∃ op ∈ q.ops, op.sub.Covers p ∧ op.took (p - op.sub.pos) = false

variable {E : Env} {q q' : Query} {s : Sub} {ss : List Sub} {d d' : Disk} {dev dev' : Addr → Byte}
  {hit : Nat → Bool} {loc : Nat → Addr} {size k p : Nat} {R R' : Nat → Prop} {e : Int} {a : Addr}

@[simp] theorem ops_setErr : (q.setErr e).ops = q.ops := by unfold setErr; split <;> rfl
@[simp] theorem buf_setErr : (q.setErr e).buf = q.buf := by unfold setErr; split <;> rfl
@[simp] theorem rej_setErr : (q.setErr e).rej = q.rej := by unfold setErr; split <;> rfl
@[simp] theorem write_setErr : (q.setErr e).write = q.write := by unfold setErr; split <;> rfl

@[simp] theorem bad_setErr : (q.setErr e).bad = false ↔ e = 0 ∧ q.bad = false := by
  unfold setErr; split <;> simp_all

theorem clean_setErr (h : (q.setErr e).Clean) : e = 0 ∧ q.Clean := by
  obtain ⟨hr, hb⟩ := h
  rw [rej_setErr] at hr
  rw [bad_setErr] at hb
  exact ⟨hb.1, hr, hb.2⟩

@[simp] theorem ops_carry : (q.carry s hit dev).1.ops = q.ops := by unfold carry; split <;> rfl
@[simp] theorem err_carry : (q.carry s hit dev).1.err = q.err := by unfold carry; split <;> rfl
@[simp] theorem rej_carry : (q.carry s hit dev).1.rej = q.rej := by unfold carry; split <;> rfl
@[simp] theorem bad_carry : (q.carry s hit dev).1.bad = q.bad := by unfold carry; split <;> rfl
@[simp] theorem write_carry : (q.carry s hit dev).1.write = q.write := by
  unfold carry; split <;> rfl

theorem carry_of_read (hw : q.write = false) : (q.carry s hit dev).2 = dev := by
  simp [carry, hw]

theorem buf_carry_of_write (hw : q.write = true) : (q.carry s hit dev).1.buf = q.buf := by
  simp [carry, hw]

/-- Writing picked bytes of a fitting subquery touches only where the map leads. -/
theorem carry_elsewhere (hs : s.Fits loc size)
    (ha : ∀ p < size, s.Covers p → hit (p - s.pos) = true → loc p ≠ a) :
    (q.carry s hit dev).2 a = dev a := by
  cases hw : q.write with
  | false => rw [carry_of_read hw]
  | true =>
    simp only [carry, hw, if_true]
    rw [if_neg]
    rintro ⟨h₁, h₂, h₃, h₄⟩
    have hc : s.Covers (s.pos + (a.2 - s.off)) := by unfold Sub.Covers; omega
    obtain ⟨hlt, hloc⟩ := hs _ hc
    refine ha _ hlt hc (by simpa using h₄) (hloc.symm.trans ?_)
    ext <;> simp [Sub.addr, h₁]
    omega

/-- A byte that takes effect is the same in the buffer and on the disk. -/
theorem carry_agrees (hs : s.Fits loc size) (hc : s.Covers p) (hh : hit (p - s.pos) = true) :
    (q.carry s hit dev).1.buf p = (q.carry s hit dev).2 (loc p) := by
  obtain ⟨-, hloc⟩ := hs p hc
  obtain ⟨h₁, h₂⟩ := hc
  rw [← hloc]
  cases hw : q.write with
  | false => simp [carry, hw, Sub.Covers, h₁, h₂, hh]
  | true =>
    simp only [carry, hw, if_true, Sub.addr]
    rw [if_pos ⟨trivial, by omega, by omega, by simpa using hh⟩]
    congr 1
    omega

theorem carry_keeps (hs : s.Fits loc size) (hinj : Set.InjOn loc (Set.Iio size)) (hp : p < size)
    (hn : ¬ (s.Covers p ∧ hit (p - s.pos) = true)) :
    (q.carry s hit dev).1.buf p = q.buf p ∧ (q.carry s hit dev).2 (loc p) = dev (loc p) := by
  constructor
  · cases hw : q.write with
    | true => rw [buf_carry_of_write hw]
    | false => simp only [carry, hw, Bool.false_eq_true, if_false, if_neg hn]
  · refine carry_elsewhere hs fun p' hp' hc hh he => hn ?_
    rw [hinj hp' hp he] at hc hh
    exact ⟨hc, hh⟩

/-- The query moves what `loc` says. Of the bytes in `R`, those not pending any more are the
same in the buffer and on the disk, unless something was rejected or failed. -/
structure Follows (q : Query) (loc : Nat → Addr) (size : Nat) (R : Nat → Prop)
    (dev : Addr → Byte) : Prop where
  fits : ∀ op ∈ q.ops, op.sub.Fits loc size
  agrees : q.Clean → ∀ p < size, R p → ¬ q.Pending p → q.buf p = dev (loc p)
  code : q.Honest

theorem honest_read (buf : Nat → Byte) : (read buf).Honest := by simp [Honest, read]

theorem honest_writing (buf : Nat → Byte) : (writing buf).Honest := by simp [Honest, writing]

theorem honest_of_eq (he : q'.err = q.err) (hb : q'.bad = q.bad) (h : q.Honest) : q'.Honest := by
  rw [Honest, he, hb]
  exact h

theorem follows_read (buf : Nat → Byte) : (read buf).Follows loc size (fun _ => False) dev :=
  ⟨by simp [read], fun _ _ _ h => h.elim, honest_read buf⟩

theorem follows_writing (buf : Nat → Byte) :
    (writing buf).Follows loc size (fun _ => False) dev :=
  ⟨by simp [writing], fun _ _ _ h => h.elim, honest_writing buf⟩

theorem follows_elsewhere (h : q.Follows loc size R dev)
    (hdev : ∀ p < size, dev' (loc p) = dev (loc p)) : q.Follows loc size R dev' :=
  ⟨h.fits, fun hc p hp hR hn => (h.agrees hc p hp hR hn).trans (hdev p hp).symm, h.code⟩

theorem honest_setErr (h : q.Honest) : (q.setErr e).Honest := by
  unfold setErr
  split
  · exact h
  · simp_all [Honest]

theorem follows_submit (h : q.Follows loc size R d.dev) (hs : s.Fits loc size)
    (hinj : Set.InjOn loc (Set.Iio size))
    (hr : (q.submit E s d).1 = 0 → ∀ p < size, R' p → R p ∨ s.Covers p) :
    (q.submit E s d).2.1.Follows loc size R' (q.submit E s d).2.2.dev := by
  unfold submit at *
  split
  · rename_i e he _
    exact ⟨h.fits, fun hc => absurd hc.1 he, h.code⟩
  · rename_i hb
    simp only [hb, true_imp_iff] at hr
    refine ⟨fun op hop => ?_, fun hc p hp hR hn => ?_, h.code⟩
    · obtain hop | hop := List.mem_append.mp hop
      · exact h.fits op hop
      · exact List.mem_singleton.mp hop ▸ hs
    · obtain hR | hcov := hr p hp hR
      · refine h.agrees hc p hp hR fun ⟨op, hop, ho⟩ => hn ⟨op, ?_, ho⟩
        exact List.mem_append_left _ hop
      · exact absurd ⟨_, List.mem_append_right _ (.head _), hcov, rfl⟩ hn
  · rename_i e hit hb
    simp only [hb, true_imp_iff] at hr
    refine ⟨fun op hop => ?_, fun hc p hp hR hn => ?_,
      honest_setErr (honest_of_eq (by simp) (by simp) h.code)⟩
    · rw [ops_setErr, ops_carry] at hop
      exact h.fits op hop
    · obtain ⟨rfl, hc⟩ := clean_setErr hc
      simp only [buf_setErr]
      by_cases hcov : s.Covers p
      · exact carry_agrees hs hcov rfl
      · obtain ⟨hbuf, hdev⟩ := @carry_keeps q s d.dev (fun i => (0 : Int) == 0 || hit i) _ _ _ hs
          hinj hp fun hn => hcov hn.1
        rw [hbuf, hdev]
        refine h.agrees ?_ p hp ((hr p hp hR).resolve_right hcov) ?_
        · simpa [Clean] using hc
        · simpa [Pending] using hn

theorem honest_submit (h : q.Honest) : (q.submit E s d).2.1.Honest := by
  unfold submit
  split
  · exact h
  · exact h
  · exact honest_setErr (honest_of_eq (by simp) (by simp) h)

@[simp] theorem write_submit : (q.submit E s d).2.1.write = q.write := by
  unfold submit; split <;> simp

theorem buf_submit_of_write (hw : q.write = true) : (q.submit E s d).2.1.buf = q.buf := by
  unfold submit; split <;> simp [buf_carry_of_write hw]

theorem rej_submit : (q.submit E s d).2.1.rej =
    if (q.submit E s d).1 = 0 then q.rej else (q.submit E s d).1 := by
  unfold submit; split <;> simp_all

theorem dev_submit_of_read (hw : q.write = false) : (q.submit E s d).2.2.dev = d.dev := by
  unfold submit; split <;> simp [carry_of_read hw]

theorem submit_elsewhere (hs : s.Fits loc size) (ha : ∀ p < size, loc p ≠ a) :
    (q.submit E s d).2.2.dev a = d.dev a := by
  unfold submit
  split
  · rfl
  · rfl
  · exact carry_elsewhere hs fun p hp _ _ => ha p hp

/-- The pieces a list of subqueries has been submitted for. -/
theorem follows_submitAll (h : q.Follows loc size R d.dev) (hs : ∀ s ∈ ss, s.Fits loc size)
    (hinj : Set.InjOn loc (Set.Iio size)) (hr : (q.submitAll E ss d).1 = 0 →
      ∀ p < size, R' p → R p ∨ ∃ s ∈ ss, s.Covers p) :
    (q.submitAll E ss d).2.1.Follows loc size R' (q.submitAll E ss d).2.2.dev := by
  induction ss generalizing q d R with
  | nil =>
    refine ⟨h.fits, fun hc p hp hR hn => h.agrees hc p hp ?_ hn, h.code⟩
    simpa using hr rfl p hp hR
  | cons s ss ih =>
    rw [submitAll]
    rw [submitAll] at hr
    split
    · rename_i h₀
      rw [if_pos h₀] at hr
      refine ih (R := fun p => R p ∨ s.Covers p) ?_ (fun x hx => hs x (.tail _ hx)) fun hz p hlt hp => ?_
      · exact follows_submit h (hs s (.head _)) hinj fun _ p _ hp => hp
      · obtain hR | ⟨x, hx, hc⟩ := hr hz p hlt hp
        · exact .inl (.inl hR)
        · obtain rfl | hx := List.mem_cons.mp hx
          · exact .inl (.inr hc)
          · exact .inr ⟨x, hx, hc⟩
    · rename_i h₀
      exact follows_submit h (hs s (.head _)) hinj fun hz => absurd hz h₀

@[simp] theorem write_submitAll : (q.submitAll E ss d).2.1.write = q.write := by
  induction ss generalizing q d with
  | nil => rfl
  | cons s ss ih =>
    rw [submitAll]
    split
    · rw [ih, write_submit]
    · exact write_submit

theorem honest_submitAll (h : q.Honest) : (q.submitAll E ss d).2.1.Honest := by
  induction ss generalizing q d with
  | nil => exact h
  | cons s ss ih =>
    rw [submitAll]
    split
    · exact ih (honest_submit h)
    · exact honest_submit h

theorem buf_submitAll_of_write (hw : q.write = true) : (q.submitAll E ss d).2.1.buf = q.buf := by
  induction ss generalizing q d with
  | nil => rfl
  | cons s ss ih =>
    rw [submitAll]
    split
    · rw [ih (by simpa using hw), buf_submit_of_write hw]
    · exact buf_submit_of_write hw

theorem rej_submitAll (hq : q.rej = 0) :
    (q.submitAll E ss d).2.1.rej = (q.submitAll E ss d).1 := by
  induction ss generalizing q d with
  | nil => exact hq
  | cons s ss ih =>
    rw [submitAll]
    split
    · exact ih (by rw [rej_submit, if_pos ‹_›, hq])
    · rw [rej_submit, if_neg ‹_›]

theorem dev_submitAll_of_read (hw : q.write = false) :
    (q.submitAll E ss d).2.2.dev = d.dev := by
  induction ss generalizing q d with
  | nil => rfl
  | cons s ss ih =>
    rw [submitAll]
    split
    · rw [ih (by simpa using hw), dev_submit_of_read hw]
    · exact dev_submit_of_read hw

theorem submitAll_elsewhere (hs : ∀ s ∈ ss, s.Fits loc size) (ha : ∀ p < size, loc p ≠ a) :
    (q.submitAll E ss d).2.2.dev a = d.dev a := by
  induction ss generalizing q d with
  | nil => rfl
  | cons s ss ih =>
    rw [submitAll]
    split
    · rw [ih fun x hx => hs x (.tail _ hx), submit_elsewhere (hs s (.head _)) ha]
    · exact submit_elsewhere (hs s (.head _)) ha

@[simp] theorem next_submit : (q.submit E s d).2.2.next = d.next + 1 := by
  unfold submit; split <;> rfl

theorem next_submitAll (h : (q.submitAll E ss d).1 = 0) :
    (q.submitAll E ss d).2.2.next = d.next + ss.length := by
  induction ss generalizing q d with
  | nil => rfl
  | cons s ss ih =>
    rw [submitAll] at h ⊢
    split at h
    · rename_i h₀
      rw [if_pos h₀, ih h, next_submit, List.length_cons]
      omega
    · exact absurd h ‹_›

/-- The submits of a list are all accepted exactly if no answer due to them is a rejection. -/
theorem submitAll_eq_zero : (q.submitAll E ss d).1 = 0 ↔
    ∀ i < ss.length, (E.beh q.write (d.next + i)).Accepts := by
  induction ss generalizing q d with
  | nil => simp [submitAll]
  | cons s ss ih =>
    have hhead : (q.submit E s d).1 = 0 ↔ (E.beh q.write d.next).Accepts := by
      unfold submit Outcome.Accepts
      split <;> simp_all
    rw [submitAll]
    split
    · rename_i h₀
      rw [ih, next_submit, List.length_cons, write_submit]
      constructor
      · intro h i hi
        cases i with
        | zero => exact hhead.mp h₀
        | succ i =>
          have := h i (by omega)
          rwa [show d.next + 1 + i = d.next + (i + 1) by omega] at this
      · intro h i hi
        have := h (i + 1) (by omega)
        rwa [show d.next + (i + 1) = d.next + 1 + i by omega] at this
    · rename_i h₀
      exact ⟨fun h => absurd h h₀, fun h => absurd (hhead.mpr (h 0 (by simp))) h₀⟩

theorem clean_submit (h : (E.beh q.write d.next).Succeeds) (hq : q.Clean) :
    (q.submit E s d).1 = 0 ∧ (q.submit E s d).2.1.Clean := by
  unfold submit
  unfold Outcome.Succeeds at h
  split <;> simp_all [Clean]

theorem clean_submitAll (hE : ∀ i, (E.beh q.write i).Succeeds) (hq : q.Clean) :
    (q.submitAll E ss d).1 = 0 ∧ (q.submitAll E ss d).2.1.Clean := by
  induction ss generalizing q d with
  | nil => exact ⟨rfl, hq⟩
  | cons s ss ih =>
    obtain ⟨h₀, hc⟩ := clean_submit (s := s) (d := d) (hE _) hq
    rw [submitAll, if_pos h₀]
    exact ih (by simpa using hE) hc

theorem effect_eq {q'} (h : q.effect k hit dev = some (q', dev')) :
    ∃ op, q.ops[k]? = some op ∧
      q' = { (q.carry op.sub (fun i => hit i && !op.took i) dev).1 with
        ops := q.ops.set k ⟨op.sub, fun i => op.took i || hit i⟩ } ∧
      dev' = (q.carry op.sub (fun i => hit i && !op.took i) dev).2 := by
  obtain ⟨op, hop, he⟩ := Option.map_eq_some_iff.mp h
  cases he
  exact ⟨op, hop, rfl, rfl⟩

theorem effect_keeps (he : q.effect k hit dev = some (q', dev')) :
    q'.write = q.write ∧ q'.rej = q.rej ∧ q'.err = q.err ∧ q'.bad = q.bad ∧
      (q'.ops = [] ↔ q.ops = []) ∧ (q.write = true → q'.buf = q.buf) := by
  obtain ⟨op, hop, rfl, rfl⟩ := effect_eq he
  refine ⟨by simp, by simp, by simp, by simp, ?_, fun hw => by simp [buf_carry_of_write hw]⟩
  simp [List.set_eq_nil_iff]

theorem follows_effect (h : q.Follows loc size R dev) (hinj : Set.InjOn loc (Set.Iio size))
    (he : q.effect k hit dev = some (q', dev')) : q'.Follows loc size R dev' := by
  obtain ⟨op, hop, rfl, rfl⟩ := effect_eq he
  obtain ⟨hlt, rfl⟩ := List.getElem?_eq_some_iff.mp hop
  have hs := h.fits _ (List.getElem_mem hlt)
  refine ⟨fun x hx => ?_, fun hc p hp hR hn => ?_, honest_of_eq (by simp) (by simp) h.code⟩
  · obtain hx | rfl := List.mem_or_eq_of_mem_set hx
    · exact h.fits x hx
    · exact hs
  · by_cases hm : q.ops[k].sub.Covers p ∧
        (hit (p - q.ops[k].sub.pos) && !q.ops[k].took (p - q.ops[k].sub.pos)) = true
    · exact @carry_agrees q _ _ (fun i => hit i && !q.ops[k].took i) _ _ _ hs hm.1 hm.2
    · obtain ⟨hbuf, hdev⟩ := @carry_keeps q _ dev
        (fun i => hit i && !q.ops[k].took i) _ _ _ hs hinj hp hm
      refine hbuf.trans ((h.agrees ?_ p hp hR ?_).trans hdev.symm)
      · simpa [Clean] using hc
      · rintro ⟨x, hx, hcov, htook⟩
        obtain ⟨i, hi, rfl⟩ := List.mem_iff_getElem.mp hx
        by_cases hik : i = k
        · subst hik
          refine hn ⟨_, List.mem_set hlt _, hcov, ?_⟩
          simp_all
        · refine hn ⟨q.ops[i], ?_, hcov, htook⟩
          exact List.mem_iff_getElem.mpr ⟨i, by simpa using hi, by simp [Ne.symm hik]⟩

theorem effect_elsewhere (h : q.Follows loc size R dev)
    (he : q.effect k hit dev = some (q', dev')) (ha : ∀ p < size, loc p ≠ a) :
    dev' a = dev a := by
  obtain ⟨op, hop, rfl, rfl⟩ := effect_eq he
  exact carry_elsewhere (h.fits op (List.mem_of_getElem? hop)) fun p hp _ _ => ha p hp

theorem dev_effect_of_read (hw : q.write = false) (he : q.effect k hit dev = some (q', dev')) :
    dev' = dev := by
  obtain ⟨op, -, -, rfl⟩ := effect_eq he
  exact carry_of_read hw

theorem settle_eq (h : q.settle k e = some q') : ∃ op, q.ops[k]? = some op ∧
    (e = 0 → ∀ i < op.sub.len, op.took i = true) ∧
    q' = ({ q with ops := q.ops.eraseIdx k } : Query).setErr e := by
  obtain ⟨op, hop, he⟩ := Option.bind_eq_some_iff.mp h
  split at he
  · cases he
    exact ⟨op, hop, fun h₀ => (‹_ ∨ _›).resolve_left (by simp [h₀]), rfl⟩
  · cases he

theorem settle_keeps (he : q.settle k e = some q') :
    q.ops ≠ [] ∧ q'.write = q.write ∧ q'.rej = q.rej ∧ q'.buf = q.buf ∧
      (q'.bad = false ↔ e = 0 ∧ q.bad = false) := by
  obtain ⟨op, hop, -, rfl⟩ := settle_eq he
  refine ⟨fun hn => ?_, by simp, by simp, by simp, by simp⟩
  simp [hn] at hop

theorem follows_settle (h : q.Follows loc size R dev) (he : q.settle k e = some q') :
    q'.Follows loc size R dev := by
  obtain ⟨op, hop, htook, rfl⟩ := settle_eq he
  obtain ⟨hlt, rfl⟩ := List.getElem?_eq_some_iff.mp hop
  refine ⟨fun x hx => ?_, fun hc p hp hR hn => ?_, honest_setErr h.code⟩
  · rw [ops_setErr] at hx
    exact h.fits x (List.mem_of_mem_eraseIdx hx)
  · obtain ⟨rfl, hc⟩ := clean_setErr hc
    rw [buf_setErr]
    refine h.agrees hc p hp hR fun ⟨x, hx, hcov, hx'⟩ => ?_
    obtain rfl | hx := List.mem_cons.mp ((List.getElem_cons_eraseIdx_perm hlt).mem_iff.mpr hx)
    · have := htook rfl (p - q.ops[k].sub.pos) (by unfold Sub.Covers at hcov; omega)
      simp_all
    · exact hn ⟨x, by simpa using hx, hcov, hx'⟩

theorem honest_settle (h : q.Honest) (he : q.settle k e = some q') : q'.Honest := by
  obtain ⟨op, -, -, rfl⟩ := settle_eq he
  exact honest_setErr h

/-- Nothing in flight and nothing went wrong: buffer and disk agree. -/
theorem agrees_of_ended (h : q.Follows loc size R dev) (hc : q.Clean) (ho : q.ops = [])
    (hp : p < size) (hR : R p) : q.buf p = dev (loc p) :=
  h.agrees hc p hp hR (by simp [Pending, ho])

/-- A byte that is not written stays. -/
theorem dev_of_not_lands {x : Nat} (h : (E.beh q.write d.next).lands s x = false) :
    (q.submit E s d).2.2.dev (k, x) = d.dev (k, x) := by
  unfold submit
  split
  · rfl
  · rfl
  · rename_i e hit hb
    cases hw : q.write with
    | false => exact congrFun (carry_of_read hw) _
    | true =>
      simp only [hw] at hb
      simp only [Outcome.lands, hw, hb, Bool.and_eq_false_iff, decide_eq_false_iff_not] at h
      simp only [carry, hw, if_true]
      rw [if_neg]
      rintro ⟨-, h₁, h₂, h₃⟩
      obtain h | h := h
      · exact h ⟨h₁, h₂⟩
      · rw [h] at h₃
        cases h₃

theorem dev_of_not_lands_effect {x n : Nat} (he : q.effect k hit dev = some (q', dev'))
    (h : (q.ops.any fun op => op.lands hit x) = false) : dev' (n, x) = dev (n, x) := by
  obtain ⟨op, hop, -, rfl⟩ := effect_eq he
  have h := List.any_eq_false.mp h op (List.mem_of_getElem? hop)
  cases hw : q.write with
  | false => exact congrFun (carry_of_read hw) _
  | true =>
    simp only [carry, hw, if_true]
    rw [if_neg]
    rintro ⟨-, h₁, h₂, h₃⟩
    exact h (by simpa [Op.lands, h₁, h₂] using h₃)

/-- What holds of each query by itself, if its subqueries complete with codes in `okE`. -/
structure Rule (E : Env) (okE : Int → Prop) (P : Query → Prop) : Prop where
  submit : ∀ b buf ss d, P ((Query.mk b buf [] 0 0 false).submitAll E ss d).2.1
  effect : ∀ q k hit dev q' dev', q.effect k hit dev = some (q', dev') → P q → P q'
  settle : ∀ q k e q', okE e → q.settle k e = some q' → P q → P q'

theorem honest_rule : Rule E (fun _ => True) Honest where
  submit _ buf _ _ := honest_submitAll (honest_read buf)
  effect _ _ _ _ _ _ he h := honest_of_eq (effect_keeps he).2.2.1 (effect_keeps he).2.2.2.1 h
  settle _ _ _ _ _ he h := honest_settle h he

theorem clean_rule (hE : ∀ b i, (E.beh b i).Succeeds) : Rule E (fun e => e = 0) Clean where
  submit _ _ _ _ := (clean_submitAll (hE _) ⟨rfl, rfl⟩).2
  effect _ _ _ _ _ _ he h :=
    ⟨(effect_keeps he).2.1.trans h.1, (effect_keeps he).2.2.2.1.trans h.2⟩
  settle _ _ _ _ h₀ he h := by
    obtain ⟨-, -, hrej, -, hbad⟩ := settle_keeps he
    exact ⟨hrej.trans h.1, hbad.mpr ⟨h₀, h.2⟩⟩

end Query
end Ublk
