import Ublk.Query

/-!
What a query moves byte by byte, whatever fails. A write leaves each byte of its range as it was or
brings its own; a read brings each byte from where it is at some moment.
-/
namespace Ublk.Query

variable {E : Env} {q q' : Query} {s : Sub} {ss : List Sub} {d : Disk} {dev dev' : Addr → Byte}
  {hit : Nat → Bool} {loc : Nat → Addr} {size k p : Nat} {e : Int} {good good' : Nat → Byte → Prop}

section Write

variable (hinj : Set.InjOn loc (Set.Iio size)) (hp : p < size) (hw : q.write = true)

include hinj hp hw

theorem carry_either (hs : s.Fits loc size) :
    (q.carry s hit dev).2 (loc p) = dev (loc p) ∨ (q.carry s hit dev).2 (loc p) = q.buf p := by
  by_cases hm : s.Covers p ∧ hit (p - s.pos) = true
  · right
    rw [← carry_agrees hs hm.1 hm.2, buf_carry_of_write hw]
  · exact .inl (carry_keeps hs hinj hp hm).2

theorem submit_either (hs : s.Fits loc size) :
    (q.submit E s d).2.2.dev (loc p) = d.dev (loc p) ∨
      (q.submit E s d).2.2.dev (loc p) = q.buf p := by
  unfold submit
  split
  · exact .inl rfl
  · exact .inl rfl
  · exact carry_either hinj hp hw hs

theorem submitAll_either (hs : ∀ s ∈ ss, s.Fits loc size) :
    (q.submitAll E ss d).2.2.dev (loc p) = d.dev (loc p) ∨
      (q.submitAll E ss d).2.2.dev (loc p) = q.buf p := by
  induction ss generalizing q d with
  | nil => exact .inl rfl
  | cons s ss ih =>
    have hone := submit_either (E := E) (d := d) hinj hp hw (hs s (.head _))
    rw [submitAll]
    split
    · have hrest := @ih (q.submit E s d).2.1 (q.submit E s d).2.2 (by simpa using hw)
        fun x hx => hs x (.tail _ hx)
      rw [buf_submit_of_write hw] at hrest
      obtain hrest | hrest := hrest
      · rwa [hrest]
      · exact .inr hrest
    · exact hone

theorem effect_either (h : ∀ op ∈ q.ops, op.sub.Fits loc size)
    (he : q.effect k hit dev = some (q', dev')) :
    dev' (loc p) = dev (loc p) ∨ dev' (loc p) = q.buf p := by
  obtain ⟨op, hop, rfl, rfl⟩ := effect_eq he
  exact carry_either hinj hp hw (h op (List.mem_of_getElem? hop))

end Write

/-- A read whose bytes are `good` as far as they have come. -/
structure Fetches (q : Query) (loc : Nat → Addr) (size : Nat) (good : Nat → Byte → Prop) :
    Prop where
  read : q.write = false
  fits : ∀ op ∈ q.ops, op.sub.Fits loc size
  got : q.Clean → ∀ p < size, ¬ q.Pending p → good p (q.buf p)

theorem fetches_mono (hg : ∀ p < size, ∀ b, good p b → good' p b)
    (h : q.Fetches loc size good) : q.Fetches loc size good' :=
  ⟨h.read, h.fits, fun hc p hp hn => hg p hp _ (h.got hc p hp hn)⟩

/-- A new read, if what it is to read is good. -/
theorem fetches_submitAll {buf : Nat → Byte} (hinj : Set.InjOn loc (Set.Iio size))
    (hs : ∀ s ∈ ss, s.Fits loc size) (hcov : ∀ p < size, ∃ s ∈ ss, s.Covers p)
    (hd : ∀ p < size, good p (d.dev (loc p))) :
    ((Query.read buf).submitAll E ss d).2.1.Fetches loc size good := by
  have hread : (Query.read buf).write = false := rfl
  have hf := @follows_submitAll E (Query.read buf) ss d loc size (fun _ => False) (fun _ => True)
    (follows_read buf) hs hinj fun _ p hp _ => .inr (hcov p hp)
  refine ⟨by simpa using hread, hf.fits, fun hc p hp hn => ?_⟩
  rw [hf.agrees hc p hp trivial hn, dev_submitAll_of_read hread]
  exact hd p hp

theorem fetches_effect (h : q.Fetches loc size good) (hinj : Set.InjOn loc (Set.Iio size))
    (hd : ∀ p < size, good p (dev (loc p))) (he : q.effect k hit dev = some (q', dev')) :
    q'.Fetches loc size good := by
  obtain ⟨op, hop, rfl, rfl⟩ := effect_eq he
  obtain ⟨hlt, rfl⟩ := List.getElem?_eq_some_iff.mp hop
  have hs := h.fits _ (List.getElem_mem hlt)
  refine ⟨by simpa using h.read, fun x hx => ?_, fun hc p hp hn => ?_⟩
  · obtain hx | rfl := List.mem_or_eq_of_mem_set hx
    · exact h.fits x hx
    · exact hs
  · by_cases hm : q.ops[k].sub.Covers p ∧
        (hit (p - q.ops[k].sub.pos) && !q.ops[k].took (p - q.ops[k].sub.pos)) = true
    · have hb := @carry_agrees q _ dev (fun i => hit i && !q.ops[k].took i) _ _ _ hs hm.1 hm.2
      dsimp only
      rw [hb, carry_of_read h.read]
      exact hd p hp
    · obtain ⟨hbuf, -⟩ := @carry_keeps q _ dev
        (fun i => hit i && !q.ops[k].took i) _ _ _ hs hinj hp hm
      dsimp only
      rw [hbuf]
      refine h.got (by simpa [Clean] using hc) p hp ?_
      rintro ⟨x, hx, hcov, htook⟩
      obtain ⟨i, hi, rfl⟩ := List.mem_iff_getElem.mp hx
      by_cases hik : i = k
      · subst hik
        refine hn ⟨_, List.mem_set hlt _, hcov, ?_⟩
        simp_all
      · refine hn ⟨q.ops[i], ?_, hcov, htook⟩
        exact List.mem_iff_getElem.mpr ⟨i, by simpa using hi, by simp [Ne.symm hik]⟩

theorem fetches_settle (h : q.Fetches loc size good) (he : q.settle k e = some q') :
    q'.Fetches loc size good := by
  obtain ⟨op, hop, htook, rfl⟩ := settle_eq he
  obtain ⟨hlt, rfl⟩ := List.getElem?_eq_some_iff.mp hop
  refine ⟨by simpa using h.read, fun x hx => ?_, fun hc p hp hn => ?_⟩
  · rw [ops_setErr] at hx
    exact h.fits x (List.mem_of_mem_eraseIdx hx)
  · obtain ⟨rfl, hc⟩ := clean_setErr hc
    rw [buf_setErr]
    refine h.got hc p hp fun ⟨x, hx, hcov, hx'⟩ => ?_
    obtain rfl | hx := List.mem_cons.mp ((List.getElem_cons_eraseIdx_perm hlt).mem_iff.mpr hx)
    · have := htook rfl (p - q.ops[k].sub.pos) (by unfold Sub.Covers at hcov; omega)
      simp_all
    · exact hn ⟨x, by simpa using hx, hcov, hx'⟩

end Ublk.Query
