import Ublk.Raidsp.Phases
import Ublk.Raidsp.Restart

/-! The coherency flags in every run in which no read fails. -/
namespace Ublk.Raidsp

open Shared Serial Acceptor

variable {G : Geometry} {E : Env} {dev₀ : Addr → Byte} {w w' : SubWrite} {x x' : Inner}
  {k : Nat} {act : Act} {s : State SubWrite Inner} {t t' : Requests} {b : Beside}

/-- Ownership of a stripe. -/
def stripes (G : Geometry) (dev₀ : Addr → Byte) : Guard SubWrite Inner where
  free k x := Settled G dev₀ k x
  held w x := Held G dev₀ w x
  fit w := Fresh G w
  ended _ := True

/-- Reads of sub-writes complete without an error. -/
def ReadSucceeds : Act → Prop
  | .effect _ _ _ => True
  | .settle r _ e => ¬ r.Strip → e = 0

theorem keeps_of_same (hd : ∀ a : Addr, a.2 / G.stripSz = k → x'.disk.dev a = x.disk.dev a)
    (hc : x'.coh k = x.coh k) (hl : x'.log k = x.log k) :
    (stripes G dev₀).Keeps (acceptor G E) k x x' :=
  ⟨settled_congr hd hc hl, fun _ hk => held_congr hd hc hl hk⟩

theorem keeps_of_elsewhere {k' : Nat} (h : Elsewhere G k' x x') (hl : x'.done = x.done)
    (hk : k ≠ k') : (stripes G dev₀).Keeps (acceptor G E) k x x' :=
  keeps_of_same (fun a ha => h.dev a (ha.trans_ne hk)) (h.coh k hk) (by rw [Inner.log, hl]; rfl)

/-- Before a sub-write that ended is destroyed its stripe is settled. -/
theorem placed_of_held (h : Held G dev₀ w x) :
    (stripes G dev₀).Placed (acceptor G E) w x := by
  refine ⟨fun _ => h, fun hb => ⟨trivial, ?_⟩⟩
  have hidle := SubWrite.not_busy.mp hb
  cases h with
  | data _ _ _ hbusy => exact absurd (hidle _) hbusy
  | parity _ _ _ _ hbusy => exact absurd (hidle _) hbusy
  | write old hw hf => exact settled_of_writes hw hf hb

theorem fits_of_held (h : Held G dev₀ w x) : w.off + w.size ≤ G.stripeDataSz := by
  cases h with
  | data hfits => exact hfits
  | parity hfits => exact hfits
  | write old hw => exact hw.fits

theorem held_react (hE : ∀ i, (E.beh false i).Succeeds) (hok : ReadSucceeds act)
    (h : Held G dev₀ w x) (hr : react G E act w x = some (w', x')) : Held G dev₀ w' x' := by
  cases act with
  | effect r n hit =>
    obtain ⟨q, hq, he⟩ := Option.map_eq_some_iff.mp hr
    cases he
    exact held_effect h hq
  | settle r n e =>
    obtain ⟨q, hq, he⟩ := Option.map_eq_some_iff.mp hr
    have := held_settle hE h hok hq
    rwa [he] at this

theorem elsewhere_react (h : Held G dev₀ w x) (hr : react G E act w x = some (w', x')) :
    Elsewhere G w.stripe x x' := by
  cases act with
  | effect r n hit =>
    obtain ⟨q, hq, he⟩ := Option.map_eq_some_iff.mp hr
    cases he
    exact elsewhere_disk fun a ha => effect_in_stripe h hq ha
  | settle r n e =>
    obtain ⟨q, hq, he⟩ := Option.map_eq_some_iff.mp hr
    have hs : Stays G w x (whenIdle r (queryDone G E r) (w.set r q, x)) :=
      stays_whenIdle ⟨rfl, rfl, fun _ => elsewhere_refl⟩ fun _ => stays_queryDone
    have := hs.elsewhere (fits_of_held h)
    rwa [he] at this

theorem fresh_split {r : WriteReq} {c : Nat} (h : w ∈ (split G r c x).1) : Fresh G w := by
  obtain ⟨p, hp, hslice, hq, -⟩ := mem_split h
  obtain ⟨-, -, hin, hpos⟩ := Blocks.mem_cut G.stripeDataSz_pos hp
  refine ⟨by rwa [hslice], by rwa [hslice], fun r => ?_⟩
  rw [SubWrite.Idle, hq]
  rfl

theorem stripes_sound (hE : ∀ i, (E.beh false i).Succeeds) :
    (stripes G dev₀).Sound (acceptor G E) (fun act _ => ReadSucceeds act) fun _ _ => True where
  start w x hw hx := placed_of_held (held_process hE hw hx)
  react act w x w' x' hok h hr := placed_of_held (held_react hE hok h hr)
  start_other w x k hw hk := keeps_of_elsewhere (stays_process.elsewhere hw.fits)
    (by rw [show ((acceptor G E).start w x).2.2 = _ from stays_process.rest]) hk
  react_other act w x w' x' k _ h hr hk :=
    keeps_of_elsewhere (elsewhere_react h hr) (by rw [(react_keeps hr).2]) hk
  enter_other w x k hk := keeps_of_same (fun _ _ => rfl) rfl (log_append_of_ne hk)
  leave _ _ _ _ := keeps_refl
  split _ _ _ _ := keeps_of_same (fun _ _ => rfl) rfl rfl
  split_fit _ _ _ _ h := fresh_split h
  park_fit _ h := ⟨h.pos, h.fits, h.idle⟩
  aside b x t x' t' k _ h := by
    obtain ⟨hx, hd⟩ := beside_keeps h
    exact keeps_of_same (fun a _ => by rw [hd]) (by rw [hx]) (by rw [Inner.log, hx]; rfl)

theorem settled_initial : Settled G dev₀ k (Inner.initial dev₀) := by
  refine ⟨fun _ h => ?_, fun _ => ⟨fun _ _ => rfl, fun h => absurd rfl h⟩⟩
  cases h

/-- What a step of a run with faults meets: the reads of sub-writes succeed, and no submit for
a waiting sub-write that is restarted is rejected. -/
def WriteFaults (G : Geometry) (E : Env) (s : State SubWrite Inner)
    (l : Label WriteReq Act Beside) : Prop :=
  RestartAccepted G E s l ∧ Guarded (fun act _ => ReadSucceeds act) (fun _ _ => True) s l

/-- A stripe no sub-write works on is settled, also while a completer still has its lock. -/
theorem settled_run (hE : ∀ i, (E.beh false i).Succeeds)
    (h : Lts.Run (acceptor G E).step (WriteFaults G E) (.initial (Inner.initial dev₀)) s)
    (hk : ∀ w ∈ s.active, w.stripe ≠ k) : Settled G dev₀ k s.inner := by
  obtain ⟨hd, ho⟩ := owned_run (G := stripes G dev₀) acceptor_keyed (stripes_sound hE)
    (fun _ => settled_initial)
    (Lts.run_mono (fun s l h => ⟨restarts_iff.mpr h.1, h.2⟩) h)
  by_cases hl : s.locks.Locked k
  · obtain hm | hm := List.mem_append.mp ((hd.locked k).mp hl)
    · obtain ⟨w, hw, he⟩ := List.mem_map.mp hm
      exact absurd he (hk w hw)
    · obtain ⟨f, hf, rfl⟩ := List.mem_map.mp hm
      obtain ⟨hf, hfin⟩ := List.mem_filter.mp hf
      exact ho.search f hf (by simpa using hfin)
  · exact ho.free k hl

/-- A stripe that is flagged with no write in flight cancels out, if each sub-write some strip
of which was rejected had another strip that failed. -/
theorem coherent_sound (hE : ∀ i, (E.beh false i).Succeeds)
    (h : Lts.Run (acceptor G E).step (WriteFaults G E) (.initial (Inner.initial dev₀)) s)
    (htold : ∀ w ∈ s.inner.done, w.Told) (hk : ∀ w ∈ s.active, w.stripe ≠ k)
    (hc : s.inner.coh k = true) : XorZero G s.inner.disk.dev k :=
  (settled_run hE h hk).xor (fun w hw => htold w (List.mem_of_mem_filter hw)) hc

/-- Three devices, strips of one sector. -/
def smallRaid : Geometry := raid4 512 3 ⟨9, rfl⟩ ⟨1, rfl⟩ (by decide)

/-- Writes of its first stripe, and of one of its strips. -/
def stripeReq (src : Nat → Byte) : WriteReq := ⟨0, 1024, 0, src, by decide⟩
def stripReq (off : Nat) (src : Nat → Byte) : WriteReq := ⟨off, 512, 0, src, by decide⟩

/-- One write of the first stripe, and the steps the program makes by itself. -/
def stripeWriteRun : List (Label WriteReq Act Beside) :=
  [.arrive (stripeReq fun i => ⟨BitVec.ofNat 8 (i + 1)⟩), .tick, .tick, .tick, .tick]

/-- The state after a run. -/
def afterRun (E : Env) (ls : List (Label WriteReq Act Beside)) : Option (State SubWrite Inner) :=
  Lts.exec (acceptor smallRaid E).step (.initial (Inner.initial fun _ => 0)) ls

def allDone : Env where
  beh _ _ := .done 0 fun _ => true
  junk _ _ := 0

theorem coherent_sound_stripeWrite : ∃ s, afterRun allDone stripeWriteRun = some s ∧
    s.inner.coh 0 = true ∧ XorZero smallRaid s.inner.disk.dev 0 := by
  obtain ⟨s, hs⟩ : ∃ s, afterRun allDone stripeWriteRun = some s :=
    Option.isSome_iff_exists.mp (by decide +kernel)
  have hend : (afterRun allDone stripeWriteRun).map (fun s => (s.inner.coh 0, s.active.length,
      s.inner.done.map fun w => ((w.query .wqd).rej, (w.query .wqp).rej))) =
        some (true, 0, [(0, 0)]) := by decide +kernel
  simp only [hs, Option.map_some, Option.some.injEq, Prod.mk.injEq, List.length_eq_zero_iff,
    List.map_eq_singleton_iff] at hend
  obtain ⟨hcoh, hact, v, hdone, hd, hp⟩ := hend
  refine ⟨s, hs, hcoh, coherent_sound (E := allDone) (fun _ => rfl)
    (Lts.run_of_exec (fun l hl s => ⟨?_, ?_⟩) hs) (fun w hw hr => ?_) (by simp [hact]) hcoh⟩
  · cases l with
    | tick => exact fun _ _ _ _ _ _ _ _ _ => trivial
    | _ => trivial
  · cases l with
    | act i a => simp [stripeWriteRun] at hl
    | _ => trivial
  · rw [hdone, List.mem_singleton] at hw
    simp [hw, hd, hp] at hr

/-- The first strip is written, the second is rejected. -/
def secondRejected : Env where
  beh write i := if write ∧ i = 1 then .refused else .done 0 fun _ => true
  junk _ _ := 0

/-- A rejected strip leaves the flag of its stripe set, whatever has been written. -/
theorem coherent_unsound : ¬ ∀ (G : Geometry) (E : Env) (dev₀ : Addr → Byte)
    (s : State SubWrite Inner) (k : Nat), (∀ i, (E.beh false i).Succeeds) →
    Lts.Run (acceptor G E).step (Guarded (fun act _ => ReadSucceeds act) fun _ _ => True)
      (.initial (Inner.initial dev₀)) s →
    (∀ w ∈ s.active, w.stripe ≠ k) → s.inner.coh k = true → XorZero G s.inner.disk.dev k := by
  intro h
  obtain ⟨s, hs⟩ : ∃ s, afterRun secondRejected stripeWriteRun = some s :=
    Option.isSome_iff_exists.mp (by decide +kernel)
  have hend : (afterRun secondRejected stripeWriteRun).map (fun s => (s.inner.coh 0,
      s.active.length, decide (∑ h ∈ Finset.range 3, s.inner.disk.dev (h, 0) = 0))) =
        some (true, 0, false) := by decide +kernel
  simp only [hs, Option.map_some, Option.some.injEq, Prod.mk.injEq, List.length_eq_zero_iff,
    decide_eq_false_iff_not] at hend
  obtain ⟨hcoh, hact, hsum⟩ := hend
  refine hsum (h smallRaid secondRejected _ s 0 (fun _ => rfl)
    (Lts.run_of_exec (fun l hl s => ?_) hs) (by simp [hact]) hcoh 0 (by decide))
  cases l with
  | act i a => simp [stripeWriteRun] at hl
  | _ => trivial

end Ublk.Raidsp
