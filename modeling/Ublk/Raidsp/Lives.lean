import Ublk.Raidsp.Durable

/-!
The array over many lives of the program. A life may end in any state, with sub-writes under way that
are half done or never will be; the next one starts over the devices as they are then.
-/
namespace Ublk.Raidsp

open Shared Serial Acceptor

variable {G : Geometry} {E : Env} {dev₀ dev : Addr → Byte} {s : State SubWrite Inner}
  {ss : List (State SubWrite Inner)} {k i : Nat}

/-- One life after the other over the same devices: the states they ended in, and what the devices
had at last. -/
inductive Lived (G : Geometry) (dev₀ : Addr → Byte) :
    List (State SubWrite Inner) → (Addr → Byte) → Prop
  | none : Lived G dev₀ [] dev₀
  | next {ss : List (State SubWrite Inner)} {dev : Addr → Byte} (E : Env)
      {s : State SubWrite Inner} : Lived G dev₀ ss dev →
      Lts.Run (acceptor G E).step (RestartAccepted G E) (.initial (Inner.initial dev)) s →
      Lived G dev₀ (ss ++ [s]) s.inner.disk.dev

/-- The sub-writes of a stripe that were started in a life, and whether they came to their end. -/
def attempts (k : Nat) (s : State SubWrite Inner) : List (SubWrite × Bool) :=
  (s.inner.log k).map (fun w => (w, true)) ++
    (s.active.filter fun w => w.stripe = k).map fun w => (w, false)

/-- What byte `i` of a stripe may hold after the attempts `as`. -/
def MayHave (old : Nat → Byte) (as : List (SubWrite × Bool)) (i : Nat) : Byte → Prop :=
  LastWrites.Left (fun a => a.1.Covers i) (fun a => a.2 = true ∧ a.1.Stored)
    (fun a => a.1.src (i - a.1.off)) (old i) as

theorem mayHave_of_mayHold {old : Nat → Byte} {ws : List SubWrite} {b : Byte}
    (h : MayHold old ws i b) : MayHave old (ws.map fun w => (w, true)) i b := by
  obtain ⟨rfl, hn⟩ | ⟨as, w, bs, rfl, hc, hv, hn⟩ := h
  · refine .inl ⟨rfl, fun a ha hc hs => ?_⟩
    obtain ⟨w, hw, rfl⟩ := List.mem_map.mp ha
    exact hn w hw hc hs.2
  · refine .inr ⟨as.map fun w => (w, true), (w, true), bs.map fun w => (w, true), by simp, hc, hv,
      fun a ha hc hs => ?_⟩
    obtain ⟨u, hu, rfl⟩ := List.mem_map.mp ha
    exact hn u hu hc hs.2

/-- What one life leaves, wherever it ends. -/
theorem mayHave_life
    (h : Lts.Run (acceptor G E).step (RestartAccepted G E) (.initial (Inner.initial dev)) s)
    (hi : i < G.stripeDataSz) :
    MayHave (dataOf G dev k) (attempts k s) i (s.inner.disk.dev (G.loc k i)) := by
  have hopen : ∀ {ws : List SubWrite}, ∀ a ∈ ws.map fun w => (w, false), a.1.Covers i →
      ¬ (a.2 = true ∧ a.1.Stored) := by
    intro ws a ha hc hs
    obtain ⟨w, hw, rfl⟩ := List.mem_map.mp ha
    exact Bool.false_ne_true hs.1
  obtain ⟨hd, ho⟩ := traced_run h
  obtain hm | ⟨w, hw, hk, hc, hv⟩ := bytes_of_owned hd ho k hi
  · exact LastWrites.left_of_all_lost (mayHave_of_mayHold hm) hopen
  · have hmem : w ∈ s.active.filter fun w => w.stripe = k :=
      List.mem_filter.mpr ⟨hw, decide_eq_true hk⟩
    obtain ⟨as, bs, he⟩ := List.append_of_mem hmem
    refine .inr ⟨(s.inner.log k).map (fun w => (w, true)) ++ as.map fun w => (w, false), (w, false),
      bs.map fun w => (w, false), ?_, hc, hv, hopen⟩
    rw [attempts, he]
    simp

theorem mayHave_lived (h : Lived G dev₀ ss dev) (hi : i < G.stripeDataSz) :
    MayHave (dataOf G dev₀ k) (ss.flatMap (attempts k)) i (dev (G.loc k i)) := by
  induction h with
  | none => exact LastWrites.left_nil.mpr rfl
  | next E hss hs ih =>
    rw [List.flatMap_append, List.flatMap_singleton]
    exact LastWrites.left_trans ih (mayHave_life hs hi)

theorem requested_lived (h : Lived G dev₀ ss dev) (hs : s ∈ ss) {w : SubWrite}
    (hw : w ∈ s.active ∨ w ∈ s.inner.done) : Requested G s.inner w := by
  induction h with
  | none => exact absurd hs List.not_mem_nil
  | next E hss hrun ih =>
    obtain hs | hs := List.mem_append.mp hs
    · exact ih hs
    · obtain rfl := List.mem_singleton.mp hs
      exact requested_run hrun hw

/-- The data on the devices after all these lives, each sub-write of which brought bytes of a client. -/
structure Outlived (G : Geometry) (dev₀ : Addr → Byte) (ss : List (State SubWrite Inner))
    (dev : Addr → Byte) : Prop where
  bytes : ∀ k, ∀ i < G.stripeDataSz,
    MayHave (dataOf G dev₀ k) (ss.flatMap (attempts k)) i (dev (G.loc k i))
  kept : ∀ k as w bs, ss.flatMap (attempts k) = as ++ (w, true) :: bs → w.Stored →
    ∀ i < G.stripeDataSz, w.Covers i → (∀ a ∈ bs, ¬ a.1.Covers i) →
      dev (G.loc k i) = w.src (i - w.off)
  untouched : ∀ k, ∀ i < G.stripeDataSz, (∀ a ∈ ss.flatMap (attempts k), ¬ a.1.Covers i) →
    dev (G.loc k i) = dev₀ (G.loc k i)
  requested : ∀ s ∈ ss, ∀ w, w ∈ s.active ∨ w ∈ s.inner.done → Requested G s.inner w

/-- Wherever the lives end: what was stored stays, life after life, until it is written over. -/
theorem outlived_of_lived (G : Geometry) (dev₀ dev : Addr → Byte) (ss : List (State SubWrite Inner))
    (h : Lived G dev₀ ss dev) : Outlived G dev₀ ss dev := by
  have hbytes := fun k i (hi : i < G.stripeDataSz) => mayHave_lived (k := k) h hi
  refine ⟨hbytes, fun k as w bs he hs i hi hc hb => ?_, fun k i hi hn => ?_,
    fun s hs w hw => requested_lived h hs hw⟩
  · have hleft := hbytes k i hi
    rw [he] at hleft
    have hlast := LastWrites.eq_of_solid hleft hc ⟨rfl, hs⟩ hb
    exact hlast
  · exact LastWrites.eq_of_none (hbytes k i hi) hn

/-- A write of the first stripe that ends with the life it came in: a hundred bytes of its first strip
are there by then. -/
def cutRun : List (Label WriteReq Act Beside) :=
  [.arrive (stripeReq fun _ => ⟨2⟩), .tick, .tick, .act 0 (.effect .wqd 0 fun j => decide (j < 100))]

/-- After a life that wrote the stripe. -/
theorem outlived_of_lived_cut : ∃ s t : State SubWrite Inner,
    (t.inner.disk.dev (0, 99), t.inner.disk.dev (0, 100), t.inner.disk.dev (1, 0)) =
      (⟨2⟩, ⟨1⟩, ⟨1⟩) ∧ Outlived smallRaid (fun _ => 0) [s, t] t.inner.disk.dev := by
  obtain ⟨s, hs, t, ht, hend⟩ : ∃ s, afterRun allDone [.arrive (stripeReq fun _ => ⟨1⟩), .tick, .tick,
      .tick, .tick] = some s ∧ ∃ t, Lts.exec (acceptor smallRaid allHeld).step
        (.initial (Inner.initial s.inner.disk.dev)) cutRun = some t ∧
          (t.inner.disk.dev (0, 99), t.inner.disk.dev (0, 100), t.inner.disk.dev (1, 0)) =
            (⟨2⟩, ⟨1⟩, ⟨1⟩) := by
    have hend : ((afterRun allDone [.arrive (stripeReq fun _ => ⟨1⟩), .tick, .tick, .tick, .tick]).bind
        fun s => (Lts.exec (acceptor smallRaid allHeld).step
          (.initial (Inner.initial s.inner.disk.dev)) cutRun).map fun t =>
            (t.inner.disk.dev (0, 99), t.inner.disk.dev (0, 100), t.inner.disk.dev (1, 0))) =
        some (⟨2⟩, ⟨1⟩, ⟨1⟩) := by decide +kernel
    obtain ⟨s, hs, h⟩ := Option.bind_eq_some_iff.mp hend
    exact ⟨s, hs, Option.map_eq_some_iff.mp h⟩
  have hall : ∀ E : Env, (∀ c i, (E.beh c i).Accepts) → ∀ s l, RestartAccepted smallRaid E s l := by
    intro E hE s l
    cases l with
    | tick => exact fun _ _ _ _ _ _ _ _ _ => hE _ _
    | _ => trivial
  have h₁ : Lived smallRaid (fun _ => 0) ([] ++ [s]) s.inner.disk.dev :=
    .next allDone .none (Lts.run_of_exec (fun l _ s => hall allDone (fun _ _ => trivial) s l) hs)
  have h₂ : Lived smallRaid (fun _ => 0) ([s] ++ [t]) t.inner.disk.dev :=
    .next allHeld h₁ (Lts.run_of_exec (fun l _ s => hall allHeld (fun _ _ => trivial) s l) ht)
  exact ⟨s, t, hend, outlived_of_lived _ _ _ [s, t] h₂⟩

end Ublk.Raidsp
