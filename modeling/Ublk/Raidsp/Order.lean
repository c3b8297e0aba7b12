import Ublk.Lib.SerialOrder
import Ublk.Patch
import Ublk.Raidsp.Serialisation

/-!
Sub-writes by stripe, when nothing fails. In a run that puts none of a stripe ahead of another one,
they are worked on as they came, and what is unlocked holds the bytes of the last that came.
-/
namespace Ublk.Raidsp

open Shared Serial Acceptor

variable {G : Geometry} {E : Env} {dev₀ : Addr → Byte} {k i : Nat} {s : State SubWrite Inner}
  {l : Label WriteReq Act Beside}

/-- The sub-writes of stripe `k` in the order in which they were made. -/
def Inner.received (G : Geometry) (x : Inner) (k : Nat) : List Slice :=
  (x.made G).filter fun v => v.stripe == k

def Slice.Covers (v : Slice) (i : Nat) : Prop := v.off ≤ i ∧ i < v.off + v.size

/-- Sub-writes of stripe `k` come in turn. -/
structure Sequential (G : Geometry) (dev₀ : Addr → Byte) (k : Nat) (s : State SubWrite Inner) :
    Prop where
  one : (s.active.filter fun w => w.stripe == k).length ≤ 1
  order : s.inner.received G k =
    ((s.inner.done ++ s.active ++ (s.pending ++ making s.issue)).map SubWrite.toSlice).filter
      fun v => v.stripe == k
  last : ¬ s.locks.Locked k → (∀ w ∈ making s.issue, w.stripe ≠ k) → ∀ as v bs,
    s.inner.received G k = as ++ v :: bs → ∀ i < G.stripeDataSz, v.Covers i →
      (∀ u ∈ bs, ¬ u.Covers i) → s.inner.disk.dev (G.loc k i) = v.src (i - v.off)
  kept : ¬ s.locks.Locked k → (∀ w ∈ making s.issue, w.stripe ≠ k) → ∀ i < G.stripeDataSz,
    (∀ v ∈ s.inner.received G k, ¬ v.Covers i) →
      s.inner.disk.dev (G.loc k i) = dev₀ (G.loc k i)

theorem applyAll_eq {old : Nat → Byte} {ws : List SubWrite} : applyAll old ws =
    overlays Slice.off Slice.size Slice.src old (ws.map SubWrite.toSlice) := by
  rw [overlays, List.foldl_map]
  rfl

theorem sequential_run (hE : ∀ b i, (E.beh b i).Succeeds)
    (h : Lts.Run (acceptor G E).step (fun s l => Succeeding s l ∧ Steady (acceptor G E) k s l)
      (.initial (Inner.initial dev₀)) s) : Sequential G dev₀ k s := by
  have hser : Serialised G E dev₀ s := serialised_run hE (Lts.run_mono (fun _ _ h => h.1) h)
  have hkey : ∀ w : SubWrite, Slice.stripe (SubWrite.toSlice w) = (acceptor G E).key w :=
    fun _ => rfl
  obtain ⟨hord, hturn⟩ := inTurn_run acceptor_tracing hkey acceptor_keyed.fixed
    (fun _ _ => process_accepted hE) rfl rfl (Lts.run_mono (fun _ _ h => h.2) h)
  have horder := hturn hser.alive
  have hended : ¬ s.locks.Locked k → (∀ w ∈ making s.issue, w.stripe ≠ k) → ∀ i < G.stripeDataSz,
      s.inner.disk.dev (G.loc k i) = overlays Slice.off Slice.size Slice.src (dataOf G dev₀ k)
        (s.inner.received G k) i := by
    intro hk hm i hi
    have hrec := ended_inTurn hkey hord horder hk hm
    rw [hser.data k hk i hi, applyAll_eq, Inner.log, Inner.received, hrec, List.filter_map]
    rfl
  refine ⟨?_, horder, fun hk hm as v bs hr i hi hv hlast => ?_, fun hk hm i hi hn => ?_⟩
  · exact one_at_work hord
  · rw [hended hk hm i hi, hr]
    exact overlays_of_last hv hlast
  · rw [hended hk hm i hi]
    exact overlays_of_none hn

end Ublk.Raidsp
