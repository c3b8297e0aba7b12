import Ublk.Lib.SerialOwn
import Ublk.Raidsp.Frame

/-!
What a stripe holds. An unlocked stripe has the data its sub-writes left, and a parity to match
if it is flagged. While a sub-write works on it, each byte is the old or the new one.
-/
namespace Ublk.Raidsp

open Shared Serial Acceptor

/-- The strips of a stripe cancel out at every byte. -/
def XorZero (G : Geometry) (dev : Addr → Byte) (k : Nat) : Prop :=
  ∀ j < G.stripSz, ∑ h ∈ Finset.range G.n, dev (h, k * G.stripSz + j) = 0

def dataOf (G : Geometry) (dev : Addr → Byte) (k : Nat) : Nat → Byte := fun i => dev (G.loc k i)

def applyAll (old : Nat → Byte) (ws : List SubWrite) : Nat → Byte :=
  ws.foldl (fun d w => overlay d w.off w.size w.src) old

/-- The sub-writes of a stripe that ended, in the order they did. -/
def Inner.log (x : Inner) (k : Nat) : List SubWrite := x.done.filter fun w => w.stripe = k

namespace SubWrite

/-- All of the sub-write is on the devices. -/
def Written (w : SubWrite) : Prop := (w.query .wqd).Clean ∧ (w.query .wqp).Clean

/-- If a device rejected a strip, another strip that was accepted failed. -/
def Told (w : SubWrite) : Prop :=
  (w.query .wqd).rej ≠ 0 ∨ (w.query .wqp).rej ≠ 0 →
    (w.query .wqd).bad = true ∨ (w.query .wqp).bad = true

theorem told_of_written {w : SubWrite} (h : w.Written) : w.Told := by
  rintro (hr | hr)
  · exact absurd h.1.1 hr
  · exact absurd h.2.1 hr

end SubWrite

variable {G : Geometry} {E : Env} {dev₀ dev dev' : Addr → Byte} {w w' : SubWrite} {x x' : Inner}
  {r : Role} {q : Query} {e : Int} {k : Nat} {old parity : Nat → Byte}

theorem loc_of_lt {i j : Nat} (hj : j < G.stripSz) :
    G.loc k (i * G.stripSz + j) = (G.dataDev k i, k * G.stripSz + j) := by
  rw [Geometry.loc, Blocks.div_block hj, Blocks.mod_block hj]

/-- A stripe cancels out exactly if its parity strip is the parity of its data. -/
theorem xorZero_iff : XorZero G dev k ↔ ∀ j < G.stripSz,
    dev (G.parityLoc k j) = share G.stripSz 0 (dataOf G dev k) G.stripeDataSz j := by
  refine forall₂_congr fun j hj => ?_
  rw [sum_strips G k, Byte.add_eq_zero, Geometry.stripeDataSz, share_stripe hj]
  simp only [dataOf, loc_of_lt hj, Geometry.parityLoc]

theorem xorZero_congr (hd : ∀ a : Addr, a.2 / G.stripSz = k → dev' a = dev a)
    (h : XorZero G dev k) : XorZero G dev' k := by
  intro j hj
  rw [← h j hj]
  refine Finset.sum_congr rfl fun i _ => hd _ ?_
  exact Geometry.row_parityLoc (G := G) hj

/-- What an unlocked stripe has. -/
structure Settled (G : Geometry) (dev₀ : Addr → Byte) (k : Nat) (x : Inner) : Prop where
  xor : (∀ w ∈ x.log k, w.Told) → x.coh k = true → XorZero G x.disk.dev k
  data : (∀ w ∈ x.log k, w.Written) → (∀ i < G.stripeDataSz,
    x.disk.dev (G.loc k i) = applyAll (dataOf G dev₀ k) (x.log k) i) ∧
      (x.log k ≠ [] → x.coh k = true)

/-- The strips of `w` are being written over the data `old`. -/
structure Writes (G : Geometry) (dev₀ : Addr → Byte) (old : Nat → Byte) (w : SubWrite)
    (x : Inner) : Prop where
  fits : w.off + w.size ≤ G.stripeDataSz
  idle : w.Idle .rqd ∧ w.Idle .rpq
  base : (∀ v ∈ x.log w.stripe, v.Written) → ∀ i < G.stripeDataSz,
    old i = applyAll (dataOf G dev₀ w.stripe) (x.log w.stripe) i
  outside : ∀ i < G.stripeDataSz, ¬ (w.off ≤ i ∧ i < w.off + w.size) →
    x.disk.dev (G.loc w.stripe i) = old i
  data : (w.query .wqd).write = true ∧ (w.query .wqd).buf = w.src
  parity : (w.query .wqp).write = true ∧ ((∀ v ∈ x.log w.stripe, v.Told) → ∀ j < G.stripSz,
    (w.query .wqp).buf j =
      share G.stripSz 0 (overlay old w.off w.size w.src) G.stripeDataSz j)
  wqd : (w.query .wqd).Follows (fun p => G.loc w.stripe (w.off + p)) w.size (fun _ => True)
    x.disk.dev
  wqp : (w.query .wqp).Follows (G.parityLoc w.stripe) G.stripSz (fun _ => (w.query .wqd).rej = 0)
    x.disk.dev

/-- The flag of the stripe while the strips of `w` are written: on the coherent path it falls with
the first query that ends with an error, on the incoherent one it is set when both have ended. -/
def Flagged (w : SubWrite) (x : Inner) : Prop :=
  w.coherent = true ∨ w.Idle .wqd ∧ w.Idle .wqp →
    (x.coh w.stripe = true ↔ ∀ r, r.Strip → w.Idle r → (w.query r).bad = false)

/-- What the sub-write that works on a stripe keeps of it, phase by phase. -/
inductive Held (G : Geometry) (dev₀ : Addr → Byte) (w : SubWrite) (x : Inner) : Prop
  | data (hfits : w.off + w.size ≤ G.stripeDataSz) (hset : Settled G dev₀ w.stripe x)
      (hcoh : x.coh w.stripe = w.coherent) (hbusy : ¬ w.Idle .rqd)
      (hidle : ∀ r, r ≠ .rqd → w.Idle r) (hclean : (w.query .rqd).Clean)
      (hread : (w.query .rqd).write = false)
      (hq : (w.query .rqd).Follows
        (fun p => G.loc w.stripe ((if w.coherent then w.off else 0) + p))
        (if w.coherent then w.size else G.stripeDataSz) (fun _ => True) x.disk.dev)
  | parity (hfits : w.off + w.size ≤ G.stripeDataSz) (hset : Settled G dev₀ w.stripe x)
      (hcoh : x.coh w.stripe = w.coherent) (hc : w.coherent = true) (hbusy : ¬ w.Idle .rpq)
      (hidle : ∀ r, r ≠ .rpq → w.Idle r) (hclean : (w.query .rpq).Clean)
      (hread : (w.query .rpq).write = false)
      (hdata : ∀ p < w.size, (w.query .rqd).buf p = x.disk.dev (G.loc w.stripe (w.off + p)))
      (hq : (w.query .rpq).Follows (G.parityLoc w.stripe) G.stripSz (fun _ => True) x.disk.dev)
  | write (old : Nat → Byte) (hw : Writes G dev₀ old w x) (hf : Flagged w x)

section Congr

variable (hd : ∀ a : Addr, a.2 / G.stripSz = k → x'.disk.dev a = x.disk.dev a)
  (hc : x'.coh k = x.coh k) (hl : x'.log k = x.log k)

include hd hc hl

theorem settled_congr (h : Settled G dev₀ k x) : Settled G dev₀ k x' := by
  refine ⟨fun ht hx => xorZero_congr hd (h.xor (hl ▸ ht) (hc ▸ hx)), fun hw => ?_⟩
  rw [hl] at hw ⊢
  rw [hc]
  refine ⟨fun i hi => ?_, (h.data hw).2⟩
  rw [hd _ Geometry.row_loc]
  exact (h.data hw).1 i hi

theorem writes_congr (hk : w.stripe = k) (h : Writes G dev₀ old w x) : Writes G dev₀ old w x' := by
  subst hk
  refine ⟨h.fits, h.idle, ?_, fun i hi hn => ?_, h.data, ⟨h.parity.1, ?_⟩, ?_, ?_⟩
  · rw [hl]; exact h.base
  · rw [hd _ Geometry.row_loc]; exact h.outside i hi hn
  · rw [hl]; exact h.parity.2
  · exact Query.follows_elsewhere h.wqd fun p _ => hd _ Geometry.row_loc
  · exact Query.follows_elsewhere h.wqp fun p hp => hd _ (Geometry.row_parityLoc hp)

theorem held_congr (hk : w.stripe = k) (h : Held G dev₀ w x) : Held G dev₀ w x' := by
  subst hk
  cases h with
  | data hfits hset hcoh hbusy hidle hclean hread hq =>
    exact .data hfits (settled_congr hd hc hl hset) (hc.trans hcoh) hbusy hidle hclean hread
      (Query.follows_elsewhere hq fun p _ => hd _ Geometry.row_loc)
  | parity hfits hset hcoh hcw hbusy hidle hclean hread hdata hq =>
    refine .parity hfits (settled_congr hd hc hl hset) (hc.trans hcoh) hcw hbusy hidle hclean hread
      (fun p hp => ?_) (Query.follows_elsewhere hq fun p hp => hd _ (Geometry.row_parityLoc hp))
    rw [hd _ Geometry.row_loc]
    exact hdata p hp
  | write old hw hf =>
    refine .write old (writes_congr hd hc hl rfl hw) ?_
    unfold Flagged
    rw [hc]
    exact hf

end Congr

end Ublk.Raidsp
