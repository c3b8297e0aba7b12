import Ublk.Failstop.Recent
import Ublk.Raid0.Backend
import Ublk.Raid1.Mirrors

/-! The targets of `raid0` and `raid1`. -/
namespace Ublk.Failstop

theorem raid0_total (C : Raid0.Config) (s : Unit) (w : Bool) (off : Nat) (v : Span)
    (hv : Sized off v) : ∃ route, (Raid0.backend C).route s w off v = some route := by
  obtain ⟨ss, hss⟩ : ∃ ss, Raid0.doOp C off v = some ss := ⟨_, Raid0.doOp_eq hv⟩
  exact ⟨ss.map fun s => (s, ()), congrArg (Option.map _) hss⟩

/-- Striped or mirrored, a target stops with the first failure and tells of every failure. -/
theorem failStop_raids :
    (∀ C E dev₀, FailStop (Raid0.backend C) E dev₀) ∧
      ∀ C E dev₀, FailStop (Raid1.backend C) E dev₀ :=
  ⟨fun C _ _ => failStop (raid0_total C),
    fun C _ _ => failStop fun hid w _ _ hv => Raid1.route_total C hid w hv⟩

theorem placed_raid0 (C : Raid0.Config) :
    Placed (Raid0.backend C) fun x a => a = Raid0.loc C x where
  apart _ _ _ hx hy := Raid0.loc_injective (hx.symm.trans hy)
  somewhere x := ⟨_, rfl⟩
  pieces s w off v route hv hroute p hp i hi := by
    obtain ⟨ss, hss, rfl⟩ := Option.map_eq_some_iff.mp hroute
    cases (Raid0.doOp_eq hv).symm.trans hss
    obtain ⟨y, hy, rfl⟩ := List.mem_map.mp hp
    have ht := @Raid0.tiles_cut C off v.len
    have hend := ((bounds_of_consecutive ht.consecutive).2 y hy).2
    exact ⟨Nat.lt_of_lt_of_le hi.2 hend, ht.placed y hy i hi⟩
  covers s w off v route hv hroute i hi a ha := by
    obtain ⟨ss, hss, rfl⟩ := Option.map_eq_some_iff.mp hroute
    cases (Raid0.doOp_eq hv).symm.trans hss
    have ht := @Raid0.tiles_cut C off v.len
    obtain ⟨y, hy, hc⟩ := covers_of_consecutive ht.consecutive (Nat.zero_le i) hi
    exact ⟨(y, ()), List.mem_map_of_mem hy, hc, fun _ => (ht.placed y hy i hc).trans ha.symm⟩

/-- A write goes to every mirror; a read takes each byte from one of them. -/
theorem placed_raid1 (C : Raid1.Config) :
    Placed (Raid1.backend C) fun x a => a.1 < C.n ∧ a.2 = x where
  apart _ _ _ hx hy := hx.2.symm.trans hy.2
  somewhere x := ⟨(0, x), C.n_pos, rfl⟩
  pieces hid w off v route hv hroute p hp i hi := by
    cases w with
    | true =>
      cases hroute
      obtain ⟨h, hh, rfl⟩ := List.mem_map.mp hp
      obtain ⟨-, hhi⟩ := hi
      exact ⟨by simpa using hhi, List.mem_range.mp hh, by simp [Sub.addr]⟩
    | false =>
      obtain ⟨ss, hss, hc, hall⟩ := @Raid1.chunks_total C off _ 0 v hid hv.room (Nat.zero_le _)
        (show v.len - 0 < v.len + 1 by omega)
      cases hss.symm.trans hroute
      have hend := ((bounds_of_consecutive hc).2 p.1 (List.mem_map_of_mem hp)).2
      obtain ⟨hhid, hoff⟩ := hall p hp
      obtain ⟨hlo, hhi⟩ := hi
      refine ⟨by omega, hhid, ?_⟩
      simp only [Sub.addr]
      omega
  covers hid w off v route hv hroute i hi a ha := by
    cases w with
    | true =>
      cases hroute
      refine ⟨_, List.mem_map_of_mem (List.mem_range.mpr ha.1), ⟨Nat.zero_le i, by simpa using hi⟩,
        fun _ => ?_⟩
      exact Prod.ext rfl (by simpa [Sub.addr] using ha.2.symm)
    | false =>
      obtain ⟨ss, hss, hc, -⟩ := @Raid1.chunks_total C off _ 0 v hid hv.room (Nat.zero_le _)
        (show v.len - 0 < v.len + 1 by omega)
      cases hss.symm.trans hroute
      obtain ⟨y, hy, hcov⟩ := covers_of_consecutive hc (Nat.zero_le i) hi
      obtain ⟨p, hp, rfl⟩ := List.mem_map.mp hy
      exact ⟨p, hp, hcov, by simp⟩

/-- Striped or mirrored, no read brings bytes that were written over before it came. -/
theorem regular_raids :
    (∀ C E dev₀, Regular (Raid0.backend C) E dev₀ fun x a => a = Raid0.loc C x) ∧
      ∀ C E dev₀, Regular (Raid1.backend C) E dev₀ fun x a => a.1 < C.n ∧ a.2 = x :=
  ⟨fun C _ _ => regular (placed_raid0 C), fun C _ _ => regular (placed_raid1 C)⟩

section Overtaken

open Raid1

def get1 : Label := .process false 0 ⟨0, 1⟩ (fun _ => 0) fun _ => []

/-- A third write of the byte has come to one mirror, and the read that follows goes there. -/
def overtaking : List Label := [put1 ⟨3#8⟩, effect1 2 0, get1, effect1 3 0, settle1 3 0]

theorem fit_put1 {b : Byte} : Fit (put1 b) := ⟨Nat.one_ne_zero, show 0 + 1 < 2 ^ 64 by decide⟩

theorem fit_inTurn : ∀ l ∈ inTurn, Fit l := by
  simp only [inTurn, List.forall_mem_cons]
  exact ⟨fit_put1, trivial, trivial, trivial, trivial, trivial, trivial, fit_put1, trivial, trivial,
    trivial, trivial, trivial, trivial, by simp⟩

theorem fit_overtaking : ∀ l ∈ overtaking, Fit l := by
  simp only [overtaking, List.forall_mem_cons]
  exact ⟨fit_put1, trivial, ⟨Nat.one_ne_zero, show 0 + 1 < 2 ^ 64 by decide⟩, trivial, trivial, by simp⟩

theorem regular_raids_overtaken : ∃ s u t : State (backend trio), ∃ r : Req,
    Lts.exec (State.step slow) (.initial _ fun _ => 0) (inTurn.take 7) = some s ∧
    Lts.exec (State.step slow) s (inTurn.drop 7) = some u ∧
    Lts.exec (State.step slow) u overtaking = some t ∧
    t.reqs[3]? = some r ∧ r.q.buf 0 = ⟨3#8⟩ ∧ Since s t 0 (r.q.buf 0) := by
  have hend : ((Lts.exec (State.step slow) (.initial (backend trio) fun _ => 0)
      (inTurn.take 7)).bind fun s => (Lts.exec (State.step slow) s (inTurn.drop 7)).bind fun u =>
        (Lts.exec (State.step slow) u overtaking).map fun t => ((s.reqs.length, u.reqs.length),
          u.reqs[1]?.map fun w => decide (w.Succeeded ∧ w.Writes 0), t.reqs[3]?.map fun r =>
            decide (r.Succeeded ∧ r.q.write = false ∧ r.off = 0 ∧ r.v.len = 1 ∧ r.q.buf 0 = ⟨3#8⟩))) =
      some ((1, 2), some true, some true) := by decide +kernel
  obtain ⟨s, hs, hend⟩ := Option.bind_eq_some_iff.mp hend
  obtain ⟨u, hu, hend⟩ := Option.bind_eq_some_iff.mp hend
  obtain ⟨t, ht, hend⟩ := Option.map_eq_some_iff.mp hend
  simp only [Prod.mk.injEq, Option.map_eq_some_iff, decide_eq_true_eq] at hend
  obtain ⟨⟨hslen, hulen⟩, ⟨w, hw, hgood, hx⟩, r, hr, hok, hread, hoff, hlen, hbuf⟩ := hend
  have hsrun : FitRun slow (.initial (backend trio) fun _ => 0) s :=
    Lts.run_of_exec (fun l hl _ => fit_inTurn l (List.mem_of_mem_take hl)) hs
  have hurun : FitRun slow s u :=
    Lts.run_of_exec (fun l hl _ => fit_inTurn l (List.mem_of_mem_drop hl)) hu
  have htrun : FitRun slow u t := Lts.run_of_exec (fun l hl _ => fit_overtaking l hl) ht
  refine ⟨s, u, t, r, hs, hu, ht, hr, hbuf, ?_⟩
  have hall := (regular_raids.2 trio slow fun _ => 0).fresh s u t hsrun hurun htrun 1 w (by omega) hw
    hgood 0 hx 3 r (by omega) hr hread hok (by omega) (by omega)
  rwa [hoff] at hall

end Overtaken

end Ublk.Failstop
