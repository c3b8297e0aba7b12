import Ublk.Raidsp.Flat
import Ublk.Serves

/-! An array over handlers that carry out each subquery at once is a handler itself. -/
namespace Ublk.Raidsp

open Serial Acceptor

variable {G : Geometry} {E : Env} {dev₀ : Addr → Byte} {qs : List Request} {q : Request} {lim : Nat}

instance (off size : Nat) : Decidable (Checked.Aligned G off size) :=
  decidable_of_iff (0 < size ∧ 512 ∣ off ∧ 512 ∣ size ∧ off + size + G.stripeDataSz < 2 ^ 64)
    ⟨fun ⟨h₁, h₂, h₃, h₄⟩ => ⟨h₁, h₂, h₃, h₄⟩,
      fun h => ⟨h.pos, h.sectorOff, h.sectorSize, h.room⟩⟩

/-- An array all of whose requests have finished. -/
abbrev Finished (G : Geometry) (E : Env) : Type :=
  { s : State SubWrite Inner // ∃ dev₀ qs, After G E dev₀ qs s }

theorem after_labels {s t : State SubWrite Inner} (hE : Immediate E) (h : After G E dev₀ qs s)
    (ht : Lts.exec (acceptor G E).step s (q.labels G) = some t) : After G E dev₀ (qs ++ [q]) t := by
  obtain ⟨u, hu, hafter⟩ : ∃ u, Lts.exec (acceptor G E).step s (q.labels G) = some u ∧
      After G E dev₀ (qs ++ [q]) u := by
    cases q with
    | read off size hpos => exact after_read hE h
    | write r => exact after_write hE h
  cases hu.symm.trans ht
  exact hafter

namespace Finished

/-- One more request, from its call to its end. -/
def process (hE : Immediate E) (s : Finished G E) (q : Request) : Option (Finished G E) :=
  match ht : Lts.exec (acceptor G E).step s.1 (q.labels G) with
  | some t => some ⟨t, by
      obtain ⟨dev₀, qs, h⟩ := s.2
      exact ⟨dev₀, _, after_labels hE h ht⟩⟩
  | none => none

def content (s : Finished G E) : Nat → Byte := logical G s.1.inner.disk.dev

/-- What the last read got. -/
def got (s : Finished G E) : List Byte := (s.1.inner.served.getLast?.map ClientRead.bytes).getD []

variable {s t : Finished G E} {hE : Immediate E}

theorem exec_process (h : s.process hE q = some t) :
    Lts.exec (acceptor G E).step s.1 (q.labels G) = some t.1 := by
  unfold process at h
  split at h
  · cases h
    assumption
  · cases h

theorem process_total : ∃ t, s.process hE q = some t := by
  obtain ⟨dev₀, qs, h⟩ := s.2
  obtain ⟨u, hu⟩ : ∃ u, Lts.exec (acceptor G E).step s.1 (q.labels G) = some u := by
    cases q with
    | read off size hpos => exact (after_read hE h).imp fun _ h => h.1
    | write r => exact (after_write hE h).imp fun _ h => h.1
  unfold process
  split
  · exact ⟨_, rfl⟩
  · rename_i hnone
    rw [hu] at hnone
    cases hnone

theorem content_process (h : s.process hE q = some t) :
    t.content = (flat s.content [q]).1 ∧ t.1.inner.served.map ClientRead.bytes =
      s.1.inner.served.map ClientRead.bytes ++ (flat s.content [q]).2 := by
  obtain ⟨dev₀, qs, hs⟩ := s.2
  have ht := after_labels hE hs (exec_process h)
  have hcontent : s.content = (flat (logical G dev₀) qs).1 := hs.content
  have happ := @flat_append (logical G dev₀) qs [q]
  have hnow : t.content = _ := ht.content
  rw [happ] at hnow
  rw [hcontent]
  refine ⟨hnow, ?_⟩
  rw [hs.bytes, ht.bytes, happ]

theorem got_read {off size : Nat} {hpos : 0 < size} (h : s.process hE (.read off size hpos) = some t) :
    t.got = (List.range size).map fun i => s.content (off + i) := by
  obtain ⟨-, hbytes⟩ := content_process h
  have hlast := congrArg List.getLast? hbytes
  rw [List.getLast?_map, flat, flat, List.getLast?_append] at hlast
  rw [got, hlast]
  rfl

end Finished

/-- The array, a handler for requests that are aligned. -/
def target (G : Geometry) (E : Env) (hE : Immediate E) : Device where
  State := Finished G E
  bytes s := s.content
  read s off v :=
    if hv : Checked.Aligned G off v.len then
      (s.process hE (.read off v.len hv.pos)).map fun t => (fun i => t.got.getD i 0, t)
    else none
  write s off v src :=
    if hv : Checked.Aligned G off v.len ∧ 8 ∣ v.addr then
      s.process hE (.write ⟨off, v.len, v.addr, src, hv.1.pos⟩)
    else none
  read_bytes s off v got t _ h := by
    split at h
    · obtain ⟨u, hp, he⟩ := Option.map_eq_some_iff.mp h
      cases he
      refine ⟨fun i hi => ?_, (Finished.content_process hp).1⟩
      simp [Finished.got_read hp, List.getD, hi]
    · cases h
  write_bytes s off v src t _ h := by
    split at h
    · exact (Finished.content_process h).1
    · cases h

end Ublk.Raidsp
