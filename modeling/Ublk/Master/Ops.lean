import Ublk.Cache.RWHandler
import Ublk.Inmem.Target
import Ublk.Raid1.Handler
import Ublk.Raidsp.Handler

/-!
What the master builds for a target's configuration, over files that are a parameter and without a
cache in front.
-/
namespace Ublk.Inmem

variable {T : Target} {s t : State} {off lim : Nat} {v : Span} {r : Transfer}
  {out : Int × List Byte}

theorem fits_of_sized (h : Sized off v) : Fits off v := by
  have := h.room
  have := h.pos
  exact ⟨by omega, by omega, by omega⟩

/-- A request that returns 0 and ends below `2 ^ 64` is inside. -/
theorem process_served (hf : Fits (range r).1 (range r).2)
    (hroom : (range r).1 + (range r).2.len < 2 ^ 64) (h : T.process r s = some (out, t))
    (hret : out.1 = 0) : out = (Target.flat T.memSz s.mem r).1 ∧
      t.mem = (Target.flat T.memSz s.mem r).2 ∧ (range r).1 + (range r).2.len ≤ T.memSz := by
  obtain ⟨u, hu, hmem, -⟩ := @process_bounded T s r hf (.inl hroom)
  cases hu.symm.trans h
  refine ⟨rfl, hmem, ?_⟩
  by_contra hout
  rw [flat_outside hout] at hret
  cases hret

/-- The target, a handler. -/
def device (T : Target) : Device where
  State := State
  bytes s := s.mem
  read s off v := (T.process (.read off v) s).bind fun x =>
    if x.1.1 = 0 then some (fun i => x.1.2.getD i 0, x.2) else none
  write s off v src := (T.process (.write off v src) s).bind fun x =>
    if x.1.1 = 0 then some x.2 else none
  read_bytes s off v got t hv h := by
    obtain ⟨⟨out, u⟩, hp, h⟩ := Option.bind_eq_some_iff.mp h
    split at h
    · rename_i hret
      cases h
      obtain ⟨hout, hmem, hin⟩ := process_served (r := .read off v) (fits_of_sized hv) hv.room hp hret
      have hin : off + v.len ≤ T.memSz := hin
      rw [Target.flat, if_pos hin] at hout hmem
      refine ⟨fun i hi => ?_, hmem⟩
      simp [hout, List.getD, hi]
    · cases h
  write_bytes s off v src t hv h := by
    obtain ⟨⟨out, u⟩, hp, h⟩ := Option.bind_eq_some_iff.mp h
    split at h
    · rename_i hret
      cases h
      obtain ⟨-, hmem, hin⟩ :=
        process_served (r := .write off v src) (fits_of_sized hv) hv.room hp hret
      have hin : off + v.len ≤ T.memSz := hin
      rw [Target.flat, if_pos hin] at hmem
      exact hmem
    · cases h

end Ublk.Inmem

namespace Ublk.Master

open Cache (kSectorShift sectorsToBytes)

def bytesToSectors (x : Nat) : Nat := x >>> kSectorShift

/-! The configurations. Each path names a file of its own. -/

structure Raid0Cfg where
  stripLenSectors : Nat
  paths : List String

structure Raid1Cfg where
  readStripLenSectors : Nat
  paths : List String

structure Raid4Cfg where
  stripLenSectors : Nat
  dataPaths : List String
  parityPath : String

structure Raid5Cfg where
  stripLenSectors : Nat
  paths : List String

inductive TargetCfg
  | inmem
  | default (path : String)
  | raid0 (raid0 : Raid0Cfg)
  | raid1 (raid1 : Raid1Cfg)
  | raid4 (raid4 : Raid4Cfg)
  | raid5 (raid5 : Raid5Cfg)
  | raid10 (stripLenSectors : Nat) (raid1s : List Raid1Cfg)
  | raid40 (stripLenSectors : Nat) (raid4s : List Raid4Cfg)
  | raid50 (stripLenSectors : Nat) (raid5s : List Raid5Cfg)

structure TargetCreateParam where
  capacitySectors : Nat
  target : TargetCfg

/-- The files: the target over one that can be opened, and what those below an array with parity
make of its submits. -/
structure Files where
  opened : String → Option Device
  answers : Env
  immediate : Raidsp.Immediate answers

/-- `make_default_ops` of `backend_device_open`. -/
def makeDefaultOps (files : Files) (path : String) : Option Device := files.opened path

/-- `make_raid0_ops`; `none` if a check of the backend's constructor fails. -/
def makeRaid0Ops (stripSz : Nat) (handlers : List Device) : Option Device :=
  if h : (stripSz.isPowerOfTwo ∧ stripSz < 2 ^ 64) ∧ 1 ≤ handlers.length then
    some (Raid0.target ⟨stripSz, handlers.length, h.1.1, h.1.2, h.2⟩ handlers.get)
  else none

/-- A length of 0 stands for the largest one. -/
def readStripSz (readStripLenSectors : Nat) : Nat :=
  if sectorsToBytes readStripLenSectors = 0 then sectorsToBytes (bytesToSectors (2 ^ 64 - 1))
  else sectorsToBytes readStripLenSectors

theorem sectors_readStripSz (x : Nat) :
    512 ∣ readStripSz x ∧ 0 < readStripSz x ∧ readStripSz x < 2 ^ 64 := by
  have hdvd : ∀ y, 512 ∣ sectorsToBytes y := fun y =>
    (Nat.dvd_mod_iff (by decide)).mpr (Nat.dvd_mul_left _ _)
  have hlt : ∀ y, sectorsToBytes y < 2 ^ 64 := fun y => Nat.mod_lt _ (by decide)
  unfold readStripSz
  split
  · exact ⟨hdvd _, by decide, hlt _⟩
  · exact ⟨hdvd _, Nat.pos_of_ne_zero ‹_›, hlt _⟩

/-- `make_raid1_ops`; `none` if it throws or a check of the backend's constructor fails. -/
def makeRaid1Ops (readStripLenSectors : Nat) (handlers : List Device) : Option Device :=
  if readStripLenSectors > bytesToSectors (2 ^ 64 - 1) then none
  else
    have hz := sectors_readStripSz readStripLenSectors
    if h : 2 ≤ handlers.length then
      some (Raid1.target ⟨readStripSz readStripLenSectors, handlers.length, hz.1, hz.2.1, hz.2.2, h⟩
        handlers.get)
    else none

instance (G : Raidsp.Geometry) : Decidable (Raidsp.Checked.Built G) :=
  inferInstanceAs (Decidable (_ ≠ _))

/-- The acceptor's constructor; `none` if there can be no pool of stripes. -/
def makeRaidspOps (files : Files) (G : Raidsp.Geometry) : Option Device :=
  if Raidsp.Checked.Built G then some (Raidsp.target G files.answers files.immediate) else none

/-- `make_raid4_ops`; the last handler is for parity. Of the handlers only the number counts here:
what they make of submits is `files.answers`. -/
def makeRaid4Ops (files : Files) (stripSz : Nat) (handlers : List Device) : Option Device :=
  if h : stripSz.isPowerOfTwo ∧ 512 ∣ stripSz ∧ 3 ≤ handlers.length then
    makeRaidspOps files (Raidsp.raid4 stripSz handlers.length h.1 h.2.1 h.2.2)
  else none

def makeRaid5Ops (files : Files) (stripSz : Nat) (handlers : List Device) : Option Device :=
  if h : stripSz.isPowerOfTwo ∧ 512 ∣ stripSz ∧ 3 ≤ handlers.length then
    makeRaidspOps files (Raidsp.raid5 stripSz handlers.length h.1 h.2.1 h.2.2)
  else none

/-- Every configuration is made, or there is none of them. -/
def makeAll {α : Type} (make : α → Option Device) : List α → Option (List Device)
  | [] => some []
  | c :: cs => (make c).bind fun D => (makeAll make cs).map (D :: ·)

def Raid0Cfg.make (files : Files) (raid0 : Raid0Cfg) : Option Device :=
  (makeAll (makeDefaultOps files) raid0.paths).bind
    (makeRaid0Ops (sectorsToBytes raid0.stripLenSectors))

def Raid1Cfg.make (files : Files) (raid1 : Raid1Cfg) : Option Device :=
  (makeAll (makeDefaultOps files) raid1.paths).bind (makeRaid1Ops raid1.readStripLenSectors)

def Raid4Cfg.make (files : Files) (raid4 : Raid4Cfg) : Option Device :=
  (makeAll (makeDefaultOps files) (raid4.dataPaths ++ [raid4.parityPath])).bind
    (makeRaid4Ops files (sectorsToBytes raid4.stripLenSectors))

def Raid5Cfg.make (files : Files) (raid5 : Raid5Cfg) : Option Device :=
  (makeAll (makeDefaultOps files) raid5.paths).bind
    (makeRaid5Ops files (sectorsToBytes raid5.stripLenSectors))

theorem sectorsToBytes_lt (x : Nat) : sectorsToBytes x < 2 ^ 64 := Nat.mod_lt _ (by decide)

/-- `Master::create`; the memory of a target in memory is at `mem`. -/
def create (files : Files) (mem : Nat) (param : TargetCreateParam) : Option Device :=
  match param.target with
  | .inmem => some (Inmem.device
      ⟨mem, sectorsToBytes param.capacitySectors, sectorsToBytes_lt _⟩)
  | .default path => makeDefaultOps files path
  | .raid0 raid0 => raid0.make files
  | .raid1 raid1 => raid1.make files
  | .raid4 raid4 => raid4.make files
  | .raid5 raid5 => raid5.make files
  | .raid10 stripLenSectors raid1s =>
    (makeAll (Raid1Cfg.make files) raid1s).bind (makeRaid0Ops (sectorsToBytes stripLenSectors))
  | .raid40 stripLenSectors raid4s =>
    (makeAll (Raid4Cfg.make files) raid4s).bind (makeRaid0Ops (sectorsToBytes stripLenSectors))
  | .raid50 stripLenSectors raid5s =>
    (makeAll (Raid5Cfg.make files) raid5s).bind (makeRaid0Ops (sectorsToBytes stripLenSectors))

end Ublk.Master
