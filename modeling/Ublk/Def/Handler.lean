import Ublk.Def.Target
import Ublk.Serves

/-!
A target over a file is a handler to a client that waits for each of its requests. The kernel
carries out what ends where a file may end, and fails the rest.
-/
namespace Ublk.Def

open Words

def EFBIG : Int := 27

/-- The kernel carries out a read, and its handler runs. -/
def round : List Label := [.pread 0 0, .readDone 0 0]

/-- A read from its call to its completer, with nothing in between. Beyond the end of the file the
handler of the first round sets the length of the file, and reads on. -/
def readSteps (limit : Nat) (f : File) (off size : Nat) (h : 0 < size) : List Label :=
  .read off size (fun _ => 0) h ::
    if limit < off + size then [.pread 0 EFBIG, .readDone 0 0]
    else round ++ if f.len < off + size then round else []

def writeSteps (limit off size : Nat) (src : Nat → Byte) (h : 0 < size) : List Label :=
  [.write off size src h, .pwrite 0 (if limit < off + size then EFBIG else 0), .writeDone 0]

/-- The buffer of the only query there is and the file, once the query is over without an error. -/
def State.outcome (s : State) : Option ((Nat → Byte) × File) :=
  match s.clients with
  | [c] => if c.err = 0 ∧ c.runs = 1 then some (c.buf, s.file) else none
  | _ => none

def runRead (limit : Nat) (f : File) (off : Nat) (v : Span) : Option ((Nat → Byte) × File) :=
  if h : 0 < v.len then
    (Lts.exec step (.initial f) (readSteps limit f off v.len h)).bind State.outcome
  else none

def runWrite (limit : Nat) (f : File) (off : Nat) (v : Span) (src : Nat → Byte) : Option File :=
  if h : 0 < v.len then
    ((Lts.exec step (.initial f) (writeSteps limit off v.len src h)).bind State.outcome).map Prod.snd
  else none

variable {limit lim pos off n m i : Nat} {f g : File} {v : Span} {buf got src : Nat → Byte}

namespace File

theorem extended_truncate (h : f.len ≤ n) : (f.truncate n).extended = f.extended := by
  funext a
  change (if a < n then f.extended a else 0) = f.extended a
  split
  · rfl
  · exact (if_neg (by omega : ¬ a < f.len)).symm

theorem extended_write :
    (f.write off n src).extended = overlay f.extended off n src := by
  funext a
  change (if a < max f.len (off + n) then overlay f.extended off n src a else 0) = _
  split
  · rfl
  · have hbehind : ¬ (off ≤ a ∧ a < off + n) := by omega
    rw [overlay, if_neg hbehind, extended, if_neg (by omega)]

end File

/-- The only query there is, with a read under way. -/
def State.reading (f : File) (buf : Nat → Byte) (pos off size : Nat) (h : 0 < size) : State :=
  ⟨f, [⟨0, pos, off, size, h, none⟩], [], [⟨buf, 0, 0⟩], []⟩

theorem exec_round (hpos : 0 < n) :
    Lts.exec step (.reading f buf pos off n hpos) round =
      let m := min n (f.len - off)
      let x : Result := ⟨if m < n then ENOENT else 0, m⟩
      some (State.readDone ⟨0, pos, off, n, hpos, some x⟩ x 0
        ⟨f, [], [], [⟨overlay buf pos m fun j => f.bytes (off + j), 0, 0⟩], []⟩) := rfl

/-- Inside the file the kernel moves all bytes at once, and the query is over. -/
theorem round_within (hpos : 0 < n) (h : off + n ≤ f.len) :
    Lts.exec step (.reading f buf pos off n hpos) round =
      some ⟨f, [], [], [⟨overlay buf pos n fun j => f.bytes (off + j), 0, 1⟩], []⟩ := by
  have hmoved : min n (f.len - off) = n := by omega
  simp only [exec_round, hmoved, Nat.lt_irrefl, if_false]
  rfl

/-- Beyond its end the handler sets the length of the file, and reads on. -/
theorem round_beyond (hpos : 0 < n) (h : f.len < off + n) (hroom : off + n < 2 ^ 64) :
    ∃ m, ∃ hrest : 0 < n - m, off + m ≤ off + n ∧ m = min n (f.len - off) ∧
      Lts.exec step (.reading f buf pos off n hpos) round =
        some (.reading (f.truncate (off + n)) (overlay buf pos m fun j => f.bytes (off + j))
          (pos + m) (off + m) (n - m) hrest) := by
  have hmoved : min n (f.len - off) < n := by omega
  refine ⟨_, Nat.sub_pos_of_lt hmoved, by omega, rfl, ?_⟩
  simp only [exec_round, if_pos hmoved]
  simp only [State.readDone, dif_pos hmoved, wrap_of_lt hroom,
    wrap_of_lt (by omega : off + min n (f.len - off) < 2 ^ 64)]
  rfl

/-- The bytes that two rounds move one after the other. -/
theorem moved_twice (hm : m = min n (f.len - off)) (hle : off + m ≤ off + n) (hi : i < n) :
    overlay (overlay buf 0 m fun j => f.bytes (off + j)) (0 + m) (n - m)
      (fun j => f.extended (off + m + j)) i = f.extended (off + i) := by
  by_cases hfirst : i < m
  · have hbyte : off + i < f.len := by omega
    have hlater : ¬ (0 + m ≤ i ∧ i < 0 + m + (n - m)) := by omega
    rw [overlay, if_neg hlater, overlay, if_pos ⟨Nat.zero_le i, by omega⟩, File.extended,
      if_pos hbyte]
    rfl
  · have hlater : 0 + m ≤ i ∧ i < 0 + m + (n - m) := by omega
    have hat : off + m + (i - (0 + m)) = off + i := by omega
    rw [overlay, if_pos hlater, hat]

/-- What would end behind the longest file is failed. -/
theorem runRead_refused (h : limit < off + v.len) : runRead limit f off v = none := by
  unfold runRead
  split
  · simp only [readSteps, if_pos h]
    rfl
  · rfl

/-- All else brings the bytes of the file and zeros behind them, which the file may then hold. -/
theorem runRead_bytes (hpos : 0 < v.len) (hlim : off + v.len ≤ limit) (hroom : off + v.len < 2 ^ 64) :
    ∃ got g, runRead limit f off v = some (got, g) ∧
      (∀ i < v.len, got i = f.extended (off + i)) ∧ g.extended = f.extended := by
  unfold runRead
  rw [dif_pos hpos, readSteps, if_neg (Nat.not_lt.mpr hlim)]
  change ∃ got g, (Lts.exec step (.reading f (fun _ => 0) 0 off v.len hpos) _).bind _ = _ ∧ _
  rw [Lts.exec_append]
  by_cases hin : off + v.len ≤ f.len
  · rw [if_neg (by omega), round_within hpos hin]
    refine ⟨_, f, rfl, fun i hi => ?_, rfl⟩
    have hbyte : off + i < f.len := by omega
    simp [overlay, File.extended, hi, hbyte]
  · obtain ⟨m, hrest, hle, hm, hround⟩ := @round_beyond 0 off v.len f (fun _ => 0) hpos
      (Nat.not_le.mp hin) hroom
    have hend : off + m + (v.len - m) = off + v.len := by omega
    rw [if_pos (Nat.not_le.mp hin), hround]
    change ∃ got g, (Lts.exec step _ _).bind _ = _ ∧ _
    rw [round_within hrest (Nat.le_of_eq hend)]
    refine ⟨_, f.truncate (off + v.len), rfl, fun i hi => ?_, File.extended_truncate (by omega)⟩
    exact moved_twice hm (by omega) hi

theorem runWrite_refused (h : limit < off + v.len) : runWrite limit f off v src = none := by
  unfold runWrite
  split
  · simp only [writeSteps, if_pos h]
    rfl
  · rfl

theorem runWrite_bytes (hpos : 0 < v.len) (hlim : off + v.len ≤ limit) :
    runWrite limit f off v src = some (f.write off v.len src) := by
  unfold runWrite
  rw [dif_pos hpos]
  simp only [writeSteps, if_neg (Nat.not_lt.mpr hlim)]
  rfl

/-- The file, a handler; its bytes are those that a read gets. -/
def device (limit : Nat) : Device where
  State := File
  bytes := File.extended
  read f off v := runRead limit f off v
  write f off v src := runWrite limit f off v src
  read_bytes f off v got g hv h := by
    by_cases hlim : off + v.len ≤ limit
    · obtain ⟨got', g', h', hbytes⟩ := runRead_bytes (Nat.pos_of_ne_zero hv.pos) hlim hv.room
      cases h.symm.trans h'
      exact hbytes
    · rw [runRead_refused (Nat.not_le.mp hlim)] at h
      cases h
  write_bytes f off v src g hv h := by
    by_cases hlim : off + v.len ≤ limit
    · rw [runWrite_bytes (Nat.pos_of_ne_zero hv.pos) hlim] at h
      cases h
      exact File.extended_write
    · rw [runWrite_refused (Nat.not_le.mp hlim)] at h
      cases h

end Ublk.Def
