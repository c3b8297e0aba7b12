import Ublk.Lib.Runs
import Ublk.Lib.Words
import Ublk.Query

/-!
A target over a file. The kernel carries out a read or a write at one moment, and its handler runs
at a later one. Where a read went beyond the end of the file its handler sets the length of the
file, and reads on.
-/
namespace Ublk.Def

open Words

/-- `operation_aborted` -/
def ECANCELED : Int := 125

/-- `no_such_file_or_directory`, the value that the end of the file has as a code, too. -/
def ENOENT : Int := 2

def ENOTCONN : Int := 107

structure File where
  bytes : Nat → Byte
  len : Nat

namespace File

/-- The bytes of the file and zeros behind them. -/
def extended (f : File) (a : Nat) : Byte := if a < f.len then f.bytes a else 0

/-- `ftruncate64` -/
def truncate (len : Nat) (f : File) : File := ⟨f.extended, len⟩

def write (off size : Nat) (src : Nat → Byte) (f : File) : File :=
  ⟨overlay f.extended off size src, max f.len (off + size)⟩

end File

/-- What the kernel made of an operation: the code, and the bytes it moved. -/
structure Result where
  code : Int
  moved : Nat

/-- A read of a query from `pos` of its buffer on. -/
structure ReadOp where
  cid : Nat
  pos : Nat
  off : Nat
  size : Nat
  nonempty : 0 < size
  result : Option Result

structure WriteOp where
  cid : Nat
  off : Nat
  size : Nat
  src : Nat → Byte
  nonempty : 0 < size
  result : Option Result

def WriteOp.Covers (w : WriteOp) (a : Nat) : Prop := w.off ≤ a ∧ a < w.off + w.size

instance (w : WriteOp) (a : Nat) : Decidable (w.Covers a) := inferInstanceAs (Decidable (_ ∧ _))

/-- A query of a client: its buffer, its error and how often its completer ran. -/
structure Client where
  buf : Nat → Byte
  err : Int
  runs : Nat

structure State where
  file : File
  reads : List ReadOp
  writes : List WriteOp
  clients : List Client
  /-- History: the writes carried out, the latest one last. -/
  written : List WriteOp

inductive Label
  | read (off size : Nat) (buf : Nat → Byte) (h : 0 < size)
  | write (off size : Nat) (src : Nat → Byte) (h : 0 < size)
  /-- The kernel carries out the `i`-th read or write, or fails it with a code that is not 0. -/
  | pread (i : Nat) (e : Int)
  | pwrite (i : Nat) (e : Int)
  /-- The handler of the `i`-th read or write; `errno` if it sets the length and that fails. -/
  | readDone (i : Nat) (errno : Int)
  | writeDone (i : Nat)

namespace State

def initial (file : File) : State := ⟨file, [], [], [], []⟩

/-- A query is over, with an error unless `e` is 0. -/
def finish (cid : Nat) (e : Int) (s : State) : State :=
  { s with clients := s.clients.modify cid fun c =>
      { c with err := if e = 0 then c.err else e, runs := c.runs + 1 } }

def pread (i : Nat) (r : ReadOp) (e : Int) (s : State) : State :=
  if e = 0 then
    let n := min r.size (s.file.len - r.off)
    { s with
      reads := s.reads.set i { r with result := some ⟨if n < r.size then ENOENT else 0, n⟩ }
      clients := s.clients.modify r.cid fun c =>
        { c with buf := overlay c.buf r.pos n fun j => s.file.bytes (r.off + j) } }
  else { s with reads := s.reads.set i { r with result := some ⟨e, 0⟩ } }

def pwrite (i : Nat) (w : WriteOp) (e : Int) (s : State) : State :=
  if e = 0 then
    { s with
      file := s.file.write w.off w.size w.src
      writes := s.writes.set i { w with result := some ⟨0, w.size⟩ }
      written := s.written ++ [w] }
  else { s with writes := s.writes.set i { w with result := some ⟨e, 0⟩ } }

/-- The handler that `async_read` passes on. -/
def readDone (r : ReadOp) (x : Result) (errno : Int) (s : State) : State :=
  if x.code = ECANCELED then s.finish r.cid ENOTCONN
  else if x.code ≠ ENOENT then s.finish r.cid x.code
  else if h : x.moved < r.size then
    if errno ≠ 0 then s.finish r.cid errno
    else
      { s with
        file := s.file.truncate (wrap (r.off + r.size))
        reads := s.reads ++ [⟨r.cid, r.pos + x.moved, wrap (r.off + x.moved), r.size - x.moved,
          Nat.sub_pos_of_lt h, none⟩] }
  else s.finish r.cid 0

/-- The handler of a write. -/
def writeDone (w : WriteOp) (x : Result) (s : State) : State :=
  if x.code = ECANCELED then s.finish w.cid ENOTCONN else s.finish w.cid x.code

end State

def step (s : State) : Label → Option State
  | .read off size buf h => some { s with
      reads := s.reads ++ [⟨s.clients.length, 0, off, size, h, none⟩]
      clients := s.clients ++ [⟨buf, 0, 0⟩] }
  | .write off size src h => some { s with
      writes := s.writes ++ [⟨s.clients.length, off, size, src, h, none⟩]
      clients := s.clients ++ [⟨src, 0, 0⟩] }
  | .pread i e => s.reads[i]?.bind fun r => if r.result.isNone then some (s.pread i r e) else none
  | .pwrite i e =>
    s.writes[i]?.bind fun w => if w.result.isNone then some (s.pwrite i w e) else none
  | .readDone i errno => s.reads[i]?.bind fun r => r.result.map fun x =>
      { s with reads := s.reads.eraseIdx i }.readDone r x errno
  | .writeDone i => s.writes[i]?.bind fun w => w.result.map fun x =>
      { s with writes := s.writes.eraseIdx i }.writeDone w x

/-- What the last of the writes that cover a byte brought there. -/
def lastWritten (ws : List WriteOp) (a : Nat) : Option Byte :=
  ws.foldl (fun o w => if w.Covers a then some (w.src (a - w.off)) else o) none

/-- Each byte of a write is in the file unless a later one covers it. -/
def Kept (s : State) : Prop :=
  ∀ a b, lastWritten s.written a = some b → a < s.file.len ∧ s.file.bytes a = b

/-- Where a handler sets the length of the file no write so far goes beyond it. -/
def Extends (s : State) : Label → Prop
  | .readDone i errno => ∀ r x, s.reads[i]? = some r → r.result = some x → x.code = ENOENT →
      x.moved < r.size → errno = 0 → ∀ w ∈ s.written, w.off + w.size ≤ wrap (r.off + r.size)
  | _ => True

variable {s t : State} {l : Label} {w : WriteOp} {r : ReadOp} {x : Result} {ws : List WriteOp}
  {a n i cid : Nat} {e : Int} {b : Byte} {f : File}

theorem lastWritten_append : lastWritten (ws ++ [w]) a =
    if w.Covers a then some (w.src (a - w.off)) else lastWritten ws a := by
  simp [lastWritten]

theorem lastWritten_of_covers (h : w ∈ ws) (hc : w.Covers a) : ∃ b, lastWritten ws a = some b := by
  induction ws using List.reverseRecOn with
  | nil => cases h
  | append_singleton ws v ih =>
    rw [lastWritten_append]
    split
    · exact ⟨_, rfl⟩
    · rename_i hv
      rcases List.mem_append.mp h with h | h
      · exact ih h
      · exact absurd (List.mem_singleton.mp h ▸ hc) hv

theorem covers_of_lastWritten (h : lastWritten ws a = some b) : ∃ w ∈ ws, w.Covers a := by
  induction ws using List.reverseRecOn with
  | nil => cases h
  | append_singleton ws v ih =>
    rw [lastWritten_append] at h
    split at h
    · exact ⟨v, by simp, ‹_›⟩
    · obtain ⟨w, hw, hc⟩ := ih h
      exact ⟨w, List.mem_append_left _ hw, hc⟩

/-- The property is about the file and the writes so far. -/
theorem kept_congr (hf : t.file = s.file) (hw : t.written = s.written) : Kept t ↔ Kept s := by
  unfold Kept
  rw [hf, hw]

theorem kept_write (h : Kept s) (hf : t.file = s.file.write w.off w.size w.src)
    (hw : t.written = s.written ++ [w]) : Kept t := by
  intro a b hb
  rw [hw, lastWritten_append] at hb
  rw [hf]
  by_cases hc : w.Covers a
  · rw [if_pos hc] at hb
    refine ⟨Nat.lt_of_lt_of_le hc.2 (Nat.le_max_right _ _), ?_⟩
    exact (if_pos hc).trans (Option.some.inj hb)
  · rw [if_neg hc] at hb
    obtain ⟨hlt, he⟩ := h a b hb
    refine ⟨Nat.lt_of_lt_of_le hlt (Nat.le_max_left _ _), ?_⟩
    exact (if_neg hc).trans ((if_pos hlt).trans he)

/-- Setting the length keeps what was written exactly if no write goes beyond it. -/
theorem kept_truncate_iff (h : Kept s) (hf : t.file = s.file.truncate n)
    (hw : t.written = s.written) : Kept t ↔ ∀ w ∈ s.written, w.off + w.size ≤ n := by
  constructor
  · intro ht w hmem
    have hpos := w.nonempty
    obtain ⟨b, hb⟩ := lastWritten_of_covers hmem (a := w.off + w.size - 1) ⟨by omega, by omega⟩
    have hlt := (ht _ b (hw ▸ hb)).1
    rw [hf] at hlt
    change w.off + w.size - 1 < n at hlt
    omega
  · intro hall a b hb
    rw [hw] at hb
    obtain ⟨w, hmem, -, hend⟩ := covers_of_lastWritten hb
    obtain ⟨hlt, he⟩ := h a b hb
    rw [hf]
    exact ⟨Nat.lt_of_lt_of_le hend (hall w hmem), (if_pos hlt).trans he⟩

/-- Only a handler that sets the length may lose what was written. -/
theorem kept_readDone (h : Kept s) : Kept (s.readDone r x e) ↔ (x.code = ENOENT → x.moved < r.size →
    e = 0 → ∀ w ∈ s.written, w.off + w.size ≤ wrap (r.off + r.size)) := by
  have hfinish : ∀ e, Kept (s.finish r.cid e) := fun e => (kept_congr rfl rfl).mpr h
  unfold State.readDone
  by_cases hc : x.code = ECANCELED
  · rw [if_pos hc]
    refine ⟨fun _ hn => absurd (hc.symm.trans hn) (by decide), fun _ => hfinish _⟩
  · rw [if_neg hc]
    by_cases hn : x.code = ENOENT
    · rw [if_neg (not_not.mpr hn)]
      by_cases hm : x.moved < r.size
      · rw [dif_pos hm]
        by_cases he : e = 0
        · rw [if_neg (not_not.mpr he)]
          refine Iff.trans (kept_truncate_iff (n := wrap (r.off + r.size)) h rfl rfl) ?_
          exact ⟨fun hall _ _ _ => hall, fun hall => hall hn hm he⟩
        · rw [if_pos he]
          exact ⟨fun _ _ _ h0 => absurd h0 he, fun _ => hfinish _⟩
      · rw [dif_neg hm]
        exact ⟨fun _ _ hlt => absurd hlt hm, fun _ => hfinish _⟩
    · rw [if_pos hn]
      exact ⟨fun _ h2 => absurd h2 hn, fun _ => hfinish _⟩

theorem kept_step (h : Kept s) (hs : step s l = some t) : Kept t ↔ Extends s l := by
  cases l with
  | read off size buf hpos =>
    cases hs
    exact ⟨fun _ => trivial, fun _ => (kept_congr rfl rfl).mpr h⟩
  | write off size src hpos =>
    cases hs
    exact ⟨fun _ => trivial, fun _ => (kept_congr rfl rfl).mpr h⟩
  | pread i e =>
    obtain ⟨r, hr, hs⟩ := Option.bind_eq_some_iff.mp hs
    refine ⟨fun _ => trivial, fun _ => ?_⟩
    split at hs
    · cases hs
      unfold State.pread
      split
      · exact (kept_congr rfl rfl).mpr h
      · exact (kept_congr rfl rfl).mpr h
    · cases hs
  | pwrite i e =>
    obtain ⟨w, hw, hs⟩ := Option.bind_eq_some_iff.mp hs
    refine ⟨fun _ => trivial, fun _ => ?_⟩
    split at hs
    · cases hs
      unfold State.pwrite
      split
      · exact kept_write h rfl rfl
      · exact (kept_congr rfl rfl).mpr h
    · cases hs
  | readDone i errno =>
    obtain ⟨r, hr, hs⟩ := Option.bind_eq_some_iff.mp hs
    obtain ⟨x, hx, rfl⟩ := Option.map_eq_some_iff.mp hs
    have h' : Kept { s with reads := s.reads.eraseIdx i } := (kept_congr rfl rfl).mpr h
    rw [kept_readDone h']
    constructor
    · intro hall r' x' hr' hx'
      cases hr.symm.trans hr'
      cases hx.symm.trans hx'
      exact hall
    · exact fun hall => hall r x hr hx
  | writeDone i =>
    obtain ⟨w, hw, hs⟩ := Option.bind_eq_some_iff.mp hs
    obtain ⟨x, hx, rfl⟩ := Option.map_eq_some_iff.mp hs
    refine ⟨fun _ => trivial, fun _ => ?_⟩
    unfold State.writeDone
    split
    · exact (kept_congr rfl rfl).mpr h
    · exact (kept_congr rfl rfl).mpr h

/-- A step that cannot be made sets no length. -/
theorem extends_of_none (hs : step s l = none) : Extends s l := by
  cases l with
  | readDone i errno =>
    intro r x hr hx
    simp [step, hr, hx] at hs
  | _ => trivial

/-- In all states of a run what was written is kept exactly if no handler of a read sets the length
of the file below the end of a write that has been carried out. -/
theorem kept_iff (f : File) (ls : List Label) :
    (∀ ls' t, ls' <+: ls → Lts.exec step (.initial f) ls' = some t → Kept t) ↔
      Lts.Along step Extends (.initial f) ls := by
  have h0 : Kept (.initial f) := by
    intro a b hb
    cases hb
  generalize State.initial f = s at h0
  induction ls generalizing s with
  | nil =>
    refine ⟨fun _ => trivial, fun _ ls' t hp ht => ?_⟩
    obtain rfl := List.prefix_nil.mp hp
    cases ht
    exact h0
  | cons l ls ih =>
    constructor
    · intro hall
      have hkept : ∀ t, step s l = some t → Kept t := fun t ht =>
        hall [l] t (by simp) (by simp [Lts.exec, ht])
      refine ⟨?_, fun t ht => (ih t (hkept t ht)).mp fun ls' u hp hu => ?_⟩
      · cases ht : step s l with
        | none => exact extends_of_none ht
        | some t => exact (kept_step h0 ht).mp (hkept t ht)
      · exact hall (l :: ls') u ((List.cons_prefix_cons).mpr ⟨rfl, hp⟩) (by simp [Lts.exec, ht, hu])
    · rintro ⟨hok, hrest⟩ ls' t hp ht
      cases ls' with
      | nil =>
        cases ht
        exact h0
      | cons l' ls' =>
        obtain ⟨rfl, hp'⟩ := List.cons_prefix_cons.mp hp
        obtain ⟨u, hu, ht⟩ := Option.bind_eq_some_iff.mp ht
        exact (ih u ((kept_step h0 hu).mpr hok)).mpr (hrest u hu) ls' t hp' ht

theorem sector_pos : 0 < 512 := by decide

/-- A read of the first sector of an empty file and a write of the second one. The write is carried
out and completes before the handler of the read runs. -/
def lostRun : List Label :=
  [.read 0 512 (fun _ => 0) sector_pos, .write 512 512 (fun _ => ⟨1⟩) sector_pos, .pread 0 0,
    .pwrite 0 0, .writeDone 0, .readDone 0 0]

/-- The handler cuts the file where the write begins. -/
theorem not_kept : ∃ t, Lts.exec step (.initial ⟨fun _ => 0, 0⟩) lostRun = some t ∧
    t.clients.map (fun c => (c.err, c.runs)) = [(0, 0), (0, 1)] ∧ t.file.len = 512 ∧ ¬ Kept t := by
  obtain ⟨t, ht⟩ : ∃ t, Lts.exec step (.initial ⟨fun _ => 0, 0⟩) lostRun = some t :=
    Option.isSome_iff_exists.mp (by decide)
  have hend : (Lts.exec step (.initial ⟨fun _ => 0, 0⟩) lostRun).all (fun t =>
      t.clients.map (fun c => (c.err, c.runs)) = [(0, 0), (0, 1)] ∧ t.file.len = 512 ∧
        lastWritten t.written 512 = some ⟨1⟩) = true := by decide
  simp only [ht, Option.all_some, decide_eq_true_eq] at hend
  obtain ⟨hclients, hlen, hlast⟩ := hend
  refine ⟨t, ht, hclients, hlen, fun hk => ?_⟩
  have hlt := (hk 512 ⟨1⟩ hlast).1
  omega

end Ublk.Def
