import Ublk.Cache.EndOfDevice

/-!
A client that waits for each of its requests, over a handler that has a byte at every offset. To it
the cache makes no difference, up to the last item below 2^64.
-/
namespace Ublk.Cache

/-- A write ends an item below 2^64. One that is handed straight on is read before it moves. -/
def Ask.Low (sz : Nat) (E : Env) (writeThrough : Bool) : Ask → Prop
  | .read _ _ => True
  | .write r _ => r.off + r.len + sz ≤ 2 ^ 64 ∧ (writeThrough = false → E.movesFirst = false)

namespace RWHandler

/-- So many bytes that no chunk at an offset of 64 bits goes beyond them. -/
def everywhere (sz : Nat) : Nat := 2 ^ 64 * sz

/-- A new handler with a cache of `n` items of `sz` bytes. -/
def initial (n sz : Nat) (hn : 0 < n) (hsz : 0 < sz) (disk : Disk) (writeThrough : Bool) :
    RWHandler :=
  ⟨writeThrough, disk, .empty n sz hn hsz, fun _ => 0, .empty⟩

/-- Requests one after the other, with the mode switched at will, and the bytes that the handler
below would have of them without the cache. -/
inductive Exchange (sz : Nat) (E : Env) (h₀ : RWHandler) : (Nat → Byte) → RWHandler → Prop
  | start : Exchange sz E h₀ h₀.bytes h₀
  | mode {bare : Nat → Byte} {h : RWHandler} (value : Bool) (hs : Exchange sz E h₀ bare h) :
      Exchange sz E h₀ bare (h.setWriteThrough value)
  | ask {bare : Nat → Byte} {h h' : RWHandler} {q : Ask} {a : Answer}
      (hs : Exchange sz E h₀ bare h) (hq : q.Low sz E h.writeThrough)
      (ho : h.Served (everywhere sz) sz E q (some (a, h'))) :
      Exchange sz E h₀ (q.leaves bare) h'

variable {n sz : Nat} {hn : 0 < n} {hsz : 0 < sz} {E : Env} {disk : Disk} {wt : Bool}
  {h h₀ : RWHandler} {bare : Nat → Byte} {q : Ask}

theorem safe_of_low (hsz : 0 < sz) (hq : q.Low sz E wt) : q.Safe (everywhere sz) sz E wt := by
  have hwhole : everywhere sz / sz * sz = everywhere sz := by
    rw [everywhere, Nat.mul_div_cancel _ hsz]
  have htop : 2 ^ 64 ≤ everywhere sz := Nat.le_mul_of_pos_right _ hsz
  cases q with
  | read r buf => exact r.top.trans (hwhole.symm ▸ htop)
  | write r src =>
    refine ⟨hq.1, ?_⟩
    split
    · exact r.top.trans (hwhole.symm ▸ htop)
    · exact ⟨hq.2 (Bool.eq_false_iff.mpr ‹_›), r.top.trans htop⟩

theorem session_of_exchange (hsz : 0 < sz) (hs : Exchange sz E h₀ bare h) :
    Session (everywhere sz) sz E h₀ bare h := by
  induction hs with
  | start => exact .start
  | mode value hs ih => exact .mode value ih
  | ask hs hq ho ih => exact .ask ih (safe_of_low hsz hq) ho

/-- After any requests the handler below has the bytes that it would have without the cache, and
the next request has the result that it would have there. -/
theorem transparent (hs : Exchange sz E (initial n sz hn hsz disk wt) bare h) : h.bytes = bare ∧
    ∀ q o, q.Low sz E h.writeThrough → h.Served (everywhere sz) sz E q o →
      ∃ a h', o = some (a, h') ∧ a.Right bare q ∧ h'.bytes = q.leaves bare := by
  have h0 : (initial n sz hn hsz disk wt).Sound sz := sound_of_empty rfl rfl
  obtain ⟨hsound, hbytes⟩ := sound_of_session hsz h0 (session_of_exchange hsz hs)
  refine ⟨hbytes, fun q o hq ho => ?_⟩
  obtain ⟨a, h', he, hright, hleaves, -⟩ := served_of_safe hsz hsound (safe_of_low hsz hq) ho
  exact ⟨a, h', he, hbytes ▸ hright, hbytes ▸ hleaves⟩

/-- A handler with one item of a sector. -/
def small : RWHandler := initial 1 512 Nat.one_pos third_pos ⟨fun _ => 0, 0⟩ false

theorem transparent_third : ∃ o,
    small.Served (everywhere 512) 512 atOnce (.write third fun _ => ⟨1⟩) o ∧
      ∃ a h', o = some (a, h') ∧ a.Right small.bytes (.write third fun _ => ⟨1⟩) ∧
        h'.bytes = (Ask.write third fun _ => ⟨1⟩).leaves small.bytes := by
  have ho : small.Served (everywhere 512) 512 atOnce (.write third fun _ => ⟨1⟩) (some _) :=
    .rwi rfl rfl rfl .refl ⟨rfl, rfl⟩
  have hs : Exchange 512 atOnce (initial 1 512 Nat.one_pos third_pos ⟨fun _ => 0, 0⟩ false)
      small.bytes small := .start
  exact ⟨_, ho, (transparent hs).2 _ _ ⟨by decide, fun _ => rfl⟩ ho⟩

theorem last_top : 2 ^ 64 - 512 + 512 ≤ 2 ^ 64 := by decide

/-- The last sector below 2^64. -/
def last : Range := ⟨2 ^ 64 - 512, 512, third_pos, last_top⟩

/-- A compiler that evaluates the arguments from the right. -/
def fromRight : Env := { atOnce with movesFirst := true }

/-- The first request is answered as by the handler below, if the compiler has the arguments of a
call evaluated in this order. -/
def Invisible (order : Bool) : Prop :=
  ∀ (n sz : Nat) (hn : 0 < n) (hsz : 0 < sz) (E : Env) (disk : Disk) (wt : Bool) (q : Ask)
    (o : Option (Answer × RWHandler)), E.movesFirst = order →
      (initial n sz hn hsz disk wt).Served (everywhere sz) sz E q o → ∃ a h', o = some (a, h') ∧
        a.Right (initial n sz hn hsz disk wt).bytes q

/-- Where the completer takes `wq` first the program stops at any write that is handed on. In the
other order it does so at the last sector below 2^64: the end of the write is 0 in 64 bits, and the
range of the chunks to drop is empty. -/
theorem not_transparent : ¬ Invisible true ∧ ¬ Invisible false := by
  constructor
  · intro hall
    have ho : small.Served (everywhere 512) 512 fromRight (.write third fun _ => 0) none :=
      .turned rfl rfl rfl
    obtain ⟨a, h', he, -⟩ := hall 1 512 _ _ _ _ _ _ _ rfl ho
    cases he
  · intro hall
    have ho : small.Served (everywhere 512) 512 atOnce (.write last fun _ => 0) none :=
      .turned rfl rfl rfl
    obtain ⟨a, h', he, -⟩ := hall 1 512 _ _ _ _ _ _ _ rfl ho
    cases he

end RWHandler

end Ublk.Cache
