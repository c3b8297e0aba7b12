import Mathlib.Data.List.GetD
import Ublk.Cmd.Cells
import Ublk.Serves

/-!
`READ` and `WRITE` commands over a handler that serves whole sectors. Their data lies in cells, one
for each descriptor of a chain; however it is cut up, the handler is one flat array to the driver.
-/
namespace Ublk.CmdHandler

open Words

/-- What a handler returns that does not serve a request. -/
def EIO : Int := 5

variable (D : Device)

/-- The callback of `CmdReadHandler::handle`; the state is the handler's and the shared memory. -/
def readCell (offset : Nat) (buf : Span) (s : D.State × (Nat → Byte)) :
    Int × D.State × (Nat → Byte) :=
  match D.read s.1 offset buf with
  | some (got, t) => (0, t, overlay s.2 buf.addr buf.len got)
  | none => .mk EIO s

/-- The callback of `CmdWriteHandler::handle`. -/
def writeCell (offset : Nat) (buf : Span) (s : D.State × (Nat → Byte)) :
    Int × D.State × (Nat → Byte) :=
  match D.write s.1 offset buf fun i => s.2 (buf.addr + i) with
  | some t => (0, t, s.2)
  | none => .mk EIO s

/-- A command with the table and the memory that the driver shares as it is issued. -/
structure RwCmd where
  write : Bool
  offset : Nat
  fcdn : Nat
  cdsNr : Nat
  cellds : List Celld
  cells : Span
  mem : Nat → Byte

namespace RwCmd

variable (c : RwCmd)

def traversal : Transferring (D.State × (Nat → Byte)) :=
  ⟨c.cellds, c.cells, if c.write then writeCell D else readCell D⟩

/-- `CmdReadHandler::handle` and `CmdWriteHandler::handle`. -/
def handle (s : D.State) : Walk (D.State × (Nat → Byte)) :=
  (c.traversal D).forEachCelld c.offset c.fcdn c.cdsNr (s, c.mem)

end RwCmd

/-- How many bytes descriptors hand over. -/
def total : List Celld → Nat
  | [] => 0
  | d :: ds => d.dataSz + total ds

/-- The bytes of the descriptors' cells, in order. -/
def gather (base : Nat) (ds : List Celld) (mem : Nat → Byte) : List Byte :=
  ds.flatMap fun d => (List.range d.dataSz).map fun i => mem (base + d.offset + i)

/-- The cells of two descriptors do not meet. -/
def Celld.Apart (d d' : Celld) : Prop :=
  d.offset + d.dataSz ≤ d'.offset ∨ d'.offset + d'.dataSz ≤ d.offset

variable {D} {lim offset celldn base a : Nat} {s t : D.State} {mem mem' : Nat → Byte}
  {d : Celld} {ds : List Celld} {j : Nat} {P : Transferring (D.State × (Nat → Byte))}

@[simp] theorem length_gather : (gather base ds mem).length = total ds := by
  induction ds with
  | nil => rfl
  | cons d ds ih => simpa [gather, total] using ih

namespace RwCmd

/-- The descriptors of the chain, if it does not leave the table. -/
def follow (cellds : List Celld) : Nat → Nat → Option (List Celld)
  | 0, _ => some []
  | n + 1, i => cellds[i]?.bind fun d => (follow cellds n d.ncelld).map (d :: ·)

def chain (c : RwCmd) : List Celld := (follow c.cellds c.cdsNr c.fcdn).getD []

/-- What a flat array makes of commands, and the bytes that each read puts into its cells. -/
def flat (a : Nat → Byte) : List RwCmd → List (List Byte) × (Nat → Byte)
  | [] => ([], a)
  | c :: cs =>
    if c.write then
      flat (overlay a c.offset (total c.chain) fun i => (gather c.cells.addr c.chain c.mem).getD i 0) cs
    else
      ((List.range (total c.chain)).map (fun i => a (c.offset + i)) :: (flat a cs).1, (flat a cs).2)

/-- Commands one after the other, with what each returned and the bytes that reads leave in their
cells. -/
def serve (D : Device) (s : D.State) : List RwCmd → List Int × List (List Byte) × D.State
  | [] => ([], [], s)
  | c :: cs =>
    let w := c.handle D s
    let r := serve D w.state.1 cs
    (w.ret :: r.1, if c.write then r.2.1 else gather c.cells.addr c.chain w.state.2 :: r.2.1, r.2.2)

variable {c : RwCmd} {cs : List RwCmd}

end RwCmd

end Ublk.CmdHandler
