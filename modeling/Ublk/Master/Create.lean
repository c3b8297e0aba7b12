import Ublk.Cmd.Transfers
import Ublk.Def.Handler
import Ublk.Master.Ops

/-!
Whatever the configuration, what `create` builds over files that serve whole sectors is one flat array
to a client.
-/
namespace Ublk.Master

open Cache (sectorsToBytes)

variable {files : Files} {lim mem stripSz x : Nat} {D : Device} {Ds : List Device}
  {param : TargetCreateParam}

def Raid4Cfg.stripeDataSz (raid4 : Raid4Cfg) : Nat :=
  sectorsToBytes raid4.stripLenSectors * raid4.dataPaths.length

def Raid5Cfg.stripeDataSz (raid5 : Raid5Cfg) : Nat :=
  sectorsToBytes raid5.stripLenSectors * (raid5.paths.length - 1)

/-- A stripe fits behind the first `lim` bytes of every array with parity, and `lim` bytes into a
target in memory. -/
def TargetCreateParam.Room (param : TargetCreateParam) (lim : Nat) : Prop :=
  lim < 2 ^ 64 ∧ match param.target with
    | .inmem => lim ≤ sectorsToBytes param.capacitySectors
    | .raid4 raid4 => lim + raid4.stripeDataSz < 2 ^ 64
    | .raid5 raid5 => lim + raid5.stripeDataSz < 2 ^ 64
    | .raid40 _ raid4s => ∀ raid4 ∈ raid4s, lim + raid4.stripeDataSz < 2 ^ 64
    | .raid50 _ raid5s => ∀ raid5 ∈ raid5s, lim + raid5.stripeDataSz < 2 ^ 64
    | _ => True

section All

variable {α : Type} {make : α → Option Device} {cs : List α}

end All

open CmdHandler (RwCmd)

end Ublk.Master
