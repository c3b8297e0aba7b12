import Ublk.Cache.FailedParts
import Ublk.Cache.Recency
import Ublk.Cache.Transparent
import Ublk.Cfq.Base
import Ublk.Cmd.Report
import Ublk.Copy
import Ublk.Failstop.Raids
import Ublk.Master.Create
import Ublk.Master.Registry
import Ublk.Mm.CachedAllocator
import Ublk.Raidsp.Delta
import Ublk.Raidsp.Lives
import Ublk.Raidsp.Offline
import Ublk.Raidsp.ParityWords
import Ublk.Raidsp.Placement
import Ublk.Raidsp.Recent
import Ublk.Rest
import Ublk.Slave.Drain
