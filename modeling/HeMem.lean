import HeMem.Proofs.Fifo
import HeMem.Proofs.Ring
import HeMem.Proofs.Allocate
import HeMem.Proofs.Live
import HeMem.Proofs.Application
import HeMem.Proofs.Faults
import HeMem.Proofs.Enforced
import HeMem.Proofs.Sample
import HeMem.Proofs.Requests
import HeMem.Proofs.Starved
import HeMem.Proofs.RequestRace
import HeMem.Proofs.LruRace
import HeMem.Proofs.Cooling
import HeMem.Proofs.Sweep
import HeMem.Proofs.Interpose
import HeMem.Proofs.Accounting
import HeMem.Proofs.Perf
import HeMem.Proofs.Guard
import HeMem.Proofs.Scan
import HeMem.Proofs.LruSwap
import HeMem.Proofs.Rotate
import HeMem.Proofs.Shifts
import HeMem.Proofs.Counters
import HeMem.Proofs.MigrateRace
import HeMem.FlexKvs.Proofs.SegmentLock
import HeMem.FlexKvs.Proofs.Connection
import HeMem.FlexKvs.Proofs.Ialloc
import HeMem.FlexKvs.Proofs.References
import HeMem.FlexKvs.Proofs.Store
import HeMem.FlexKvs.Proofs.CleanRace
import HeMem.FlexKvs.Proofs.Workload
import HeMem.FlexKvs.Proofs.Puts
import HeMem.FlexKvs.Proofs.Bounds
import HeMem.FlexKvs.Proofs.Cleaning
import HeMem.FlexKvs.Proofs.Bench
import HeMem.Proofs.WriteFault
import HeMem.Proofs.UnmapRace
import HeMem.Proofs.RemoveRace
import HeMem.FlexKvs.Proofs.Jenkins
import HeMem.Proofs.CopyRace
import HeMem.Proofs.PageTable
import HeMem.Proofs.Plan
import HeMem.Proofs.Simple
import HeMem.Proofs.LruBuild
import HeMem.Proofs.PassRace
import HeMem.FlexKvs.Proofs.Projection
