import CarbonSim.Msi.Service
import CarbonSim.Sync.MutexService
import CarbonSim.Core.LambdaQueue
import CarbonSim.Queue.InterleavedRuns
import CarbonSim.Queue.PortBooking
import CarbonSim.Network.EMeshDelivery
import CarbonSim.Core.MemoryAccess
import CarbonSim.Threads.Affinity
import CarbonSim.Threads.Joins
import CarbonSim.Threads.Scheduling
import CarbonSim.ClockSkew.LaxBarrierRuns
import CarbonSim.Transport.RingBarrierRuns
import CarbonSim.Transport.SockRuns
import CarbonSim.Msi.InclusionRuns
import CarbonSim.Misc.Semaphore
import CarbonSim.Misc.ConditionVariable
import CarbonSim.Sync.FutexReplies
import CarbonSim.Network.FilteredIngestor
import CarbonSim.Misc.TileMap
import CarbonSim.Directory.DirectoryRuns
import CarbonSim.Msi.MissTimes
import CarbonSim.Directory.SharerHistory
import CarbonSim.Cache.LruRecency
import CarbonSim.Sync.BarrierGroups
import CarbonSim.Threads.CoreLocks
import CarbonSim.Misc.VmManager
import CarbonSim.User.Chip
