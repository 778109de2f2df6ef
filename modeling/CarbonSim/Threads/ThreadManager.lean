import CarbonSim.Lib.Outcome

/-!
# The thread manager of the master process

Process 0 keeps, for every tile and every thread index of its core, what the thread there does, which
thread it is and who waits for it to exit, and for every tile which thread was stalled last. Thread
ids are numbered from one in the order in which they are given out, and a vector maps an id to the
place of the thread. All cores are main cores, so that a core is given by its tile.
-/

namespace CarbonSim.Threads

open Function

inductive SimulationMode
  | full
  | lite
  deriving DecidableEq, Repr

/-- The entry `thread_scheduling/scheme` of the configuration. -/
inductive Scheme
  | roundRobin
  | none
  deriving DecidableEq, Repr

structure Config where
  applicationTiles : ℕ
  processCount : ℕ
  maxThreadsPerCore : ℕ
  simulationMode : SimulationMode
  scheme : Scheme
  processNumForTile : ℕ → ℕ

namespace Config

variable (cfg : Config)

/-- The application tiles, in full mode one thread spawner for each process, and the MCP. -/
def totalTiles : ℕ :=
  match cfg.simulationMode with
  | .full => cfg.applicationTiles + cfg.processCount + 1
  | .lite => cfg.applicationTiles + 1

def mcpTileNum : ℕ := cfg.totalTiles - 1

/-- The thread spawner of process 0. -/
def currentThreadSpawnerTileNum : Option ℕ :=
  match cfg.simulationMode with
  | .full => some (cfg.totalTiles - (1 + cfg.processCount))
  | .lite => none

/-- A tile that the constructor marks as running: a thread spawner or the MCP. -/
def IsSystemTile (tile : ℕ) : Prop := cfg.applicationTiles ≤ tile ∧ tile < cfg.totalTiles

instance (tile : ℕ) : Decidable (cfg.IsSystemTile tile) :=
  inferInstanceAs (Decidable (_ ∧ _))

end Config

/-- The states of `Core::State` that the master uses. -/
inductive Status
  | running
  | initializing
  | stalled
  | idle
  deriving DecidableEq, Repr

/-- A thread index of the core of a tile. -/
structure Slot where
  tile : ℕ
  index : ℕ
  deriving DecidableEq, Repr

/-- `waiter` is `waiter_core` with `waiter_tid`, `cpuSet` the place for which the affinity mask was
allocated: the field is a pointer. -/
structure ThreadState where
  status : Status
  waiter : Option Slot
  threadId : Option ℕ
  cpuSet : Slot
  deriving DecidableEq, Repr

/-- A spawn request as the requester sends it. -/
structure SpawnRequest where
  func : ℕ
  arg : ℕ
  requester : Slot
  destination : Option ℕ
  deriving DecidableEq, Repr

/-- A spawn request with the place and the id that the master has chosen. -/
structure ThreadSpawnRequest where
  func : ℕ
  arg : ℕ
  requester : Slot
  destination : Slot
  destinationTid : ℕ
  deriving DecidableEq, Repr

/-- What the master sends. -/
inductive Packet
  | spawnReply (receiver : ℕ) (destination : Slot)
  | joinReply (receiver : ℕ)
  | exitReply (receiver : ℕ) (nextTidx : Option ℕ)
  | yieldReply (requester : Slot) (requesterNextTidx : Option ℕ) (destination : ℕ)
      (destinationTidx : Option ℕ) (destinationNextTidx : Option ℕ)
  | affinityReply (receiver : ℕ) (tid : ℕ) (set : List ℕ)
  /-- `LCP_MESSAGE_THREAD_SPAWN_REQUEST_FROM_MASTER`. -/
  | lcpSpawn (process : ℕ) (req : ThreadSpawnRequest)
  deriving DecidableEq, Repr

/-- The assertions of the manager and of the scheduler. -/
inductive Fault
  /-- A vector is indexed past its end. -/
  | outOfRange
  /-- "Main thread should be in initializing state but isn't". -/
  | notInitializing
  /-- "Exiting thread is not even running!". -/
  | exitNotRunning
  /-- "Two threads on main core of tile are running simultaneously!". -/
  | twoRunning
  /-- "Can't stall Core because it has no running threads!". -/
  | nothingToStall
  /-- `resumeThread`: `thread_index != INVALID_THREAD_ID`. -/
  | neverStalled
  /-- "resumeThread() called on already running thread". -/
  | alreadyRunning
  /-- "No cores available for spawnThread request." -/
  | noCore
  /-- "No threads available on destination core for spawnThread request." -/
  | noThread
  /-- "A thread with this tid has not been spawned before!". -/
  | unknownTid
  /-- "Multiple threads joining on main thread on tile". -/
  | multipleJoin
  /-- "Spawning a non-idle thread". -/
  | spawnNonIdle
  /-- `masterStartThread`: `!m_waiter_queue[core_id.tile_id].empty()`. -/
  | emptyQueue
  /-- "Haven't made this work for starting waiting threads yet". -/
  | startWaiting
  /-- `masterOnThreadExit`: `isCoreRunning(core_id) == INVALID_THREAD_ID`. -/
  | exitStillRunning
  /-- A core's lock is acquired twice. -/
  | lockHeld
  /-- "I can't migrate threads currently running!". -/
  | migrateRunning
  /-- "Could not find thread idx in core". -/
  | migrateNotFound
  /-- "The migrating thread is IDLE!". -/
  | migrateIdle
  /-- "The destination thread is not IDLE!". -/
  | migrateOntoBusy
  /-- `masterYieldThread`: the yielding thread is the front of its queue. -/
  | yieldNotFront
  /-- "No scheme was set for requeuing threads!". -/
  | noScheme
  /-- "You are using a cpu mask with more cores than we are simulating". -/
  | maskTooLarge
  deriving DecidableEq, Repr

/-- The tables of the manager and of the scheduler on process 0, and what they have sent. The list
`threadSpawnList` holds the threads that the application is to start in lite mode. -/
structure Master where
  threadState : Slot → ThreadState
  cpuSets : Slot → List ℕ
  lastStalledThread : ℕ → Option ℕ
  tidCounter : ℕ
  tidToCoreMap : List Slot
  waiterQueue : ℕ → List ThreadSpawnRequest
  localNextTidx : ℕ → Option ℕ
  threadSpawnList : List ThreadSpawnRequest
  sent : List Packet

namespace Master

variable (cfg : Config) (s : Master)

/-- The constructors of `ThreadManager` and `ThreadScheduler`. -/
def start : Master where
  threadState x :=
    { status :=
        if x.index = 0 ∧ (x.tile = 0 ∨ cfg.IsSystemTile x.tile) then .running else .idle
      waiter := none
      threadId := none
      cpuSet := x }
  cpuSets _ := []
  lastStalledThread _ := none
  tidCounter := 0
  tidToCoreMap := []
  waiterQueue _ := []
  localNextTidx _ := none
  threadSpawnList := []
  sent := []

def status (x : Slot) : Status := (s.threadState x).status

/-! ### Updates -/

@[simps]
def setThread (x : Slot) (t : ThreadState) : Master :=
  { s with threadState := update s.threadState x t }

/-- `setThreadState` with a status. -/
def setStatus (x : Slot) (status : Status) : Master :=
  s.setThread x { s.threadState x with status := status }

@[simps]
def netSend (pkt : Packet) : Master := { s with sent := s.sent ++ [pkt] }

@[simps]
def setQueue (tile : ℕ) (queue : List ThreadSpawnRequest) : Master :=
  { s with waiterQueue := update s.waiterQueue tile queue }

@[simps]
def setNextTidx (tile : ℕ) (next : Option ℕ) : Master :=
  { s with localNextTidx := update s.localNextTidx tile next }

/-! ### What the threads of a core do -/

def isCoreRunning (tile : ℕ) : Except Fault (Option ℕ) :=
  match (List.range cfg.maxThreadsPerCore).filter (s.status ⟨tile, ·⟩ = .running) with
  | [] => .ok none
  | [j] => .ok (some j)
  | _ => .error .twoRunning

def isCoreInitializing (tile : ℕ) : Bool :=
  (List.range cfg.maxThreadsPerCore).any (s.status ⟨tile, ·⟩ = .initializing)

def getIdleThread (tile : ℕ) : Option ℕ :=
  (List.range cfg.maxThreadsPerCore).find? (s.status ⟨tile, ·⟩ = .idle)

/-! ### Stalling and resuming -/

/-- `stallThread(tile_id, thread_index)`. -/
def stallThread (x : Slot) : Master :=
  { s.setStatus x .stalled with
    lastStalledThread := update s.lastStalledThread x.tile (some x.index) }

/-- `stallThread(core_id)`: the thread that runs on the core. -/
def stallCore (tile : ℕ) : Except Fault Master := do
  let running ← s.isCoreRunning cfg tile
  let j ← fetch running .nothingToStall
  return s.stallThread ⟨tile, j⟩

/-- `resumeThread(tile_id, thread_index)`. -/
def resumeThread (x : Slot) : Except Fault Master := do
  require (s.status x ≠ .running) .alreadyRunning
  return s.setStatus x .running

/-- `resumeThread(core_id)`: the thread of the core that was stalled last. -/
def resumeCore (tile : ℕ) : Except Fault Master := do
  let j ← fetch (s.lastStalledThread tile) .neverStalled
  s.resumeThread ⟨tile, j⟩

/-! ### Thread ids -/

/-- The vector is enlarged to twice the new id when it is too short; the entries between are those of
the main thread. -/
def getNewThreadId (x : Slot) : Master × ℕ :=
  let tid := s.tidCounter + 1
  let grown :=
    if s.tidToCoreMap.length ≤ tid then
      s.tidToCoreMap ++ List.replicate (2 * tid - s.tidToCoreMap.length) ⟨0, 0⟩
    else s.tidToCoreMap
  ({ s.setThread x { s.threadState x with threadId := some tid } with
      tidCounter := tid
      tidToCoreMap := grown.set tid x }, tid)

def lookupThreadIndex (tid : ℕ) : Except Fault Slot := do
  require (tid ≤ s.tidCounter) .unknownTid
  fetch s.tidToCoreMap[tid]? .outOfRange

/-- `setThreadIndex`; an id that is not valid is negative and passes the comparison. -/
def setThreadIndex (tid : Option ℕ) (x : Slot) : Except Fault Master := do
  let tid ← fetch tid .outOfRange
  require (tid < s.tidToCoreMap.length) .unknownTid
  return { s with tidToCoreMap := s.tidToCoreMap.set tid x }

/-! ### Joining -/

/-- `wakeUpWaiter`. -/
def wakeUpWaiter (x : Slot) : Except Fault Master :=
  match (s.threadState x).waiter with
  | none => .ok s
  | some dest => do
    let s ← s.resumeThread dest
    let s := s.netSend (.joinReply dest.tile)
    return s.setThread x { s.threadState x with waiter := none }

def masterJoinThread (sender : Slot) (tid : ℕ) : Except Fault Master := do
  let x ← fetch s.tidToCoreMap[tid]? .unknownTid
  require ((s.threadState x).waiter = none) .multipleJoin
  let s ← (s.setThread x { s.threadState x with waiter := some sender }).stallCore cfg sender.tile
  if s.status x = .idle then s.wakeUpWaiter x else return s

/-! ### Starting -/

def masterOnThreadStart (x : Slot) : Except Fault Master := do
  require (s.status x = .initializing) .notInitializing
  return s.setStatus x .running

/-- `dequeueThreadSpawnReq`: the application takes the front of the list, for which it has waited in
`getThreadToSpawn`. -/
def dequeueThreadSpawnReq : Option (ThreadSpawnRequest × Master) :=
  match s.threadSpawnList with
  | [] => none
  | req :: rest => some (req, { s with threadSpawnList := rest })

end Master

end CarbonSim.Threads
