import CarbonSim.Threads.ThreadManager

/-!
# The thread scheduler of the master process

Each tile has a queue of the threads that were given to its core. Its front is the thread that the
core runs or is to run: a thread that yields goes to the back, one that blocks stays at the front.
-/

namespace CarbonSim.Threads

namespace Master

variable (cfg : Config) (s : Master)

/-! ### Starting the front of a queue -/

/-- A thread is handed to the process of its tile in full mode and to the application in lite mode,
where the requester is sent a spawn reply. -/
def launch (req : ThreadSpawnRequest) : Master :=
  match cfg.simulationMode with
  | .full => s.netSend (.lcpSpawn (cfg.processNumForTile req.destination.tile) req)
  | .lite =>
    { s with threadSpawnList := s.threadSpawnList ++ [req] }.netSend
      (.spawnReply req.requester.tile req.destination)

def masterStartThread (tile : ℕ) : Except Fault Master := do
  let req ← fetch (s.waiterQueue tile).head? .emptyQueue
  require (s.status req.destination = .initializing) .startWaiting
  return s.launch cfg req

/-! ### Spawning -/

/-- The core has no running thread and none that is about to run. -/
def isStartable (tile : ℕ) : Except Fault Bool := do
  let running ← s.isCoreRunning cfg tile
  return running.isNone && !s.isCoreInitializing cfg tile

/-- Whether a new thread may start at once. The thread that spawns is stalled but will go on, so its
own core cannot start another. -/
def mayStart (req : ThreadSpawnRequest) : Except Fault Bool :=
  if req.requester.tile = req.destination.tile then .ok false
  else s.isStartable cfg req.destination.tile

/-- A request is not queued for the thread spawner of the process. -/
def enqueueThread (req : ThreadSpawnRequest) : Master :=
  if some req.destination.tile = cfg.currentThreadSpawnerTileNum then s
  else s.setQueue req.destination.tile (s.waiterQueue req.destination.tile ++ [req])

def masterScheduleThread (req : ThreadSpawnRequest) : Except Fault Master := do
  let queued := s.enqueueThread cfg req
  let startable ← queued.mayStart cfg req
  require (s.status req.destination = .idle) .spawnNonIdle
  let placed := queued.setStatus req.destination .initializing
  if startable then placed.masterStartThread cfg req.destination.tile else return placed

/-- The tiles in the order in which an automatic placement tries them: from the one after the
requester on, tile 0 left out. -/
def targetTiles (requester : Slot) : List ℕ :=
  ((List.range cfg.applicationTiles).map
    fun i ↦ (requester.tile + (i + 1)) % cfg.applicationTiles).filter (· ≠ 0)

/-- The loop over the thread indices is not left when a place has been found, so that the last index
with an idle thread decides. -/
def findPlace (requester : Slot) : Option Slot :=
  (List.range cfg.maxThreadsPerCore).foldl (fun found j ↦
      match (targetTiles cfg requester).find? (s.status ⟨·, j⟩ = .idle) with
      | some tile => some ⟨tile, j⟩
      | none => found)
    none

def choosePlace (req : SpawnRequest) : Except Fault Slot :=
  match req.destination with
  | none => fetch (s.findPlace cfg req.requester) .noCore
  | some tile => do
    require (tile < cfg.totalTiles) .outOfRange
    let j ← fetch (s.getIdleThread cfg tile) .noThread
    return ⟨tile, j⟩

def masterSpawnThreadReply (req : ThreadSpawnRequest) : Except Fault Master := do
  let s ← s.resumeCore req.requester.tile
  return s.netSend (.spawnReply req.requester.tile req.destination)

def masterSpawnThread (req : SpawnRequest) : Except Fault Master := do
  let s := s.stallThread req.requester
  let x ← s.choosePlace cfg req
  let (s, tid) := s.getNewThreadId x
  let placed : ThreadSpawnRequest :=
    { func := req.func, arg := req.arg, requester := req.requester, destination := x,
      destinationTid := tid }
  let s ← s.masterScheduleThread cfg placed
  s.masterSpawnThreadReply placed

/-! ### Exiting -/

/-- The front of a queue goes on: a new thread is started, another one resumed. -/
def runFront (tile : ℕ) : Except Fault Master :=
  match (s.waiterQueue tile).head? with
  | none => .ok s
  | some req =>
    if s.status ⟨tile, req.destination.index⟩ = .initializing then s.masterStartThread cfg tile
    else s.resumeThread ⟨tile, req.destination.index⟩

/-- The exiting thread leaves the front of the queue of its core. -/
def dequeueExited (tile : ℕ) : Master :=
  if some tile = cfg.currentThreadSpawnerTileNum ∨ tile = cfg.mcpTileNum then s
  else s.setQueue tile (s.waiterQueue tile).tail

/-- `ThreadScheduler::masterOnThreadExit`. -/
def scheduleAfterExit (x : Slot) : Except Fault Master := do
  let running ← s.isCoreRunning cfg x.tile
  require (running = none) .exitStillRunning
  let popped := s.dequeueExited cfg x.tile
  let next := (popped.waiterQueue x.tile).head?.map (·.destination.index)
  let s ← popped.runFront cfg x.tile
  return s.netSend (.exitReply x.tile next)

/-- `ThreadManager::masterOnThreadExit`. -/
def masterOnThreadExit (x : Slot) : Except Fault Master := do
  require (x.tile < cfg.totalTiles) .outOfRange
  require (s.status x = .running) .exitNotRunning
  let s ← (s.setStatus x .idle).wakeUpWaiter x
  s.scheduleAfterExit cfg x

/-! ### Migrating -/

/-- The state of a thread with its waiter and its id is copied to its new place; the old place only
becomes idle. The mask is a pointer, which both places then have. -/
def moveThread (src dst : Slot) : Master :=
  (s.setThread dst (s.threadState src)).setStatus src .idle

/-- The source queue is turned once around and loses the requests with the index. -/
def dequeueThread (src : Slot) : Except Fault (Master × ThreadSpawnRequest) := do
  let queue := s.waiterQueue src.tile
  let req ← fetch (queue.filter (·.destination.index = src.index)).getLast? .migrateNotFound
  return (s.setQueue src.tile (queue.filter (·.destination.index ≠ src.index)), req)

/-- What a core does with a thread that has moved to it and may start. -/
def goOn (dst : Slot) : Except Fault Master :=
  let s := s.setNextTidx dst.tile (some dst.index)
  if s.status dst = .initializing then s.masterStartThread cfg dst.tile else s.resumeThread dst

/-- `masterMigrateThread` with both places given. Both cores are locked, and a lock is not
recursive. -/
def migrateThread (src dst : Slot) : Except Fault Master := do
  require (src.tile ≠ dst.tile) .lockHeld
  require (s.status src ≠ .running) .migrateRunning
  let (s, req) ← s.dequeueThread src
  let s := s.setQueue dst.tile (s.waiterQueue dst.tile ++ [{ req with destination := dst }])
  let startable ← s.isStartable cfg dst.tile
  require (s.status src ≠ .idle) .migrateIdle
  require (s.status dst = .idle) .migrateOntoBusy
  let s ← s.setThreadIndex (s.threadState src).threadId dst
  let s := s.moveThread src dst
  if startable then s.goOn cfg dst else return s

/-- `masterMigrateThread` for a thread id: the request is ignored when no thread is idle at the
destination. -/
def masterMigrateThread (tid : ℕ) (tile : ℕ) : Except Fault Master := do
  require (tile < cfg.totalTiles) .outOfRange
  match s.getIdleThread cfg tile with
  | none => return s
  | some j =>
    let src ← s.lookupThreadIndex tid
    s.migrateThread cfg src ⟨tile, j⟩

/-! ### Affinity and yielding -/

/-- The first tile of a mask whose core runs no thread. -/
def firstFreeCore : List ℕ → Except Fault (Option ℕ)
  | [] => .ok none
  | tile :: rest => do
    let running ← s.isCoreRunning cfg tile
    if running = none then return some tile else firstFreeCore rest

/-- The tile that a thread with an affinity mask goes to: it stays when the mask is empty or has its
tile, and when no core of the mask is free. -/
def affinityTile (x : Slot) : Except Fault ℕ :=
  let set := s.cpuSets (s.threadState x).cpuSet
  if set = [] ∨ x.tile ∈ set then .ok x.tile
  else do
    let free ← s.firstFreeCore cfg ((List.range cfg.totalTiles).filter (· ∈ set))
    return free.getD x.tile

/-- `masterCheckAffinityAndMigrate`, with the place of the thread afterwards. -/
def masterCheckAffinityAndMigrate (x : Slot) : Except Fault (Master × ℕ × Option ℕ) := do
  let tile ← s.affinityTile cfg x
  if tile = x.tile then return (s, tile, some x.index)
  else
    match s.getIdleThread cfg tile with
    | none => return (s, tile, none)
    | some j => do
      let s ← s.migrateThread cfg x ⟨tile, j⟩
      return (s, tile, some j)

/-- `requeueThread`. -/
def requeueThread (tile : ℕ) : Except Fault Master := do
  require (cfg.scheme = .roundRobin) .noScheme
  return s.setQueue tile ((s.waiterQueue tile).tail ++ (s.waiterQueue tile).head?.toList)

/-- The end of `masterYieldThread`: the next thread of the core goes on. -/
def runNext (tile : ℕ) (next : Option ℕ) : Except Fault Master :=
  if s.waiterQueue tile = [] then .ok (s.setNextTidx tile none)
  else
    match next with
    | none => .ok s
    | some j =>
      if s.status ⟨tile, j⟩ = .initializing then s.masterStartThread cfg tile
      else s.resumeThread ⟨tile, j⟩

def masterYieldThread (x : Slot) : Except Fault Master := do
  require ((s.waiterQueue x.tile).head?.map (·.destination.index) = some x.index) .yieldNotFront
  let s ← (s.stallThread x).requeueThread cfg x.tile
  let next := (s.waiterQueue x.tile).head?.map (·.destination.index)
  let (s, tile, index) ← (s.setNextTidx x.tile next).masterCheckAffinityAndMigrate cfg x
  let s ← s.runNext cfg x.tile next
  return s.netSend (.yieldReply x (s.localNextTidx x.tile) tile index (s.localNextTidx tile))

/-- `masterSchedSetAffinity`: the mask is written through the pointer of the place. -/
def masterSchedSetAffinity (tid cpusetsize : ℕ) (set : List ℕ) : Except Fault Master := do
  require (cpusetsize ≤ cfg.totalTiles) .maskTooLarge
  let x ← s.lookupThreadIndex tid
  return { s with cpuSets := Function.update s.cpuSets (s.threadState x).cpuSet set }

def masterSchedGetAffinity (requester tid cpusetsize : ℕ) : Except Fault Master := do
  let x ← s.lookupThreadIndex tid
  require (cpusetsize ≤ cfg.totalTiles) .maskTooLarge
  return s.netSend (.affinityReply requester tid (s.cpuSets (s.threadState x).cpuSet))

end Master

/-! ### The messages of the MCP -/

/-- The messages to the MCP that concern threads. The servers for mutexes, condition variables,
barriers and futexes stall the core that blocks and resume it when it is woken. -/
inductive Event
  | spawn (req : SpawnRequest)
  | start (x : Slot)
  | stall (tile : ℕ)
  | resume (tile : ℕ)
  | join (sender : Slot) (tid : ℕ)
  | yield (x : Slot)
  | migrate (tid tile : ℕ)
  | setAffinity (tid cpusetsize : ℕ) (set : List ℕ)
  | getAffinity (requester tid cpusetsize : ℕ)
  | exit (x : Slot)
  deriving DecidableEq, Repr

/-- `MCP::processPacket`. -/
def Master.processPacket (cfg : Config) (s : Master) : Event → Except Fault Master
  | .spawn req => s.masterSpawnThread cfg req
  | .start x => s.masterOnThreadStart x
  | .stall tile => s.stallCore cfg tile
  | .resume tile => s.resumeCore tile
  | .join sender tid => s.masterJoinThread cfg sender tid
  | .yield x => s.masterYieldThread cfg x
  | .migrate tid tile => s.masterMigrateThread cfg tid tile
  | .setAffinity tid cpusetsize set => s.masterSchedSetAffinity cfg tid cpusetsize set
  | .getAffinity requester tid cpusetsize => s.masterSchedGetAffinity cfg requester tid cpusetsize
  | .exit x => s.masterOnThreadExit cfg x

end CarbonSim.Threads
