import CarbonSim.Lib.Outcome

/-!
# The synchronisation server

`SimMutex`, `SimCond` and the handlers of `SyncServer` for mutexes and condition variables, with the
part of `ThreadManager` that they call. A core runs one thread, so the thread table has one row for
each core. `INVALID_CORE_ID` is `none`.

`SimCond` keeps its waiters in a `std::vector`, and the front waiter is removed by assigning to each
element the one after it. A waiter holds its mutex as a `StableIterator`, whose assignment operator
returns a new iterator and leaves the one on the left as it was (`StableIterator.assign`). The
vector of the mutexes is the same for all iterators and is not part of them here.
-/

namespace CarbonSim.Sync

open Function

/-- The assertions of the handlers. -/
inductive SyncFault
  /-- `SimMutex::unlock`: the caller is not the owner. -/
  | notOwner
  /-- `ThreadManager::stallThread`: the core has no running thread. -/
  | noRunningThread
  /-- `ThreadManager::resumeThread`: no thread of the core was ever stalled. -/
  | noStalledThread
  /-- `ThreadManager::resumeThread`: the thread is running. -/
  | alreadyRunning
  /-- No such mutex. -/
  | noMutex
  /-- No such condition variable. -/
  | noCond
  deriving DecidableEq, Repr

/-- `Core::State`. -/
inductive ThreadState
  | running
  | initializing
  | stalled
  | sleeping
  | wakingUp
  | idle
  deriving DecidableEq, Repr

/-- `m_thread_state` and `m_last_stalled_thread`, which is `INVALID_THREAD_ID` until the thread of
the core is stalled for the first time. -/
structure ThreadTable (Core : Type) where
  status : Core → ThreadState
  lastStalled : Core → Bool

structure SimMutex (Core : Type) where
  waiting : List Core
  owner : Option Core
  deriving DecidableEq, Repr

/-- An iterator into the vector of mutexes. -/
structure StableIterator where
  offset : ℕ
  deriving DecidableEq, Repr

/-- `StableIterator::operator=`: nothing is written to the left-hand side. -/
def StableIterator.assign (dst _src : StableIterator) : StableIterator := dst

structure CondWaiter (Core : Type) where
  coreId : Core
  mutex : StableIterator
  arrivalTime : ℕ
  deriving DecidableEq, Repr

structure SimCond (Core : Type) where
  waiting : List (CondWaiter Core)
  deriving DecidableEq, Repr

/-- The responses of the server. `COND_WAIT_RESPONSE` is `MUTEX_LOCK_RESPONSE`. -/
inductive Reply
  | mutexLock (time : ℕ)
  | mutexUnlock
  | condSignal
  | condBroadcast
  deriving DecidableEq, Repr

/-- The messages that `MCP` passes to the server, after the time stamp is unpacked. -/
inductive Request
  | mutexLock (mux : ℕ)
  | mutexUnlock (mux : ℕ)
  | condWait (cond mux : ℕ)
  | condSignal (cond : ℕ)
  | condBroadcast (cond : ℕ)
  deriving DecidableEq, Repr

structure Server (Core : Type) where
  mutexes : ℕ → SimMutex Core
  numMutexes : ℕ
  conds : ℕ → SimCond Core
  numConds : ℕ
  threads : ThreadTable Core

variable {Core : Type} [DecidableEq Core]

/-! ### Threads -/

def ThreadTable.stallThread (t : ThreadTable Core) (core : Core) :
    Except SyncFault (ThreadTable Core) := do
  require (t.status core = .running) .noRunningThread
  return ⟨update t.status core .stalled, update t.lastStalled core true⟩

def ThreadTable.resumeThread (t : ThreadTable Core) (core : Core) :
    Except SyncFault (ThreadTable Core) := do
  require (t.lastStalled core = true) .noStalledThread
  require (t.status core ≠ .running) .alreadyRunning
  return ⟨update t.status core .running, t.lastStalled⟩

variable {t : ThreadTable Core} {waits : Core → Prop} {core : Core}

theorem stallThread_eq (h : t.status core = .running) :
    t.stallThread core = .ok ⟨update t.status core .stalled, update t.lastStalled core true⟩ := by
  simp only [ThreadTable.stallThread, require, h, if_true]
  rfl

theorem resumeThread_eq (h : t.status core = .stalled) (hlast : t.lastStalled core = true) :
    t.resumeThread core = .ok ⟨update t.status core .running, t.lastStalled⟩ := by
  simp only [ThreadTable.resumeThread, require, h, hlast, if_true]
  rfl

/-- The threads of some cores are stalled, and the others run. -/
def Stalls (t : ThreadTable Core) (waits : Core → Prop) : Prop :=
  ∀ c, (waits c → t.status c = .stalled ∧ t.lastStalled c = true) ∧
    (¬ waits c → t.status c = .running)

omit [DecidableEq Core] in
theorem Stalls.congr {waits' : Core → Prop} (h : Stalls t waits) (heq : ∀ c, waits' c ↔ waits c) :
    Stalls t waits' := by
  intro c
  rw [heq]
  exact h c

theorem Stalls.stall (h : Stalls t waits) (hcore : ¬ waits core) :
    ∃ t', t.stallThread core = .ok t' ∧ Stalls t' fun c ↦ c = core ∨ waits c := by
  refine ⟨_, stallThread_eq ((h core).2 hcore), fun c ↦ ?_⟩
  by_cases hc : c = core
  · subst hc
    simp
  · simpa [hc] using h c

theorem Stalls.resume (h : Stalls t waits) (hcore : waits core) :
    ∃ t', t.resumeThread core = .ok t' ∧ Stalls t' fun c ↦ waits c ∧ c ≠ core := by
  obtain ⟨hstalled, hlast⟩ := (h core).1 hcore
  refine ⟨_, resumeThread_eq hstalled hlast, fun c ↦ ?_⟩
  by_cases hc : c = core
  · subst hc
    simp
  · simpa [hc] using h c

/-! ### Mutexes -/

/-- `SimMutex::lock`: whether the core owns the mutex now. -/
def SimMutex.lock (m : SimMutex Core) (t : ThreadTable Core) (core : Core) :
    Except SyncFault (Bool × SimMutex Core × ThreadTable Core) :=
  match m.owner with
  | none => .ok (true, { m with owner := some core }, t)
  | some _ => do
    let t ← t.stallThread core
    return (false, { m with waiting := m.waiting ++ [core] }, t)

/-- `SimMutex::unlock`: the next owner. -/
def SimMutex.unlock (m : SimMutex Core) (t : ThreadTable Core) (core : Core) :
    Except SyncFault (Option Core × SimMutex Core × ThreadTable Core) := do
  require (m.owner = some core) .notOwner
  match m.waiting with
  | [] => return (none, { m with owner := none }, t)
  | next :: rest => do
    let t ← t.resumeThread next
    return (some next, ⟨rest, some next⟩, t)

variable (s : Server Core)

omit [DecidableEq Core] in
def Server.setMutex (mux : ℕ) (m : SimMutex Core) (t : ThreadTable Core) :
    Server Core :=
  { s with mutexes := update s.mutexes mux m, threads := t }

/-- Call `lock` through an iterator. -/
def Server.lock (it : StableIterator) (core : Core) :
    Except SyncFault (Bool × Server Core) := do
  let (granted, m, t) ← (s.mutexes it.offset).lock s.threads core
  return (granted, s.setMutex it.offset m t)

/-- Call `unlock` through an iterator. -/
def Server.unlock (it : StableIterator) (core : Core) :
    Except SyncFault (Option Core × Server Core) := do
  let (newOwner, m, t) ← (s.mutexes it.offset).unlock s.threads core
  return (newOwner, s.setMutex it.offset m t)

/-! ### Condition variables -/

/-- The assignment operator of a waiter, member by member. -/
def CondWaiter.assign (dst src : CondWaiter Core) : CondWaiter Core :=
  ⟨src.coreId, dst.mutex.assign src.mutex, src.arrivalTime⟩

/-- `m_waiting.erase(m_waiting.begin())`: each element is assigned the one after it, and the last
one is destroyed. -/
def eraseFront : List (CondWaiter Core) → List (CondWaiter Core)
  | [] => []
  | [_] => []
  | a :: b :: rest => a.assign b :: eraseFront (b :: rest)

def Server.setWaiting (cond : ℕ) (waiting : List (CondWaiter Core)) :
    Server Core :=
  { s with conds := update s.conds cond ⟨waiting⟩ }

def Server.resumeThread (core : Core) : Except SyncFault (Server Core) := do
  let t ← s.threads.resumeThread core
  return { s with threads := t }

/-- `SimCond::wait`: the next owner of the mutex. -/
def Server.wait (cond : ℕ) (core : Core) (time : ℕ) (simMux : StableIterator) :
    Except SyncFault (Option Core × Server Core) := do
  let t ← s.threads.stallThread core
  let s := { s with threads := t }
  let s := s.setWaiting cond ((s.conds cond).waiting ++ [⟨core, simMux, time⟩])
  s.unlock simMux core

/-- Resume a waiter and lock its mutex for it. -/
def Server.wake (woken : CondWaiter Core) :
    Except SyncFault (Bool × Server Core) := do
  let s ← s.resumeThread woken.coreId
  s.lock woken.mutex woken.coreId

/-- `SimCond::signal`: the core that owns its mutex now. -/
def Server.signal (cond : ℕ) : Except SyncFault (Option Core × Server Core) :=
  match (s.conds cond).waiting with
  | [] => .ok (none, s)
  | woken :: _ => do
    let s := s.setWaiting cond (eraseFront (s.conds cond).waiting)
    let (granted, s) ← s.wake woken
    return (if granted then some woken.coreId else none, s)

/-- The loop of `SimCond::broadcast`, with the list of the cores that own their mutex now. -/
def Server.wakeEach (s : Server Core) :
    List (CondWaiter Core) → Except SyncFault (List Core × Server Core)
  | [] => .ok ([], s)
  | woken :: rest => do
    let (granted, s) ← s.wake woken
    let (wokenList, s) ← s.wakeEach rest
    return (if granted then woken.coreId :: wokenList else wokenList, s)

/-- `SimCond::broadcast`. -/
def Server.broadcast (cond : ℕ) : Except SyncFault (List Core × Server Core) := do
  let (wokenList, s) ← s.wakeEach (s.conds cond).waiting
  return (wokenList, s.setWaiting cond [])

/-! ### The handlers -/

def Server.mutexLock (core : Core) (mux time : ℕ) :
    Except SyncFault (Server Core × List (Core × Reply)) := do
  require (mux < s.numMutexes) .noMutex
  let (granted, s) ← s.lock ⟨mux⟩ core
  return (s, if granted then [(core, .mutexLock time)] else [])

/-- The message to the core that is handed the mutex. -/
def notify (newOwner : Option Core) (time : ℕ) : List (Core × Reply) :=
  newOwner.toList.map fun core ↦ (core, .mutexLock time)

def Server.mutexUnlock (core : Core) (mux time : ℕ) :
    Except SyncFault (Server Core × List (Core × Reply)) := do
  require (mux < s.numMutexes) .noMutex
  let (newOwner, s) ← s.unlock ⟨mux⟩ core
  return (s, notify newOwner time ++ [(core, .mutexUnlock)])

def Server.condWait (core : Core) (cond mux time : ℕ) :
    Except SyncFault (Server Core × List (Core × Reply)) := do
  require (mux < s.numMutexes) .noMutex
  require (cond < s.numConds) .noCond
  let (newOwner, s) ← s.wait cond core time ⟨mux⟩
  return (s, notify newOwner time)

def Server.condSignal (core : Core) (cond time : ℕ) :
    Except SyncFault (Server Core × List (Core × Reply)) := do
  require (cond < s.numConds) .noCond
  let (woken, s) ← s.signal cond
  return (s, notify woken time ++ [(core, .condSignal)])

def Server.condBroadcast (core : Core) (cond time : ℕ) :
    Except SyncFault (Server Core × List (Core × Reply)) := do
  require (cond < s.numConds) .noCond
  let (wokenList, s) ← s.broadcast cond
  return (s, wokenList.map (fun woken ↦ (woken, .mutexLock time)) ++ [(core, .condBroadcast)])

/-- Handle a message of a core. -/
def Server.handle (core : Core) (time : ℕ) :
    Request → Except SyncFault (Server Core × List (Core × Reply))
  | .mutexLock mux => s.mutexLock core mux time
  | .mutexUnlock mux => s.mutexUnlock core mux time
  | .condWait cond mux => s.condWait core cond mux time
  | .condSignal cond => s.condSignal core cond time
  | .condBroadcast cond => s.condBroadcast core cond time

omit [DecidableEq Core] in
/-- A server with the given numbers of mutexes and condition variables, none in use. -/
def Server.initial (numMutexes numConds : ℕ) : Server Core :=
  ⟨fun _ ↦ ⟨[], none⟩, numMutexes, fun _ ↦ ⟨[]⟩, numConds, ⟨fun _ ↦ .running, fun _ ↦ false⟩⟩

end CarbonSim.Sync
