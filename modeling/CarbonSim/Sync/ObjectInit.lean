import CarbonSim.Sync.SyncServer
import Mathlib.Algebra.GroupWithZero.Nat

/-!
# Creating synchronisation objects

The server keeps its mutexes, condition variables and barriers in vectors. When a vector has no room
left its elements are copied to a larger one and the old elements are destroyed, and the destructors
of `SimMutex`, `SimCond` and `SimBarrier` assert that no core is waiting. `StdVector.pushBack` models
this for all three. The new capacity is not fixed by the language: it is a parameter.
-/

namespace CarbonSim.Sync

open Function

/-- The assertions of the server with its barriers. -/
inductive ObjectFault
  | sync (fault : SyncFault)
  /-- `~SimMutex`, `~SimCond`, `~SimBarrier`: `m_waiting.empty()`. -/
  | destroyedWaiting
  /-- `SyncServer::barrierWait`: `barrier < m_barriers.size()`. -/
  | noBarrier
  /-- `SimBarrier::wait`: `m_waiting.size() <= m_count`. -/
  | barrierCount
  deriving DecidableEq, Repr

/-! ### Vectors -/

/-- A `std::vector`. -/
structure StdVector (α : Type) where
  get : ℕ → α
  size : ℕ
  capacity : ℕ

namespace StdVector

variable {α : Type} (grow : ℕ → ℕ) (empty : α → Bool) (v : StdVector α)

/-- `push_back`. Without room the old elements are destroyed after they have been copied; `empty` is
what their destructor asserts. -/
def pushBack (x : α) : Except ObjectFault (StdVector α) :=
  if v.size < v.capacity then .ok ⟨update v.get v.size x, v.size + 1, v.capacity⟩
  else do
    require (∀ i < v.size, empty (v.get i) = true) .destroyedWaiting
    return ⟨update v.get v.size x, v.size + 1, grow v.capacity⟩

/-- There is room for one more element, or no element objects to being destroyed. -/
def CanGrow : Prop := v.size < v.capacity ∨ ∀ i < v.size, empty (v.get i) = true

variable {grow empty v}

theorem pushBack_outcome (x : α) :
    Outcome (v.pushBack grow empty x)
      (fun v' ↦ v.CanGrow empty ∧ v'.get = update v.get v.size x ∧ v'.size = v.size + 1)
      (fun e ↦ e = .destroyedWaiting ∧ ¬ v.CanGrow empty) := by
  unfold pushBack
  by_cases hroom : v.size < v.capacity
  · rw [if_pos hroom]
    exact ⟨.inl hroom, rfl, rfl⟩
  · rw [if_neg hroom]
    refine .require_bind (fun hempty ↦ ⟨.inr hempty, rfl, rfl⟩) fun hlive ↦ ⟨rfl, ?_⟩
    rintro (hroom' | hempty)
    · exact hroom hroom'
    · exact hlive hempty

end StdVector

/-! ### The server -/

structure SimBarrier (Core : Type) where
  waiting : List Core
  count : ℕ
  maxTime : ℕ
  deriving DecidableEq, Repr

/-- The server with the capacities of its vectors, and with its barriers. -/
structure Objects (Core : Type) where
  server : Server Core
  mutexCapacity : ℕ
  condCapacity : ℕ
  barriers : StdVector (SimBarrier Core)

/-- The kinds of objects. -/
inductive Kind
  | mutex
  | cond
  | barrier (count : ℕ)
  deriving DecidableEq, Repr

/-- The messages to the server. -/
inductive Message
  | request (req : Request)
  | barrierWait (barrier : ℕ)
  | create (kind : Kind)
  deriving DecidableEq, Repr

/-- The messages that the server sends. -/
inductive Response
  | reply (r : Reply)
  | barrierWait (time : ℕ)
  /-- The index of a new object. -/
  | created (index : ℕ)
  deriving DecidableEq, Repr

variable {Core : Type}

namespace Objects

variable (s : Objects Core)

def mutexes : StdVector (SimMutex Core) :=
  ⟨s.server.mutexes, s.server.numMutexes, s.mutexCapacity⟩

def conds : StdVector (SimCond Core) :=
  ⟨s.server.conds, s.server.numConds, s.condCapacity⟩

variable (grow : ℕ → ℕ)

/-- The message with the index of the last element, which is a `UInt32`. -/
def created (core : Core) (size : ℕ) : List (Core × Response) :=
  [(core, .created ((size + 2 ^ 32 - 1) % 2 ^ 32))]

def mutexInit (core : Core) :
    Except ObjectFault (Objects Core × List (Core × Response)) := do
  let v ← s.mutexes.pushBack grow (fun m ↦ m.waiting.isEmpty) ⟨[], none⟩
  let server := { s.server with mutexes := v.get, numMutexes := v.size }
  return ({ s with server := server, mutexCapacity := v.capacity }, created core v.size)

def condInit (core : Core) :
    Except ObjectFault (Objects Core × List (Core × Response)) := do
  let v ← s.conds.pushBack grow (fun c ↦ c.waiting.isEmpty) ⟨[]⟩
  let server := { s.server with conds := v.get, numConds := v.size }
  return ({ s with server := server, condCapacity := v.capacity }, created core v.size)

def barrierInit (core : Core) (count : ℕ) :
    Except ObjectFault (Objects Core × List (Core × Response)) := do
  let v ← s.barriers.pushBack grow (fun b ↦ b.waiting.isEmpty) ⟨[], count, 0⟩
  return ({ s with barriers := v }, created core v.size)

/-- Handle an init message. -/
def init (core : Core) :
    Kind → Except ObjectFault (Objects Core × List (Core × Response))
  | .mutex => s.mutexInit grow core
  | .cond => s.condInit grow core
  | .barrier count => s.barrierInit grow core count

/-- The server when it starts. -/
def start : Objects Core :=
  ⟨.initial 0 0, 0, 0, ⟨fun _ ↦ ⟨[], 0, 0⟩, 0, 0⟩⟩

/-! ### What a new object does to the others -/

/-- The number of objects of a kind. -/
def size : Kind → ℕ
  | .mutex => s.mutexes.size
  | .cond => s.conds.size
  | .barrier _ => s.barriers.size

/-- There is room for one more object of the kind, or no core is waiting on any object of it. -/
def CanGrow : Kind → Prop
  | .mutex => s.mutexes.CanGrow fun m ↦ m.waiting.isEmpty
  | .cond => s.conds.CanGrow fun c ↦ c.waiting.isEmpty
  | .barrier _ => s.barriers.CanGrow fun b ↦ b.waiting.isEmpty

/-- Every object that was there has its owner and its queue, and the threads are as they were. -/
structure Undisturbed (s s' : Objects Core) : Prop where
  mutexes : ∀ i < s.mutexes.size, s'.mutexes.get i = s.mutexes.get i
  conds : ∀ i < s.conds.size, s'.conds.get i = s.conds.get i
  barriers : ∀ i < s.barriers.size, s'.barriers.get i = s.barriers.get i
  threads : s'.server.threads = s.server.threads

/-- The init message is answered with the index of a new object, and nothing else has changed. -/
def Creates (grow : ℕ → ℕ) (s : Objects Core) (core : Core) (kind : Kind) : Prop :=
  ∃ s' index, s.init grow core kind = .ok (s', [(core, .created index)]) ∧
    s.size kind ≤ index ∧ index < s'.size kind ∧ Undisturbed s s'

theorem get_of_lt {α : Type} {v v' : StdVector α} {x : α}
    (h : v'.get = update v.get v.size x) {i : ℕ} (hi : i < v.size) :
    v'.get i = v.get i := by
  rw [h, update_of_ne (Nat.ne_of_lt hi)]

/-- An init message that is handled is answered with the old size modulo the width of the index. -/
theorem init_outcome (grow : ℕ → ℕ) (s : Objects Core) (core : Core) (kind : Kind) :
    Outcome (s.init grow core kind)
      (fun r ↦ s.CanGrow kind ∧ r.2 = [(core, .created (s.size kind % 2 ^ 32))] ∧
        r.1.size kind = s.size kind + 1 ∧ Undisturbed s r.1)
      (fun e ↦ e = .destroyedWaiting ∧ ¬ s.CanGrow kind) := by
  have hcreated {n size : ℕ} (hsize : size = n + 1) :
      created core size = [(core, .created (n % 2 ^ 32))] := by
    have hindex : (n + 1 + 2 ^ 32 - 1) % 2 ^ 32 = n % 2 ^ 32 := by omega
    rw [created, hsize, hindex]
  cases kind with
  | mutex =>
    refine .bind (StdVector.pushBack_outcome _) fun v hv ↦ ⟨hv.1, hcreated hv.2.2, hv.2.2, ?_⟩
    exact ⟨fun i hi ↦ get_of_lt hv.2.1 hi, fun _ _ ↦ rfl, fun _ _ ↦ rfl, rfl⟩
  | cond =>
    refine .bind (StdVector.pushBack_outcome _) fun v hv ↦ ⟨hv.1, hcreated hv.2.2, hv.2.2, ?_⟩
    exact ⟨fun _ _ ↦ rfl, fun i hi ↦ get_of_lt hv.2.1 hi, fun _ _ ↦ rfl, rfl⟩
  | barrier count =>
    refine .bind (StdVector.pushBack_outcome _) fun v hv ↦ ⟨hv.1, hcreated hv.2.2, hv.2.2, ?_⟩
    exact ⟨fun _ _ ↦ rfl, fun _ _ ↦ rfl, fun i hi ↦ get_of_lt hv.2.1 hi, rfl⟩

/-- In every state an init message creates an object and disturbs no other exactly if the vector of
its kind need not grow or no core waits on an object of the kind, and the index fits its type. -/
theorem creates_iff_canGrow (grow : ℕ → ℕ) (s : Objects Core) (core : Core) (kind : Kind) :
    s.Creates grow core kind ↔ s.CanGrow kind ∧ s.size kind < 2 ^ 32 := by
  have houtcome := init_outcome grow s core kind
  constructor
  · rintro ⟨s', index, hinit, hfresh, -, -⟩
    obtain ⟨hgrow, hreply, -, -⟩ := houtcome.of_eq_ok hinit
    obtain rfl : index = s.size kind % 2 ^ 32 := by simpa using hreply
    exact ⟨hgrow, Nat.lt_of_le_of_lt hfresh (Nat.mod_lt _ (Nat.two_pow_pos 32))⟩
  · rintro ⟨hgrow, hsize⟩
    cases hinit : s.init grow core kind with
    | error e => exact absurd hgrow (houtcome.of_eq_error hinit).2
    | ok r =>
      obtain ⟨-, hreply, hnew, hsame⟩ := houtcome.of_eq_ok hinit
      rw [Nat.mod_eq_of_lt hsize] at hreply
      refine ⟨r.1, s.size kind, ?_, Nat.le_refl _, by omega, hsame⟩
      rw [hinit, ← hreply]

/-! ### Messages -/

variable [DecidableEq Core]

/-- Resume each of the threads. -/
def resumeEach (t : ThreadTable Core) : List Core → Except SyncFault (ThreadTable Core)
  | [] => .ok t
  | core :: rest => do
    let t ← t.resumeThread core
    resumeEach t rest

/-- `SimBarrier::wait`: the cores woken, the barrier and the threads. -/
def waitAt (b : SimBarrier Core) (t : ThreadTable Core) (core : Core) (time : ℕ) :
    Except ObjectFault (List Core × SimBarrier Core × ThreadTable Core) := do
  let waiting := b.waiting ++ [core]
  let t ← (t.stallThread core).mapError .sync
  require (waiting.length ≤ b.count) .barrierCount
  let maxTime := if waiting.length = 1 then time else max b.maxTime time
  if waiting.length = b.count then
    let t ← (resumeEach t waiting).mapError .sync
    return (waiting, ⟨[], b.count, maxTime⟩, t)
  else return ([], ⟨waiting, b.count, maxTime⟩, t)

def barrierWait (s : Objects Core) (core : Core) (time barrier : ℕ) :
    Except ObjectFault (Objects Core × List (Core × Response)) := do
  require (barrier < s.barriers.size) .noBarrier
  let (woken, b, t) ← waitAt (s.barriers.get barrier) s.server.threads core time
  let barriers := { s.barriers with get := update s.barriers.get barrier b }
  let s := { s with barriers := barriers, server := { s.server with threads := t } }
  return (s, woken.map fun c ↦ (c, .barrierWait b.maxTime))

/-- Handle a message of a core. -/
def handle (s : Objects Core) (core : Core) (time : ℕ) :
    Message → Except ObjectFault (Objects Core × List (Core × Response))
  | .request req => do
    let (server, replies) ← (s.server.handle core time req).mapError .sync
    return ({ s with server := server }, replies.map fun r ↦ (r.1, .reply r.2))
  | .barrierWait barrier => s.barrierWait core time barrier
  | .create kind => s.init grow core kind

/-- The states that the server can be in. -/
inductive Reachable : Objects Core → Prop
  | start : Reachable start
  | step {s s' : Objects Core} {core : Core} {time : ℕ} {msg : Message}
      {replies : List (Core × Response)} (h : Reachable s)
      (hstep : s.handle grow core time msg = .ok (s', replies)) : Reachable s'

variable {grow}

/-! ### States in which a vector cannot grow -/

/-- Messages one after the other. -/
def exec (grow : ℕ → ℕ) (s : Objects Core) :
    List (Core × ℕ × Message) → Except ObjectFault (Objects Core)
  | [] => .ok s
  | (core, time, msg) :: rest => do
    let (s, _) ← s.handle grow core time msg
    exec grow s rest

theorem Reachable.exec {s s' : Objects Core} (h : Reachable grow s)
    (msgs : List (Core × ℕ × Message)) (hexec : s.exec grow msgs = .ok s') : Reachable grow s' := by
  induction msgs generalizing s with
  | nil =>
    obtain rfl : s = s' := Except.ok.inj hexec
    exact h
  | cons msg rest ih =>
    obtain ⟨core, time, msg⟩ := msg
    obtain ⟨r, hhandle, hexec⟩ := Outcome.bind_eq_ok hexec
    exact ih (h.step hhandle) hexec

/-- A growth that doubles the capacity. -/
def doubled (capacity : ℕ) : ℕ := max 1 (2 * capacity)

/-- Messages after which core 0 waits on the only object of the kind. -/
def waitOnFirst {N : ℕ} [NeZero N] : Kind → List (Fin N × ℕ × Message)
  | .mutex => [(0, 0, .create .mutex), (1, 1, .request (.mutexLock 0)),
      (0, 2, .request (.mutexLock 0))]
  | .cond => [(0, 0, .create .mutex), (0, 1, .create .cond), (0, 2, .request (.mutexLock 0)),
      (0, 3, .request (.condWait 0 0))]
  | .barrier count => [(0, 0, .create (.barrier (count + 2))), (0, 1, .barrierWait 0)]

/-- For each kind there is a reachable state in which the next init message of the kind stops the
simulation: one core waits on the only object, and the vector has no room. -/
theorem init_destroys_waiting :
    (∃ s : Objects (Fin 2), Reachable doubled s ∧ s.init doubled 1 .mutex = .error .destroyedWaiting) ∧
    (∃ s : Objects (Fin 2), Reachable doubled s ∧ s.init doubled 1 .cond = .error .destroyedWaiting) ∧
    ∃ s : Objects (Fin 2), Reachable doubled s ∧
      s.init doubled 1 (.barrier 2) = .error .destroyedWaiting :=
  ⟨⟨_, Reachable.start.exec (waitOnFirst .mutex) rfl, rfl⟩,
    ⟨_, Reachable.start.exec (waitOnFirst .cond) rfl, rfl⟩,
    ⟨_, Reachable.start.exec (waitOnFirst (.barrier 2)) rfl, rfl⟩⟩

end Objects

end CarbonSim.Sync
