import CarbonSim.Lib.WaitQueues
import CarbonSim.Sync.SyncServer

/-!
# Futexes

The futex calls of `SyscallServer`. A request is handled to its end before the next one, but the
memory is shared with the cores, which may store to it at any time: `meanwhile` are the stores of the
cores between the first and the second memory access of a handler. `Lot` is the server without its
threads and loops, and `Server.Inv.handle` says that the handlers refine it.
-/

namespace CarbonSim.Futex

open Function List

open Sync (ThreadTable SyncFault Stalls)

/-- An `int` of the application. -/
abbrev Word := BitVec 32

/-- The errors of the handlers. -/
inductive FutexFault
  /-- An assertion of `ThreadManager`. -/
  | sync (fault : SyncFault)
  /-- `Futex syscall: FUTEX_WAKE_OP: Unhandled OP(%i)`. -/
  | unhandledOp (op : ℕ)
  /-- `Futex syscall: FUTEX_WAKE_OP: Unhandled CMP(%i)`. -/
  | unhandledCmp (cmp : ℕ)
  /-- `FUTEX_CLOCK_REALTIME not supported`. -/
  | clockRealtime
  deriving DecidableEq, Repr

/-- The result of the call and the time, as they are sent to a core. -/
structure Reply where
  result : ℤ
  time : ℕ
  deriving DecidableEq, Repr

/-- `EWOULDBLOCK`. -/
def eWouldBlock : ℤ := 11

/-- `ENOSYS`. -/
def eNoSys : ℤ := 38

/-- The futex calls that are handled. -/
inductive Request (Addr : Type)
  | wait (addr : Addr) (val : Word)
  | waitClockReal (addr : Addr) (val : Word)
  | wake (addr : Addr) (val : Word)
  | wakeOp (addr1 : Addr) (val1 val2 : Word) (addr2 : Addr) (val3 : Word)
  | cmpRequeue (addr1 : Addr) (val1 val2 : Word) (addr2 : Addr) (val3 : Word)
  deriving DecidableEq, Repr

/-- The two words of an operation on two words are different. -/
def Request.Distinct {Addr : Type} : Request Addr → Prop
  | .wakeOp addr1 _ _ addr2 _ => addr1 ≠ addr2
  | .cmpRequeue addr1 _ _ addr2 _ => addr1 ≠ addr2
  | _ => True

/-- Waiters are moved to another word than the one for which they wait. -/
def Request.Parted {Addr : Type} : Request Addr → Prop
  | .cmpRequeue addr1 _ _ addr2 _ => addr1 ≠ addr2
  | _ => True

theorem Request.Distinct.parted {Addr : Type} {req : Request Addr} (h : req.Distinct) :
    req.Parted := by
  cases req with
  | cmpRequeue addr1 val1 val2 addr2 val3 => exact h
  | wait | waitClockReal | wake | wakeOp => exact trivial

/-- `m_futexes`, the memory and the thread table. -/
structure Server (Core Addr : Type) where
  futexes : Addr → List Core
  memory : Addr → Word
  threads : ThreadTable Core

/-- The memory after some stores. -/
def storeAll {Addr : Type} [DecidableEq Addr] (memory : Addr → Word) :
    List (Addr × Word) → Addr → Word
  | [] => memory
  | (addr, value) :: rest => storeAll (update memory addr value) rest

/-- The number of rounds of `for (int i = 0; i < val; i++)`. -/
def rounds (val : Word) : ℕ := val.toInt.toNat

/-- The new value of the second word of `FUTEX_WAKE_OP`. -/
def newVal (val3 oldval : Word) : Except FutexFault Word :=
  let oparg := val3.sshiftRight 12 &&& 0xfff
  match (val3.sshiftRight 28 &&& 0xf).toNat with
  | 0 => .ok oparg
  | 1 => .ok (oldval + oparg)
  | 2 => .ok (oldval ||| oparg)
  | 3 => .ok (oldval &&& ~~~oparg)
  | 4 => .ok (oldval ^^^ oparg)
  | op => .error (.unhandledOp op)

/-- The condition of `FUTEX_WAKE_OP` on the old value of the second word. -/
def condition (val3 oldval : Word) : Except FutexFault Bool :=
  let cmparg := val3 &&& 0xfff
  match (val3.sshiftRight 24 &&& 0xf).toNat with
  | 0 => .ok (oldval == cmparg)
  | 1 => .ok (oldval != cmparg)
  | 2 => .ok (oldval.slt cmparg)
  | 3 => .ok (oldval.sle cmparg)
  | 4 => .ok (cmparg.slt oldval)
  | 5 => .ok (cmparg.sle oldval)
  | cmp => .error (.unhandledCmp cmp)

namespace Server

variable {Core Addr : Type} [DecidableEq Core] [DecidableEq Addr]

/-- `SimFutex::enqueueWaiter`. -/
def enqueueWaiter (s : Server Core Addr) (addr : Addr) (core : Core) :
    Except FutexFault (Server Core Addr) := do
  let t ← (s.threads.stallThread core).mapError .sync
  return { s with futexes := update s.futexes addr (s.futexes addr ++ [core]), threads := t }

/-- `SimFutex::dequeueWaiter`. -/
def dequeueWaiter (s : Server Core Addr) (addr : Addr) :
    Except FutexFault (Option Core × Server Core Addr) :=
  match s.futexes addr with
  | [] => .ok (none, s)
  | core :: rest => do
    let t ← (s.threads.resumeThread core).mapError .sync
    return (some core, { s with futexes := update s.futexes addr rest, threads := t })

/-- The loop of `__futexWake`: the replies to the cores that are woken. -/
def wakeLoop (addr : Addr) (time : ℕ) :
    ℕ → Server Core Addr → Except FutexFault (List (Core × Reply) × Server Core Addr)
  | 0, s => .ok ([], s)
  | n + 1, s => do
    let (waiter, s) ← s.dequeueWaiter addr
    match waiter with
    | none => return ([], s)
    | some core => do
      let (replies, s) ← wakeLoop addr time n s
      return ((core, ⟨0, time⟩) :: replies, s)

/-- `__futexWake`. -/
def futexWake (s : Server Core Addr) (addr : Addr) (val : Word) (time : ℕ) :
    Except FutexFault (List (Core × Reply) × Server Core Addr) :=
  wakeLoop addr time (rounds val) s

/-- The loop of `futexCmpRequeue`: the number of cores moved. -/
def requeueLoop (addr1 addr2 : Addr) :
    ℕ → Server Core Addr → Except FutexFault (ℕ × Server Core Addr)
  | 0, s => .ok (0, s)
  | n + 1, s => do
    let (waiter, s) ← s.dequeueWaiter addr1
    match waiter with
    | none => return (0, s)
    | some core => do
      let s ← s.enqueueWaiter addr2 core
      let (moved, s) ← requeueLoop addr1 addr2 n s
      return (moved + 1, s)

omit [DecidableEq Core] in
/-- The stores of the cores. -/
def stores (s : Server Core Addr) (meanwhile : List (Addr × Word)) : Server Core Addr :=
  { s with memory := storeAll s.memory meanwhile }

/-- `marshallFutexCall`: the messages sent, in order, and the server after them. -/
def handle (s : Server Core Addr) (core : Core) (time : ℕ) (meanwhile : List (Addr × Word)) :
    Request Addr → Except FutexFault (List (Core × Reply) × Server Core Addr)
  | .wait addr val => do
    let currVal := s.memory addr
    let s := s.stores meanwhile
    if val ≠ currVal then return ([(core, ⟨-eWouldBlock, time⟩)], s)
    else do
      let s ← s.enqueueWaiter addr core
      return ([], s)
  | .waitClockReal addr val =>
    if val ≠ s.memory addr then .ok ([(core, ⟨-eNoSys, time⟩)], s.stores meanwhile)
    else .error .clockRealtime
  | .wake addr val => do
    let (woken, s) ← (s.stores meanwhile).futexWake addr val time
    return (woken ++ [(core, ⟨woken.length, time⟩)], s)
  | .wakeOp addr1 val1 val2 addr2 val3 => do
    let oldval := s.memory addr2
    let newval ← newVal val3 oldval
    let s := (s.stores meanwhile).stores [(addr2, newval)]
    let (woken1, s) ← s.futexWake addr1 val1 time
    let cond ← condition val3 oldval
    let (woken2, s) ← if cond then s.futexWake addr2 val2 time else .ok ([], s)
    return (woken1 ++ woken2 ++ [(core, ⟨woken1.length + woken2.length, time⟩)], s)
  | .cmpRequeue addr1 val1 val2 addr2 val3 => do
    let currVal := s.memory addr1
    let s := s.stores meanwhile
    if val3 ≠ currVal then return ([(core, ⟨eWouldBlock, time⟩)], s)
    else do
      let (woken, s) ← s.futexWake addr1 val1 time
      let (moved, s) ← requeueLoop addr1 addr2 (rounds val2) s
      return (woken ++ [(core, ⟨woken.length + moved, time⟩)], s)

end Server

/-! ### The queues and the memory -/

open WaitQueues (Apart Asleep push pop move)

/-- The server without its threads. -/
structure Lot (Core Addr : Type) where
  queues : Addr → List Core
  memory : Addr → Word

namespace Lot

variable {Core Addr : Type} [DecidableEq Addr]

def stores (l : Lot Core Addr) (meanwhile : List (Addr × Word)) : Lot Core Addr :=
  { l with memory := storeAll l.memory meanwhile }

/-- The replies to cores that are woken. -/
def wakeUps (woken : List Core) (time : ℕ) : List (Core × Reply) :=
  woken.map fun core ↦ (core, ⟨0, time⟩)

/-- The first cores that wait for the word leave its queue. -/
def wake (l : Lot Core Addr) (addr : Addr) (val : Word) : List Core × Lot Core Addr :=
  ((l.queues addr).take (rounds val), { l with queues := pop l.queues addr (rounds val) })

/-- What a request does to the queues and the memory, and whom it answers. -/
def serve (l : Lot Core Addr) (core : Core) (time : ℕ) (meanwhile : List (Addr × Word)) :
    Request Addr → Except FutexFault (List (Core × Reply) × Lot Core Addr)
  | .wait addr val =>
    let l' := l.stores meanwhile
    if val ≠ l.memory addr then .ok ([(core, ⟨-eWouldBlock, time⟩)], l')
    else .ok ([], { l' with queues := push l'.queues addr core })
  | .waitClockReal addr val =>
    if val ≠ l.memory addr then .ok ([(core, ⟨-eNoSys, time⟩)], l.stores meanwhile)
    else .error .clockRealtime
  | .wake addr val =>
    let (woken, l) := (l.stores meanwhile).wake addr val
    .ok (wakeUps woken time ++ [(core, ⟨woken.length, time⟩)], l)
  | .wakeOp addr1 val1 val2 addr2 val3 => do
    let newval ← newVal val3 (l.memory addr2)
    let cond ← condition val3 (l.memory addr2)
    let (woken1, l1) := ((l.stores meanwhile).stores [(addr2, newval)]).wake addr1 val1
    let (woken2, l2) := if cond then l1.wake addr2 val2 else ([], l1)
    return (wakeUps (woken1 ++ woken2) time ++ [(core, ⟨woken1.length + woken2.length, time⟩)], l2)
  | .cmpRequeue addr1 val1 val2 addr2 val3 =>
    let l' := l.stores meanwhile
    if val3 ≠ l.memory addr1 then .ok ([(core, ⟨eWouldBlock, time⟩)], l')
    else
      let (woken, l1) := l'.wake addr1 val1
      let moved := (l1.queues addr1).take (rounds val2)
      .ok (wakeUps woken time ++ [(core, ⟨woken.length + moved.length, time⟩)],
        { l1 with queues := move l1.queues addr1 addr2 (rounds val2) })

end Lot

namespace Server

variable {Core Addr : Type} [DecidableEq Core] [DecidableEq Addr]

/-- The queues and the memory of the server. -/
def lot (s : Server Core Addr) : Lot Core Addr := ⟨s.futexes, s.memory⟩

omit [DecidableEq Core] [DecidableEq Addr] in
@[simp] theorem lot_memory (s : Server Core Addr) : s.lot.memory = s.memory := rfl

/-- The server with other queues and threads. -/
def withQueues (s : Server Core Addr) (queues : Addr → List Core) (t : ThreadTable Core) :
    Server Core Addr :=
  ⟨queues, s.memory, t⟩

/-- A thread is stalled exactly while its core is in a queue, and there it is once. -/
structure Inv (s : Server Core Addr) : Prop where
  apart : Apart s.futexes
  asleep : ∀ {c}, Asleep s.futexes c → s.threads.status c = .stalled ∧ s.threads.lastStalled c = true
  awake : ∀ {c}, ¬ Asleep s.futexes c → s.threads.status c = .running

variable {s : Server Core Addr} {addr addr1 addr2 : Addr} {core : Core} {time : ℕ}

omit [DecidableEq Core] in
theorem Inv.stores (h : s.Inv) (meanwhile : List (Addr × Word)) : (s.stores meanwhile).Inv :=
  ⟨h.apart, h.asleep, h.awake⟩

omit [DecidableEq Core] [DecidableEq Addr] in
theorem Inv.stalls (h : s.Inv) : Stalls s.threads (Asleep s.futexes) :=
  fun _ ↦ ⟨h.asleep, h.awake⟩

omit [DecidableEq Core] [DecidableEq Addr] in
theorem Inv.of_stalls (hapart : Apart s.futexes) (h : Stalls s.threads (Asleep s.futexes)) : s.Inv :=
  ⟨hapart, (h _).1, (h _).2⟩

theorem Inv.enqueueWaiter (h : s.Inv) (addr : Addr) (hcore : ¬ Asleep s.futexes core) :
    ∃ t, s.enqueueWaiter addr core = .ok (s.withQueues (push s.futexes addr core) t) ∧
      (s.withQueues (push s.futexes addr core) t).Inv := by
  obtain ⟨t, hstall, ht⟩ := h.stalls.stall hcore
  refine ⟨t, ?_, .of_stalls (h.apart.push hcore) (ht.congr fun c ↦ ?_)⟩
  · rw [Server.enqueueWaiter, hstall]
    rfl
  · rw [or_comm]
    exact WaitQueues.asleep_push

theorem Inv.dequeueWaiter (h : s.Inv) {rest : List Core} (hq : s.futexes addr = core :: rest) :
    ∃ t, s.dequeueWaiter addr = .ok (some core, s.withQueues (pop s.futexes addr 1) t) ∧
      (s.withQueues (pop s.futexes addr 1) t).Inv := by
  obtain ⟨t, hresume, ht⟩ := h.stalls.resume ⟨addr, hq ▸ mem_cons_self⟩
  refine ⟨t, ?_, .of_stalls h.apart.pop (ht.congr fun c ↦ ?_)⟩
  · simp only [Server.dequeueWaiter, hq, hresume]
    rw [pop, hq]
    rfl
  · show Asleep (pop s.futexes addr 1) c ↔ _
    rw [h.apart.asleep_pop, hq]
    simp

/-- The loop of `__futexWake` wakes the first cores of the queue. -/
theorem Inv.wakeLoop (n : ℕ) (h : s.Inv) :
    ∃ t, wakeLoop addr time n s =
        .ok (Lot.wakeUps ((s.futexes addr).take n) time, s.withQueues (pop s.futexes addr n) t) ∧
      (s.withQueues (pop s.futexes addr n) t).Inv := by
  induction n generalizing s with
  | zero =>
    refine ⟨s.threads, ?_, ?_⟩
    · rw [WaitQueues.pop_zero, take_zero]
      rfl
    · rw [WaitQueues.pop_zero]
      exact h
  | succ n ih =>
    cases hq : s.futexes addr with
    | nil =>
      refine ⟨s.threads, ?_, ?_⟩
      · rw [WaitQueues.pop_of_eq_nil hq, take_nil, Server.wakeLoop, Server.dequeueWaiter]
        simp only [hq]
        rfl
      · rw [WaitQueues.pop_of_eq_nil hq]
        exact h
    | cons core rest =>
      obtain ⟨t, hdequeue, hinv⟩ := h.dequeueWaiter hq
      obtain ⟨t', hloop, hinv'⟩ := ih hinv
      have hrest : (s.withQueues (pop s.futexes addr 1) t).futexes addr = rest := by
        show pop s.futexes addr 1 addr = rest
        rw [WaitQueues.pop_self, hq]
        rfl
      have hpop : pop (s.withQueues (pop s.futexes addr 1) t).futexes addr n =
          pop s.futexes addr (n + 1) := WaitQueues.pop_pop _ _ _
      rw [hpop] at hloop hinv'
      refine ⟨t', ?_, hinv'⟩
      rw [Server.wakeLoop, hdequeue, take_succ_cons]
      show (Server.wakeLoop addr time n _ >>= _) = _
      rw [hloop, hrest]
      rfl

/-- The loop of `futexCmpRequeue` moves the first cores of the queue. -/
theorem Inv.requeueLoop (n : ℕ) (h : s.Inv) (hne : addr1 ≠ addr2) :
    ∃ t, requeueLoop addr1 addr2 n s =
        .ok (((s.futexes addr1).take n).length, s.withQueues (move s.futexes addr1 addr2 n) t) ∧
      (s.withQueues (move s.futexes addr1 addr2 n) t).Inv := by
  induction n generalizing s with
  | zero =>
    refine ⟨s.threads, ?_, ?_⟩
    · rw [WaitQueues.move_zero, take_zero]
      rfl
    · rw [WaitQueues.move_zero]
      exact h
  | succ n ih =>
    cases hq : s.futexes addr1 with
    | nil =>
      refine ⟨s.threads, ?_, ?_⟩
      · rw [WaitQueues.move_of_eq_nil hq, take_nil, Server.requeueLoop, Server.dequeueWaiter]
        simp only [hq]
        rfl
      · rw [WaitQueues.move_of_eq_nil hq]
        exact h
    | cons core rest =>
      obtain ⟨t, hdequeue, hinv⟩ := h.dequeueWaiter hq
      obtain ⟨t', henqueue, hinv'⟩ := hinv.enqueueWaiter addr2 (h.apart.not_asleep_pop hq)
      obtain ⟨t'', hloop, hinv''⟩ := ih hinv'
      have hmove := WaitQueues.move_push_pop (n := n) hne hq
      have hlength : ((push (pop s.futexes addr1 1) addr2 core addr1).take n).length + 1 =
          ((core :: rest).take (n + 1)).length := by
        rw [WaitQueues.push_of_ne hne, WaitQueues.pop_self, hq, take_succ_cons, length_cons]
        rfl
      refine ⟨t'', ?_, hmove ▸ hinv''⟩
      rw [Server.requeueLoop, hdequeue]
      show (Server.enqueueWaiter _ addr2 core >>= _) = _
      rw [henqueue]
      show (Server.requeueLoop addr1 addr2 n _ >>= _) = _
      rw [hloop, ← hmove, ← hlength]
      rfl

/-- The server with the queues and the memory of a lot. -/
def ofLot (l : Lot Core Addr) (t : ThreadTable Core) : Server Core Addr := ⟨l.queues, l.memory, t⟩

theorem Inv.futexWake (h : s.Inv) (addr : Addr) (val : Word) (time : ℕ) :
    ∃ t, s.futexWake addr val time =
        .ok (Lot.wakeUps (s.lot.wake addr val).1 time, ofLot (s.lot.wake addr val).2 t) ∧
      (ofLot (s.lot.wake addr val).2 t).Inv :=
  h.wakeLoop (rounds val)

/-- What the handler of a request does, against what the request should do. -/
def Refines (result : Except FutexFault (List (Core × Reply) × Lot Core Addr))
    (handled : Except FutexFault (List (Core × Reply) × Server Core Addr)) : Prop :=
  match result with
  | .ok r => ∃ t, handled = .ok (r.1, ofLot r.2 t) ∧ (ofLot r.2 t).Inv
  | .error e => handled = .error e

omit [DecidableEq Core] in
theorem length_wakeUps (woken : List Core) (time : ℕ) :
    (Lot.wakeUps woken time).length = woken.length :=
  length_map _

omit [DecidableEq Core] in
theorem wakeUps_append (woken woken' : List Core) (time : ℕ) :
    Lot.wakeUps (woken ++ woken') time = Lot.wakeUps woken time ++ Lot.wakeUps woken' time :=
  map_append

/-- The handlers do what the requests of cores that are awake should do. -/
theorem Inv.handle (h : s.Inv) (meanwhile : List (Addr × Word)) (time : ℕ)
    (hcore : ¬ Asleep s.futexes core) {req : Request Addr} (hreq : req.Parted) :
    Refines (s.lot.serve core time meanwhile req) (s.handle core time meanwhile req) := by
  have hs := h.stores meanwhile
  cases req with
  | wait addr val =>
    by_cases hval : val ≠ s.memory addr
    · have hlot : val ≠ s.lot.memory addr := hval
      simp only [Lot.serve, Server.handle, if_pos hval, if_pos hlot]
      exact ⟨s.threads, rfl, hs⟩
    · have hlot : ¬ val ≠ s.lot.memory addr := hval
      obtain ⟨t, henqueue, hinv⟩ := hs.enqueueWaiter addr hcore
      simp only [Lot.serve, Server.handle, if_neg hval, if_neg hlot, henqueue]
      exact ⟨t, rfl, hinv⟩
  | waitClockReal addr val =>
    by_cases hval : val ≠ s.memory addr
    · have hlot : val ≠ s.lot.memory addr := hval
      simp only [Lot.serve, Server.handle, if_pos hval, if_pos hlot]
      exact ⟨s.threads, rfl, hs⟩
    · have hlot : ¬ val ≠ s.lot.memory addr := hval
      simp only [Lot.serve, Server.handle, if_neg hval, if_neg hlot]
      rfl
  | wake addr val =>
    obtain ⟨t, hwake, hinv⟩ := hs.futexWake addr val time
    refine ⟨t, ?_, hinv⟩
    simp only [Server.handle, hwake]
    show Except.ok (_, _) = _
    rw [length_wakeUps]
    rfl
  | wakeOp addr1 val1 val2 addr2 val3 =>
    simp only [Lot.serve, Server.handle, lot_memory]
    cases newVal val3 (s.memory addr2) with
    | error e => rfl
    | ok newval =>
      obtain ⟨t, hwake, hinv⟩ := (hs.stores [(addr2, newval)]).futexWake addr1 val1 time
      show Refines _ (Server.futexWake _ addr1 val1 time >>= _)
      rw [hwake]
      cases condition val3 (s.memory addr2) with
      | error e => rfl
      | ok cond =>
        cases cond with
        | false =>
          refine ⟨t, ?_, hinv⟩
          show Except.ok (_, _) = _
          simp only [length_wakeUps, Bool.false_eq_true, if_false, append_nil]
          rfl
        | true =>
          obtain ⟨t', hwake', hinv'⟩ := hinv.futexWake addr2 val2 time
          refine ⟨t', ?_, hinv'⟩
          show (Server.futexWake _ addr2 val2 time >>= _) = _
          rw [hwake']
          show Except.ok (_, _) = _
          simp only [length_wakeUps, if_true, wakeUps_append]
          rfl
  | cmpRequeue addr1 val1 val2 addr2 val3 =>
    by_cases hval : val3 ≠ s.memory addr1
    · have hlot : val3 ≠ s.lot.memory addr1 := hval
      simp only [Lot.serve, Server.handle, if_pos hval, if_pos hlot]
      exact ⟨s.threads, rfl, hs⟩
    · have hlot : ¬ val3 ≠ s.lot.memory addr1 := hval
      obtain ⟨t, hwake, hinv⟩ := hs.futexWake addr1 val1 time
      obtain ⟨t', hloop, hinv'⟩ := hinv.requeueLoop (rounds val2) hreq
      simp only [Lot.serve, Server.handle, if_neg hval, if_neg hlot]
      refine ⟨t', ?_, hinv'⟩
      rw [hwake]
      show (Server.requeueLoop addr1 addr2 (rounds val2) _ >>= _) = _
      rw [hloop]
      rw [length_wakeUps]
      rfl

end Server

end CarbonSim.Futex
