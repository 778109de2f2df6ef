import CarbonSim.Transport.PacketFormat
import CarbonSim.Transport.RingBarrier

/-!
# The socket transport

Every process has a list of buffers for each tile and one for its global node. A message to a tile of
the same process is put into its list; one to another process is written to a socket, and the update
thread of that process reads it piece by piece and puts it into the list. A list is guarded by a lock,
and a semaphore counts its buffers: it is signalled after a buffer was added, and waited for before one
is taken.
-/

namespace CarbonSim.Transport

open Function

/-- The processes, the tiles and the process of each tile. A tile id is a signed word. -/
structure SockConfig where
  ring : Ring
  totalTiles : ℕ
  processNumForTile : ℕ → ℕ
  processNumForTile_lt : ∀ tile < totalTiles, processNumForTile tile < ring.procs
  totalTiles_lt : totalTiles < 2 ^ 31

def globalTag : ℤ := -1

def barrierTag : ℤ := -2

def terminateTag : ℤ := -3

/-- The list of a tag in `insertInBufferList`: the last one is that of the global node. -/
def SockConfig.listIndex (cfg : SockConfig) (tag : ℤ) : Option ℕ :=
  if tag = globalTag then some cfg.totalTiles
  else if 0 ≤ tag ∧ tag < cfg.totalTiles + 1 then some tag.toNat else none

/-- A buffer, and the process whose socket it came from; the code does not keep the latter. -/
structure Entry where
  src : Option ℕ
  buffer : List UInt8
  deriving DecidableEq

/-- The bytes written to the sockets and not yet readable, the readable ones, the socket and the call
where each update thread is, the lists and semaphores, the threads that have added a buffer and not yet
signalled and those that have waited and not yet taken one, and the buffers that `recv` has returned.
The packets sent, over sockets and inside a process, and the number of those that the update threads
have read are kept beside. -/
structure SockState where
  flight : ℕ → ℕ → List UInt8
  readable : ℕ → ℕ → List UInt8
  socket : ℕ → ℕ
  reader : ℕ → Framing.Reader UInt8 Stage
  lists : ℕ → ℕ → List Entry
  unsignalled : ℕ → ℕ → ℕ
  sem : ℕ → ℕ → ℕ
  woken : ℕ → ℕ → ℕ
  barrierSem : ℕ → ℕ
  received : ℕ → ℕ → List Entry
  sentRemote : ℕ → ℕ → List Packet
  sentLocal : ℕ → List Packet
  taken : ℕ → ℕ → ℕ

inductive SockFault
  /-- The event cannot happen in this state. -/
  | disabled
  /-- A tile or process that does not exist. -/
  | outOfRange
  /-- The length of the packet with its header is not a positive signed word. -/
  | packetTooLong
  /-- "Unexpected tag value". -/
  | unexpectedTag
  /-- "Barrier update from unexpected process". -/
  | unexpectedProcess
  /-- "Terminate received from unexpected process". -/
  | unexpectedTerminate
  /-- "Buffer list empty after waiting on semaphore." -/
  | listEmpty
  deriving DecidableEq, Repr

/-- The value of a function of two arguments at one pair. -/
def set₂ {α : Type} (f : ℕ → ℕ → α) (i j : ℕ) (a : α) : ℕ → ℕ → α :=
  update f i (update (f i) j a)

theorem set₂_self {α : Type} (f : ℕ → ℕ → α) (i j : ℕ) (a : α) : set₂ f i j a i j = a := by
  unfold set₂
  rw [update_self, update_self]

theorem set₂_of_ne {α : Type} (f : ℕ → ℕ → α) {i j i' j' : ℕ} (a : α) (h : ¬ (i' = i ∧ j' = j)) :
    set₂ f i j a i' j' = f i' j' := by
  unfold set₂
  by_cases hi : i' = i
  · subst hi
    rw [update_self, update_of_ne fun hj ↦ h ⟨rfl, hj⟩]
  · rw [update_of_ne hi]

namespace SockState

variable (cfg : SockConfig) (s : SockState)

def start : SockState where
  flight _ _ := []
  readable _ _ := []
  socket _ := 0
  reader _ := packetFormat.idle
  lists _ _ := []
  unsignalled _ _ := 0
  sem _ _ := 0
  woken _ _ := 0
  barrierSem _ := 0
  received _ _ := []
  sentRemote _ _ := []
  sentLocal _ := []
  taken _ _ := 0

/-! ### Sending -/

/-- `insertInBufferList` up to the signal. -/
def insertInBufferList (q : ℕ) (tag : ℤ) (entry : Entry) : Except SockFault SockState := do
  let t ← fetch (cfg.listIndex tag) .unexpectedTag
  return { s with
    lists := set₂ s.lists q t (s.lists q t ++ [entry])
    unsignalled := set₂ s.unsignalled q t (s.unsignalled q t + 1) }

/-- `Socket::send`: the packet is added to the stream. -/
def write (src dst : ℕ) (pkt : Packet) : SockState :=
  { s with
    flight := set₂ s.flight src dst (s.flight src dst ++ pkt.encode)
    sentRemote := set₂ s.sentRemote src dst (s.sentRemote src dst ++ [pkt]) }

def logLocal (src : ℕ) (pkt : Packet) : SockState :=
  { s with sentLocal := update s.sentLocal src (s.sentLocal src ++ [pkt]) }

/-- `SockNode::send` to a process. The length of the packet is a signed word. -/
def sendPacket (src dst : ℕ) (pkt : Packet) : Except SockFault SockState :=
  if dst = src then
    (s.logLocal src pkt).insertInBufferList cfg src pkt.tag ⟨none, pkt.data⟩
  else do
    require (8 + pkt.data.length < 2 ^ 31) .packetTooLong
    return s.write src dst pkt

/-- `SockNode::send` to a tile. -/
def send (src tile : ℕ) (data : List UInt8) : Except SockFault SockState := do
  require (src < cfg.ring.procs ∧ tile < cfg.totalTiles) .outOfRange
  s.sendPacket cfg src (cfg.processNumForTile tile) ⟨tile, data⟩

/-- `SockNode::globalSend`. -/
def globalSend (src dst : ℕ) (data : List UInt8) : Except SockFault SockState := do
  require (src < cfg.ring.procs ∧ dst < cfg.ring.procs) .outOfRange
  s.sendPacket cfg src dst ⟨globalTag, data⟩

/-- The sends of `barrier`. -/
def barrierSend (src : ℕ) : Except SockFault SockState := do
  require (src < cfg.ring.procs) .outOfRange
  return s.write src (cfg.ring.next src) ⟨barrierTag, [0, 0, 0, 0]⟩

/-! ### The update thread -/

/-- Bytes become readable. -/
def arrive (src dst n : ℕ) : Except SockFault SockState := do
  require (0 < n ∧ n ≤ (s.flight src dst).length) .disabled
  return { s with
    flight := set₂ s.flight src dst ((s.flight src dst).drop n)
    readable := set₂ s.readable src dst (s.readable src dst ++ (s.flight src dst).take n) }

/-- The end of the loop of `updateBufferLists` for a packet that has been read. -/
def dispatch (q : ℕ) (pkt : Packet) : Except SockFault SockState :=
  if pkt.tag = terminateTag then .error .unexpectedTerminate
  else if pkt.tag = barrierTag then do
    require (s.socket q = cfg.ring.prev q) .unexpectedProcess
    return { s with barrierSem := update s.barrierSem q (s.barrierSem q + 1) }
  else s.insertInBufferList cfg q pkt.tag ⟨some (s.socket q), pkt.data⟩

/-- The bytes that the update thread of a process reads next. -/
def incoming (q : ℕ) : List UInt8 := s.readable (s.socket q) q

/-- The state after the update thread has taken a piece. -/
def take (q n : ℕ) : SockState :=
  { s with
    readable := set₂ s.readable (s.socket q) q ((s.incoming q).drop n)
    reader := update s.reader q (packetFormat.feed (s.reader q) ((s.incoming q).take n)).1 }

/-- The state after the update thread has taken the last piece of a packet. -/
def takeLast (q n : ℕ) : SockState :=
  { s.take q n with taken := set₂ s.taken (s.socket q) q (s.taken (s.socket q) q + 1) }

/-- A call of `::recv` in `Socket::recv` that returns `n` bytes. -/
def recvBytes (q n : ℕ) : Except SockFault SockState := do
  require (0 < n ∧ n ≤ (s.incoming q).length ∧
    (s.reader q).got.length + n ≤ packetFormat.want (s.reader q).stage) .disabled
  match (packetFormat.feed (s.reader q) ((s.incoming q).take n)).2 with
  | none => return s.take q n
  | some pkt => (s.takeLast q n).dispatch cfg q pkt

/-- The first call of `::recv` for a packet finds nothing: the next socket is looked at. A later call
is tried again. -/
def poll (q : ℕ) : Except SockFault SockState := do
  require ((s.reader q).stage = .length ∧ (s.reader q).got = [] ∧ s.incoming q = []) .disabled
  return { s with socket := update s.socket q (cfg.ring.next (s.socket q)) }

/-! ### Receiving -/

/-- The signal at the end of `insertInBufferList`. -/
def signal (q t : ℕ) : Except SockFault SockState := do
  require (0 < s.unsignalled q t) .disabled
  return { s with
    unsignalled := set₂ s.unsignalled q t (s.unsignalled q t - 1)
    sem := set₂ s.sem q t (s.sem q t + 1) }

/-- The wait of `SockNode::recv`. -/
def wait (q t : ℕ) : Except SockFault SockState := do
  require (0 < s.sem q t) .disabled
  return { s with
    sem := set₂ s.sem q t (s.sem q t - 1)
    woken := set₂ s.woken q t (s.woken q t + 1) }

/-- The rest of `SockNode::recv`. -/
def pop (q t : ℕ) : Except SockFault SockState := do
  require (0 < s.woken q t) .disabled
  match s.lists q t with
  | [] => .error .listEmpty
  | entry :: rest =>
    return { s with
      lists := set₂ s.lists q t rest
      woken := set₂ s.woken q t (s.woken q t - 1)
      received := set₂ s.received q t (s.received q t ++ [entry]) }

end SockState

/-- The events of the transport. A thread that has added a buffer signals later, and one that has waited
takes a buffer later. -/
inductive SockEvent
  | send (src tile : ℕ) (data : List UInt8)
  | globalSend (src dst : ℕ) (data : List UInt8)
  | barrierSend (src : ℕ)
  | arrive (src dst n : ℕ)
  | recvBytes (q n : ℕ)
  | poll (q : ℕ)
  | signal (q t : ℕ)
  | wait (q t : ℕ)
  | pop (q t : ℕ)
  deriving DecidableEq

def SockState.step (cfg : SockConfig) (s : SockState) : SockEvent → Except SockFault SockState
  | .send src tile data => s.send cfg src tile data
  | .globalSend src dst data => s.globalSend cfg src dst data
  | .barrierSend src => s.barrierSend cfg src
  | .arrive src dst n => s.arrive src dst n
  | .recvBytes q n => s.recvBytes cfg q n
  | .poll q => s.poll cfg q
  | .signal q t => s.signal q t
  | .wait q t => s.wait q t
  | .pop q t => s.pop q t

end CarbonSim.Transport
