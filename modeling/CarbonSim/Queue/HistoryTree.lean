import CarbonSim.Queue.TreeSearch

/-!
# The history-tree queue model

`QueueModelHistoryTree`: the free intervals of a port in an interval tree whose nodes come from a
pool of memory blocks. `freeMemoryBlockList` is the part of the array up to its tail, the last entry
first. A packet first prunes the tree when it holds as many nodes as there are blocks (`prune`), then
it is served as an old packet or booked (`book`).
-/

namespace CarbonSim.Queue

open FirstFit AvlTree

structure HistoryTreeConfig where
  maxFreeIntervalSize : ℕ
  analyticalModelEnabled : Bool
  minProcessingTime : ℕ
  deriving DecidableEq, Repr

structure HistoryTree (σ : Type) where
  intervalTree : IntervalTree
  freeMemoryBlockList : List ℕ
  queueModelMG1 : σ
  totalRequestsUsingAnalyticalModel : ℕ
  deriving DecidableEq, Repr

namespace HistoryTree

variable {σ : Type}

/-! ### The pool -/

variable (s : HistoryTree σ)

/-- `QueueModelHistoryTree::allocateNode`. -/
def allocateNode (interval : Interval) :
    Except QueueFault (Node × HistoryTree σ) :=
  match s.freeMemoryBlockList with
  | [] => .error .noFreeBlock
  | index :: rest => .ok (.initialized index interval, { s with freeMemoryBlockList := rest })

variable (cfg : HistoryTreeConfig)

/-- `QueueModelHistoryTree::releaseNode`. -/
def releaseNode (node : Node) :
    Except QueueFault (HistoryTree σ) := do
  require (node.block < cfg.maxFreeIntervalSize) .badBlock
  require (s.freeMemoryBlockList.length < cfg.maxFreeIntervalSize) .allBlocksFree
  return { s with freeMemoryBlockList := node.block :: s.freeMemoryBlockList }

def setTree (tree : IntervalTree) : HistoryTree σ := { s with intervalTree := tree }

/-- `node->interval.second = second`. -/
def setSecond (node : Node) (second : ℕ) : HistoryTree σ :=
  s.setTree ⟨modify node.block (fun n ↦ { n with interval := (n.interval.1, second) })
    s.intervalTree.root, s.intervalTree.size⟩

/-- `node->interval.first = first` and `node->key = node->interval.first`. -/
def setFirst (node : Node) (first : ℕ) : HistoryTree σ :=
  s.setTree ⟨modify node.block (fun n ↦ { n with key := first, interval := (first, n.interval.2) })
    s.intervalTree.root, s.intervalTree.size⟩

/-- `releaseNode(_interval_tree->remove(node))`. -/
def removeNode (path : Path) (node : Node) :
    Except QueueFault (HistoryTree σ) := do
  let (tree, gone) ← s.intervalTree.remove path node
  (s.setTree tree).releaseNode cfg gone

/-- A new node with the interval goes into the tree. -/
def insertNode (interval : Interval) : Except QueueFault (HistoryTree σ) := do
  let (next, s) ← s.allocateNode interval
  let tree ← s.intervalTree.insert next
  return s.setTree tree

/-! ### Packets -/

/-- The node with the minimum key is removed when the tree has grown too large. -/
def prune : Except QueueFault (HistoryTree σ) :=
  if cfg.maxFreeIntervalSize ≤ s.intervalTree.size then do
    let (path, minNode) ← fetch (s.intervalTree.search (0, 1)) .nodeNull
    s.removeNode cfg path minNode
  else .ok s

/-- The interval of the node keeps what is before the packet, and what is after it in a new node. -/
def keepLeft (node : Node) (pktTime finish : ℕ) :
    Except QueueFault (HistoryTree σ) := do
  let s ← if cfg.minProcessingTime ≤ node.interval.2 - finish
    then s.insertNode (finish, node.interval.2) else .ok s
  return s.setSecond node pktTime

/-- The interval of the node keeps what is after the packet, or the node is removed. -/
def keepRight (path : Path) (node : Node)
    (finish : ℕ) : Except QueueFault (HistoryTree σ) :=
  if cfg.minProcessingTime ≤ node.interval.2 - finish then .ok (s.setFirst node finish)
  else s.removeNode cfg path node

/-- The packet is served in the interval of the node. -/
def bookIn (path : Path) (node : Node)
    (pktTime processingTime : ℕ) : Except QueueFault (ℕ × HistoryTree σ) :=
  if node.interval.1 ≤ pktTime then do
    let s ← if cfg.minProcessingTime ≤ pktTime - node.interval.1
      then s.keepLeft cfg node pktTime (add64 pktTime processingTime)
      else s.keepRight cfg path node (add64 pktTime processingTime)
    return (0, s)
  else do
    let s ← s.keepRight cfg path node (add64 node.interval.1 processingTime)
    return (node.interval.1 - pktTime, s)

/-- The packet is served in the free interval that the search finds for it. -/
def book (pktTime processingTime : ℕ) :
    Except QueueFault (ℕ × HistoryTree σ) := do
  let (path, node) ← fetch (s.intervalTree.search (pktTime, add64 pktTime processingTime)) .nodeNull
  require (add64 pktTime processingTime ≤ node.interval.2) .intervalTooShort
  s.bookIn cfg path node pktTime processingTime

/-- Whether the packet is older than every interval of the tree, and the analytical model is on. -/
def isOld (pktTime processingTime : ℕ) :
    Except QueueFault Bool :=
  if cfg.analyticalModelEnabled then do
    let (_, minNode) ← fetch (s.intervalTree.search (0, 1)) .nodeNull
    return decide (add64 pktTime processingTime < minNode.interval.1)
  else .ok false

/-- The two ways to find the delay. -/
def findDelay (model : AnalyticalModel σ) (s : HistoryTree σ) (old : Bool)
    (pktTime processingTime : ℕ) : Except QueueFault (ℕ × HistoryTree σ) :=
  if old then do
    let queueDelay ← model.computeQueueDelay s.queueModelMG1 pktTime processingTime
    return (queueDelay, { s with
      totalRequestsUsingAnalyticalModel := s.totalRequestsUsingAnalyticalModel + 1 })
  else s.book cfg pktTime processingTime

/-- `QueueModelHistoryTree::computeQueueDelay`. -/
def computeQueueDelay (model : AnalyticalModel σ) (s : HistoryTree σ)
    (pktTime processingTime : ℕ) : Except QueueFault (ℕ × HistoryTree σ) := do
  let s ← s.prune cfg
  let old ← s.isOld cfg pktTime processingTime
  let (queueDelay, s) ← s.findDelay cfg model old pktTime processingTime
  require (queueDelay ≠ uint64Max) .delayUnset
  return (queueDelay, { s with
    queueModelMG1 := model.updateQueue s.queueModelMG1 pktTime processingTime queueDelay })

/-- The constructor: all memory blocks are free, and the first one to be allocated holds the whole of
time. -/
def initial (mg1 : σ) : Except QueueFault (HistoryTree σ) := do
  let pool := (List.range cfg.maxFreeIntervalSize).reverse
  let (startNode, s) ← allocateNode ⟨⟨.nil, 0⟩, pool, mg1, 0⟩ (0, uint64Max)
  return s.setTree ⟨.node .nil 1 startNode .nil, 1⟩

end HistoryTree

end CarbonSim.Queue
