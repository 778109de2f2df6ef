import CarbonSim.Lib.AvlTree
import CarbonSim.Queue.HistoryList

/-!
# The interval tree

`IntervalTree`: an AVL tree of intervals. A node is one of the memory blocks of the queue model, known
by its index, with its key and its interval; the height stands in the tree. A pointer to a node is
its path from the root, or its block where the tree may have changed since.

In the source the functions that restore the balance climb from a node to the root through the
parent pointers. Here the recursion that went down to the node comes back up, and each function
returns whether the climb goes on (`rebalanceAVLTree`, `climb`). A rotation hangs the new top of a
subtree below the parent on the side that the keys tell, which is the side where the subtree was.
-/

namespace CarbonSim.Queue

open FirstFit AvlTree

/-- `IntervalTree::Node`, without its place in the tree. -/
structure Node where
  block : ℕ
  key : ℕ
  interval : Interval
  deriving DecidableEq, Repr

/-- `IntervalTree::Node::initialize`. -/
def Node.initialized (block : ℕ) (interval : Interval) : Node := ⟨block, interval.1, interval⟩

abbrev NodeTree := AvlTree.Tree Node

inductive ChildDirection
  | left
  | right
  deriving DecidableEq, Repr

inductive RotationDirection
  | clockwise
  | antiClockwise
  deriving DecidableEq, Repr

/-- The children on the way from the root to a node. -/
abbrev Path := List ChildDirection

/-! ### Balance -/

def heightBalanced : NodeTree → Bool
  | .nil => true
  | .node l _ _ r => decide (l.height ≤ r.height + 1 ∧ r.height ≤ l.height + 1)

/-- A rotation of a subtree, with the heights of the two nodes that it turns. -/
def performRotation : RotationDirection → NodeTree → Except QueueFault NodeTree
  | .clockwise, .node (.node a _ x b) _ y c => .ok (.join a x (.join b y c))
  | .antiClockwise, .node a _ y (.node b _ x c) => .ok (.join (.join a y b) x c)
  | _, _ => .error .nodeNull

/-- The grandchild of `balanceHeight`: the higher child of `y`, or the one on the side of `y`. -/
def xDirection (yDirection : ChildDirection) (left right : NodeTree) : ChildDirection :=
  if left.height ≠ right.height then
    if right.height < left.height then .left else .right
  else yDirection

/-- `balanceHeight` where the left child is the higher one. -/
def balanceLeft (h : ℕ) (z : Node) (r : NodeTree) : NodeTree → Except QueueFault NodeTree
  | .nil => .error .nodeNull
  | .node a k y b =>
    match xDirection .left a b with
    | .right => do
      let l ← performRotation .antiClockwise (.node a k y b)
      performRotation .clockwise (.node l h z r)
    | .left =>
      if a = .nil then .error .nodeNull
      else performRotation .clockwise (.node (.node a k y b) h z r)

/-- `balanceHeight` where the right child is the higher one. -/
def balanceRight (l : NodeTree) (h : ℕ) (z : Node) : NodeTree → Except QueueFault NodeTree
  | .nil => .error .nodeNull
  | .node a k y b =>
    match xDirection .right a b with
    | .left => do
      let r ← performRotation .clockwise (.node a k y b)
      performRotation .antiClockwise (.node l h z r)
    | .right =>
      if b = .nil then .error .nodeNull
      else performRotation .antiClockwise (.node l h z (.node a k y b))

/-- `IntervalTree::balanceHeight`: single or double rotation. -/
def balanceHeight : NodeTree → Except QueueFault NodeTree
  | .nil => .error .nodeNull
  | .node l h z r =>
    if l.height = r.height then .error .equalHeights
    else if r.height < l.height then balanceLeft h z r l
    else balanceRight l h z r

/-- One level of `IntervalTree::rebalanceAVLTree`, and whether it goes on with the parent. -/
def rebalanceAVLTree : NodeTree → Except QueueFault (NodeTree × Bool)
  | .nil => .ok (.nil, false)
  | .node l oldHeight a r => do
    let t ← if heightBalanced (.node l oldHeight a r) then .ok (.join l a r)
      else balanceHeight (.node l oldHeight a r)
    require (heightBalanced t = true) .notBalanced
    return (t, decide (t.height ≠ oldHeight))

/-- The climb arrives at a node, or has ended below it. -/
def climb (up : Bool) (t : NodeTree) : Except QueueFault (NodeTree × Bool) :=
  if up then rebalanceAVLTree t else .ok (t, false)

/-! ### Insertion -/

/-- `IntervalTree::insertInTree`. -/
def insertInTree (new : Node) : NodeTree → Except QueueFault (NodeTree × Bool)
  | .nil => .ok (.node .nil 1 new .nil, true)
  | .node l h a r =>
    if new.key < a.key then do
      let (l, up) ← insertInTree new l
      climb up (.node l h a r)
    else if a.key < new.key then do
      let (r, up) ← insertInTree new r
      climb up (.node l h a r)
    else .error .sameKey

/-! ### Removal -/

/-- `removeFromTree` on `findMinKeyNode` of a subtree. -/
def removeMinKeyNode : NodeTree → Except QueueFault (NodeTree × Bool × Node)
  | .nil => .error .nodeNull
  | .node .nil _ a r => .ok (r, true, a)
  | .node (.node ll lh la lr) h a r => do
    let (l, up, gone) ← removeMinKeyNode (.node ll lh la lr)
    let (t, up) ← climb up (.node l h a r)
    return (t, up, gone)

/-- `IntervalTree::removeFromTree` up to the swap: the node that leaves the tree is the one at the
path, or its successor if it has two children. -/
def removeFromTree : Path → NodeTree → Except QueueFault (NodeTree × Bool × Node)
  | _, .nil => .error .nodeNull
  | .left :: path, .node l h a r => do
    let (l, up, gone) ← removeFromTree path l
    let (t, up) ← climb up (.node l h a r)
    return (t, up, gone)
  | .right :: path, .node l h a r => do
    let (r, up, gone) ← removeFromTree path r
    let (t, up) ← climb up (.node l h a r)
    return (t, up, gone)
  | [], .node .nil _ a r => .ok (r, true, a)
  | [], .node l _ a .nil => .ok (l, true, a)
  | [], .node l h a r => do
    let (r, up, gone) ← removeMinKeyNode r
    let (t, up) ← climb up (.node l h a r)
    return (t, up, gone)

/-- One half of `IntervalTree::swap`: the node with the contents of the other. -/
def Node.take (node other : Node) : Node := { node with key := other.key, interval := other.interval }

/-- Write to a node, known by its block. -/
def modify (block : ℕ) (f : Node → Node) (t : NodeTree) : NodeTree :=
  t.map fun n ↦ if n.block = block then f n else n

/-! ### Search -/

/-- `IntervalTree::searchTree`: the node, and the path to it. -/
def searchTree (query : Interval) : NodeTree → Option (Path × Node)
  | .nil => none
  | .node l _ a r =>
    if a.interval.1 ≤ query.1 ∧ query.2 ≤ a.interval.2 then some ([], a)
    else
      match if query.2 < a.interval.1 then searchTree query l else none with
      | some (path, found) => some (.left :: path, found)
      | none =>
        if query.1 < a.interval.1 ∧ query.2 - query.1 ≤ a.interval.2 - a.interval.1 then
          some ([], a)
        else (searchTree query r).map fun (path, found) ↦ (.right :: path, found)

/-! ### The tree -/

structure IntervalTree where
  root : NodeTree
  size : ℕ
  deriving DecidableEq, Repr

namespace IntervalTree

def search (t : IntervalTree) (query : Interval) : Option (Path × Node) := searchTree query t.root

def insert (t : IntervalTree) (new : Node) : Except QueueFault IntervalTree := do
  let (root, _) ← insertInTree new t.root
  return ⟨root, t.size + 1⟩

/-- `IntervalTree::remove`: the tree, and the node that has left it. When this is the successor of
the node to remove, the two have swapped their contents. -/
def remove (t : IntervalTree) (path : Path) (node : Node) :
    Except QueueFault (IntervalTree × Node) := do
  let (root, _, gone) ← removeFromTree path t.root
  if gone.block = node.block then return (⟨root, t.size - 1⟩, gone)
  else return (⟨modify node.block (·.take gone) root, t.size - 1⟩, gone.take node)

end IntervalTree

end CarbonSim.Queue
