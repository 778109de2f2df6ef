import CarbonSim.Fault
import CarbonSim.Lib.Outcome
import Mathlib.Algebra.Group.Nat.Defs
import Mathlib.Data.Fintype.Card

/-!
# The sharer lists of the directory schemes

The five classes derived from `DirectoryEntry`: `full_map` and the software part of `limitless` keep
a `BitVector`, the others a vector of `_max_hw_sharers` slots of type `SInt16`. Tile ids are integers
here, as a slot holds `(SInt16) sharer_id` and `INVALID_SHARER` is `-1`.
-/

namespace CarbonSim.Directory

/-- The schemes of `DirectoryEntry::create`. -/
inductive Scheme
  | fullMap
  | limitedNoBroadcast
  | limitedBroadcast
  | ackwise
  | limitless
  deriving DecidableEq, Repr

/-- The conversion `(SInt16) sharer_id`. -/
def toSInt16 (i : ℤ) : ℤ := i.bmod (2 ^ 16)

def invalidSharer : ℤ := -1

def invalidTileId : ℤ := -1

/-! ### Bit vectors -/

/-- `BitVector`: its capacity, the count of set bits that it maintains, and the bits. -/
structure BitVector where
  capacity : ℕ
  size : ℕ
  bits : ℕ → Bool

namespace BitVector

def create (bits : ℕ) : BitVector := ⟨bits, 0, fun _ ↦ false⟩

/-- `at` of a tile id converted to an unsigned bit number. -/
def at? (b : BitVector) (i : ℤ) : Except Fault Bool := do
  require (0 ≤ i ∧ i < b.capacity) .bitRange
  return b.bits i.toNat

def set (b : BitVector) (i : ℤ) : Except Fault BitVector := do
  let present ← b.at? i
  return if present then b
    else { b with bits := Function.update b.bits i.toNat true, size := b.size + 1 }

def clear (b : BitVector) (i : ℤ) : Except Fault BitVector := do
  let present ← b.at? i
  return if present then
      { b with bits := Function.update b.bits i.toNat false, size := b.size - 1 }
    else b

/-- Set a bit that is asserted to be clear. -/
def setNew (b : BitVector) (i : ℤ) : Except Fault BitVector := do
  let present ← b.at? i
  require (present = false) .sharerPresent
  b.set i

/-- Clear a bit that is asserted to be set. -/
def clearOld (b : BitVector) (i : ℤ) : Except Fault BitVector := do
  let present ← b.at? i
  require (present = true) .sharerMissing
  b.clear i

/-- What `resetFind` and repeated calls of `find` deliver. -/
def found (b : BitVector) : List ℤ :=
  ((List.range b.capacity).filter b.bits).map Nat.cast

/-- The list of `size` elements that is filled with the bits found. -/
def sharersList (b : BitVector) : Except Fault (List ℤ) := do
  require (b.found.length ≤ b.size) .listSize
  return b.found ++ List.replicate (b.size - b.found.length) 0

end BitVector

/-! ### Limited lists -/

/-- `DirectoryEntryLimited`: the slots and the count of those in use. -/
structure Limited where
  sharers : List ℤ
  numTracked : ℤ
  deriving DecidableEq, Repr

/-- Replace the first slot that holds `old`. -/
def replaceFirst (old new : ℤ) : List ℤ → Option (List ℤ)
  | [] => none
  | x :: xs => if x = old then some (new :: xs) else (replaceFirst old new xs).map (x :: ·)

namespace Limited

def create (maxHwSharers : ℕ) : Limited := ⟨List.replicate maxHwSharers invalidSharer, 0⟩

/-- The slots are compared with the id itself, not with its conversion. -/
def hasSharer (l : Limited) (sharerId : ℤ) : Bool := l.sharers.any fun x ↦ x = sharerId

def addSharer (l : Limited) (sharerId : ℤ) : Except Fault (Bool × Limited) := do
  require (toSInt16 sharerId ∉ l.sharers) .sharerPresent
  match replaceFirst invalidSharer (toSInt16 sharerId) l.sharers with
  | some sharers => return (true, ⟨sharers, l.numTracked + 1⟩)
  | none => return (false, l)

def removeSharer (l : Limited) (sharerId : ℤ) : Except Fault Limited := do
  let sharers ← fetch (replaceFirst (toSInt16 sharerId) invalidSharer l.sharers) .sharerMissing
  return ⟨sharers, l.numTracked - 1⟩

/-- The slots in use. -/
def tracked (l : Limited) : List ℤ := l.sharers.filter fun x ↦ x ≠ invalidSharer

def sharersList (l : Limited) : Except Fault (List ℤ) := do
  require (l.numTracked = l.tracked.length) .trackedCount
  return l.tracked

end Limited

/-! ### The schemes -/

/-- The sharer list of an entry, by scheme. The software list of `limitless` exists once the
software trap is enabled; `limited_broadcast` knows the number of tiles. -/
inductive Sharers
  | fullMap (bits : BitVector)
  | limitedNoBroadcast (list : Limited)
  | limitedBroadcast (list : Limited) (totalTiles : ℕ) (globalEnabled : Bool) (numSharers : ℤ)
  | ackwise (list : Limited) (globalEnabled : Bool) (numUntracked : ℤ)
  | limitless (list : Limited) (maxNumSharers : ℕ) (software : Option BitVector)

/-- Migration of the hardware list of `limitless` to software. -/
def migrate (maxNumSharers : ℕ) : List ℤ → BitVector → Except Fault BitVector
  | [], b => return b
  | x :: xs, b =>
    if x = invalidSharer then migrate maxNumSharers xs b
    else do
      require (0 ≤ x ∧ x < maxNumSharers) .migration
      let b ← b.set x
      migrate maxNumSharers xs b

namespace Sharers

/-- `DirectoryEntry::create`. -/
def create (scheme : Scheme) (maxHwSharers maxNumSharers : ℕ) : Sharers :=
  match scheme with
  | .fullMap => .fullMap (BitVector.create maxNumSharers)
  | .limitedNoBroadcast => .limitedNoBroadcast (Limited.create maxHwSharers)
  | .limitedBroadcast => .limitedBroadcast (Limited.create maxHwSharers) maxNumSharers false 0
  | .ackwise => .ackwise (Limited.create maxHwSharers) false 0
  | .limitless => .limitless (Limited.create maxHwSharers) maxNumSharers none

def hasSharer (x : Sharers) (sharerId : ℤ) : Except Fault Bool :=
  match x with
  | .fullMap bits => bits.at? sharerId
  | .limitedNoBroadcast list => return list.hasSharer sharerId
  | .limitedBroadcast list _ _ _ => return list.hasSharer sharerId
  | .ackwise list _ _ => return list.hasSharer sharerId
  | .limitless list _ none => return list.hasSharer sharerId
  | .limitless _ _ (some bits) => bits.at? sharerId

/-- Whether the sharer could be added, and the list afterwards. -/
def addSharer (x : Sharers) (sharerId : ℤ) : Except Fault (Bool × Sharers) :=
  match x with
  | .fullMap bits => do
    let bits ← bits.setNew sharerId
    return (true, .fullMap bits)
  | .limitedNoBroadcast list => do
    let (added, list) ← list.addSharer sharerId
    return (added, .limitedNoBroadcast list)
  | .limitedBroadcast list totalTiles globalEnabled numSharers => do
    if globalEnabled then return (true, x)
    let (added, list) ← list.addSharer sharerId
    if added then return (true, .limitedBroadcast list totalTiles globalEnabled numSharers)
    require (numSharers = 0 ∧ list.numTracked = list.sharers.length) .overflowCheck
    return (true, .limitedBroadcast list totalTiles true totalTiles)
  | .ackwise list globalEnabled numUntracked => do
    if globalEnabled then return (true, .ackwise list globalEnabled (numUntracked + 1))
    let (added, list) ← list.addSharer sharerId
    if added then return (true, .ackwise list globalEnabled numUntracked)
    require (numUntracked = 0 ∧ list.numTracked = list.sharers.length) .overflowCheck
    return (true, .ackwise list true 1)
  | .limitless list maxNumSharers (some bits) => do
    let bits ← bits.setNew sharerId
    return (true, .limitless list maxNumSharers (some bits))
  | .limitless list maxNumSharers none => do
    let (added, list) ← list.addSharer sharerId
    if added then return (true, .limitless list maxNumSharers none)
    let bits ← migrate maxNumSharers list.sharers (BitVector.create maxNumSharers)
    let bits ← bits.set sharerId
    require (list.numTracked = list.tracked.length) .migration
    return (true, .limitless ⟨list.sharers.map fun _ ↦ invalidSharer, 0⟩ maxNumSharers (some bits))

def removeSharer (x : Sharers) (sharerId : ℤ) (replyExpected : Bool) : Except Fault Sharers :=
  match x with
  | .fullMap bits => do
    require (replyExpected = false) .replyExpected
    let bits ← bits.clearOld sharerId
    return .fullMap bits
  | .limitedNoBroadcast list => do
    require (replyExpected = false) .replyExpected
    let list ← list.removeSharer sharerId
    return .limitedNoBroadcast list
  | .limitedBroadcast list totalTiles globalEnabled numSharers => do
    -- in broadcast mode the sharer need not be in the list
    let list ← if globalEnabled && !list.hasSharer sharerId then pure list
      else list.removeSharer sharerId
    if replyExpected then
      require (globalEnabled = true) .replyExpected
      if numSharers - 1 = 0 then
        require (list.numTracked = 0) .trackedCount
        return .limitedBroadcast list totalTiles false 0
      else return .limitedBroadcast list totalTiles true (numSharers - 1)
    else return .limitedBroadcast list totalTiles globalEnabled numSharers
  | .ackwise list globalEnabled numUntracked => do
    require (replyExpected = false) .replyExpected
    if globalEnabled then
      require (0 < numUntracked) .untrackedCount
      if list.hasSharer sharerId then
        let list ← list.removeSharer sharerId
        return .ackwise list globalEnabled numUntracked
      else return .ackwise list (decide (numUntracked - 1 ≠ 0)) (numUntracked - 1)
    else
      let list ← list.removeSharer sharerId
      return .ackwise list globalEnabled numUntracked
  | .limitless list maxNumSharers (some bits) => do
    require (replyExpected = false) .replyExpected
    let bits ← bits.clearOld sharerId
    return .limitless list maxNumSharers (some bits)
  | .limitless list maxNumSharers none => do
    require (replyExpected = false) .replyExpected
    let list ← list.removeSharer sharerId
    return .limitless list maxNumSharers none

def getNumSharers : Sharers → ℤ
  | .fullMap bits => bits.size
  | .limitedNoBroadcast list => list.numTracked
  | .limitedBroadcast list _ globalEnabled numSharers =>
    if globalEnabled then numSharers else list.numTracked
  | .ackwise list _ numUntracked => list.numTracked + numUntracked
  | .limitless list _ none => list.numTracked
  | .limitless _ _ (some bits) => bits.size

/-- The flag that makes the caller broadcast, and the sharers listed. -/
def getSharersList : Sharers → Except Fault (Bool × List ℤ)
  | .fullMap bits => return (false, ← bits.sharersList)
  | .limitedNoBroadcast list => return (true, ← list.sharersList)
  | .limitedBroadcast list _ globalEnabled _ => return (globalEnabled, ← list.sharersList)
  | .ackwise list globalEnabled _ => return (globalEnabled, ← list.sharersList)
  | .limitless list _ none => return (false, ← list.sharersList)
  | .limitless _ _ (some bits) => return (false, ← bits.sharersList)

def inBroadcastMode : Sharers → Bool
  | .limitedBroadcast _ _ globalEnabled _ => globalEnabled
  | .ackwise _ globalEnabled _ => globalEnabled
  | _ => false

/-- An empty list gives INVALID_TILE_ID, except in `full_map`, which then divides by zero. -/
def oneSharer (x : Sharers) (index : ℕ → ℕ) : Except Fault ℤ := do
  let (_, list) ← x.getSharersList
  match x, list with
  | .fullMap _, [] => .error .noSharer
  | _, [] => return invalidTileId
  | _, list => fetch list[index list.length]? .noSharer

/-- The software trap of `limitless` costs time. -/
def getLatency (softwareTrapPenalty : ℕ) : Sharers → ℕ
  | .limitless _ _ (some _) => softwareTrapPenalty
  | _ => 0

end Sharers

end CarbonSim.Directory
