import CarbonSim.Msi.LineProtocol
import CarbonSim.Msi.Message

/-!
# The cache controllers of a tile

`L1CacheCntlr` and `L2CacheCntlr` of `pr_l1_pr_l2_dram_directory_msi`. The L1 caches are write
through, so a store goes to the L1 and to the L2. A line of an L2 records in which L1 it is cached.
The statistics of the caches are left out.
-/

namespace CarbonSim.Msi

/-- A line of an L1 cache. -/
structure L1Line where
  cstate : CState
  data : Block

/-- A line of an L2 cache, with `_cached_loc`; `none` is `MemComponent::INVALID`. -/
structure L2Line where
  cstate : CState
  cachedLoc : Option L1Kind
  data : Block

/-- What the application thread of a tile is doing: nothing, waiting for the reply to a miss, or
about to retry the access after the fill. `num` is `access_num`. -/
inductive App (A : Type)
  | idle
  | missed (acc : Access A) (num : ℕ)
  | filled (acc : Access A) (num : ℕ)

/-- The caches of a tile, `_outstanding_shmem_msg` (address and sender component) and its time. -/
structure Tile (A : Type) where
  l1 : L1Kind → SetAssoc A L1Line
  l2 : SetAssoc A L2Line
  outstanding : Option (A × L1Kind)
  outstandingTime : ℕ
  app : App A

namespace Tile

variable {A : Type}

/-- A tile before any access. -/
def start : Tile A := ⟨fun _ ↦ .empty, .empty, none, 0, .idle⟩

variable [DecidableEq A] {N : ℕ} (cfg : TileConfig A) (home : A → Fin N) (self : Fin N)

variable (t : Tile A)

/-- The line in an L1 cache. -/
def l1Line (comp : L1Kind) (a : A) : Option L1Line := (t.l1 comp).get? (cfg.l1 comp) a

/-- The line in the L2 cache. -/
def l2Line (a : A) : Option L2Line := t.l2.get? cfg.l2 a

/-- `getCState` of a line; a line that is not found is INVALID. -/
def l1State (comp : L1Kind) (a : A) : CState :=
  ((t.l1Line cfg comp a).map L1Line.cstate).getD .invalid

def l2State (a : A) : CState :=
  ((t.l2Line cfg a).map L2Line.cstate).getD .invalid

def setL1 (comp : L1Kind) (c : SetAssoc A L1Line) : Tile A :=
  { t with l1 := Function.update t.l1 comp c }

/-- `_l1_cache->setCacheLineInfo`; `none` is an invalidated line. -/
def setL1Line (comp : L1Kind) (a : A) (x : Option L1Line) : Except Fault (Tile A) := do
  let c ← fetch ((t.l1 comp).assign (cfg.l1 comp) a x) .lineNotCached
  return t.setL1 comp c

/-- `_l2_cache->setCacheLineInfo`. -/
def setL2Line (a : A) (x : Option L2Line) : Except Fault (Tile A) := do
  let c ← fetch (t.l2.assign cfg.l2 a x) .lineNotCached
  return { t with l2 := c }

/-! ### `L1CacheCntlr` -/

/-- `L1CacheCntlr::setCacheLineState`. -/
def setCacheLineState (comp : L1Kind) (a : A) (cstate : CState) :
    Except Fault (Tile A) := do
  require (t.l1State cfg comp a ≠ .invalid) .cacheState
  t.setL1Line cfg comp a ((t.l1Line cfg comp a).map fun l ↦ { l with cstate })

/-- `L1CacheCntlr::invalidateCacheLine`. -/
def invalidateL1 (comp : L1Kind) (a : A) : Except Fault (Tile A) :=
  if (t.l1Line cfg comp a).isSome then t.setL1Line cfg comp a none else return t

/-- `L1CacheCntlr::insertCacheLine`: the address evicted, and the tile. -/
def insertL1 (way : ℕ) (comp : L1Kind) (a : A) (cstate : CState) (data : Block) :
    Except Fault (Option A × Tile A) := do
  require (way ∈ (cfg.l1 comp).scan) .replacementWay
  let (evicted, c) := (t.l1 comp).insertAt (cfg.l1 comp) way a ⟨cstate, data⟩
  return (evicted.map Prod.fst, t.setL1 comp c)

/-! ### `L2CacheCntlr` -/

/-- `setCacheLineStateInL1`. -/
def setCacheLineStateInL1 (loc : Option L1Kind) (a : A) (cstate : CState) :
    Except Fault (Tile A) :=
  match loc with
  | some comp => t.setCacheLineState cfg comp a cstate
  | none => return t

/-- `invalidateCacheLineInL1`. -/
def invalidateCacheLineInL1 (loc : Option L1Kind) (a : A) : Except Fault (Tile A) :=
  match loc with
  | some comp => t.invalidateL1 cfg comp a
  | none => return t

/-- `insertCacheLineInL1`: the L2 line of an evicted L1 line loses its location. -/
def insertCacheLineInL1 (way : ℕ) (comp : L1Kind) (a : A) (cstate : CState)
    (data : Block) : Except Fault (Tile A) := do
  let (evicted, t) ← t.insertL1 cfg way comp a cstate data
  match evicted with
  | none => return t
  | some b =>
    require ((t.l2Line cfg b).bind L2Line.cachedLoc = some comp) .clearCachedLoc
    t.setL2Line cfg b ((t.l2Line cfg b).map fun l ↦ { l with cachedLoc := none })

/-- A message of the L2 cache to the home of a line. -/
def toHome (type : MsgType) (requester : Fin N) (a : A) (data : Option Block) (modeled : Bool)
    (time : ℕ) : Send A N :=
  ⟨home a, ⟨⟨type, .toDirectory, requester, a, data, modeled⟩, time⟩⟩

/-- `L2CacheCntlr::insertCacheLine`: a line evicted from the L2 leaves the L1 as well and is
reported to its home. -/
def insertL2 (way : ℕ) (a : A) (cstate : CState) (data : Block) (comp : L1Kind)
    (capacityModeled : Bool) (now : ℕ) : Except Fault (Tile A × List (Send A N)) := do
  require (way ∈ cfg.l2.scan) .replacementWay
  let (evicted, c) := t.l2.insertAt cfg.l2 way a ⟨cstate, some comp, data⟩
  let t := { t with l2 := c }
  match evicted with
  | none => return (t, [])
  | some (b, line) =>
    let t ← t.invalidateCacheLineInL1 cfg line.cachedLoc b
    if line.cstate = .modified then
      return (t, [toHome home .flushRep self b (some line.data) capacityModeled now])
    else
      require (line.cstate = .shared) .cacheState
      return (t, [toHome home .invRep self b none capacityModeled now])

/-- `insertCacheLineInHierarchy`. -/
def insertCacheLineInHierarchy (l1Way : L1Kind → ℕ) (l2Way : ℕ) (a : A) (cstate : CState)
    (data : Block) (capacityModeled : Bool) (now : ℕ) :
    Except Fault (Tile A × List (Send A N)) := do
  let (address, comp) ← fetch t.outstanding .outstandingAddress
  require (a = address) .outstandingAddress
  let (t, sends) ← t.insertL2 cfg home self l2Way a cstate data comp capacityModeled now
  let t ← t.insertCacheLineInL1 cfg (l1Way comp) comp a cstate data
  return (t, sends)

/-- `processShmemRequestFromL1Cache`: whether the access misses in the L2, and the tile. -/
def processShmemRequestFromL1Cache (l1Way : L1Kind → ℕ) (comp : L1Kind) (op : MemOp) (a : A) :
    Except Fault (Bool × Tile A) :=
  if op.permissible (t.l2State cfg a) then do
    let line ← fetch (t.l2Line cfg a) .lineNotCached
    let t ← t.insertCacheLineInL1 cfg (l1Way comp) comp a line.cstate line.data
    require (line.cachedLoc = none) .setCachedLoc
    let t ← t.setL2Line cfg a (some { line with cachedLoc := some comp })
    return (false, t)
  else return (true, t)

/-! ### Accesses of the core -/

/-- `accessCache`: the bytes read, and the tile. A store is written through to the L2. -/
def accessCache (acc : Access A) : Except Fault (List UInt8 × Tile A) := do
  let line ← fetch (t.l1Line cfg acc.comp acc.address) .lineNotCached
  require (acc.offset + acc.op.length ≤ cfg.lineSize) .lineRange
  match acc.op with
  | .read n => return (line.data.read acc.offset n, t)
  | .readEx n => return (line.data.read acc.offset n, t)
  | .write bytes =>
    let t ← t.setL1Line cfg acc.comp acc.address
      (some { line with data := line.data.write acc.offset bytes })
    let line ← fetch (t.l2Line cfg acc.address) .lineNotCached
    let t ← t.setL2Line cfg acc.address
      (some { line with data := line.data.write acc.offset bytes })
    return ([], t)

/-- `getShmemMsgType`. -/
def reqType (op : MemOp) : MsgType := if op.exclusive then .exReq else .shReq

/-- One round of the loop of `processMemOpFromTile`: the bytes read if the access completes, and
otherwise the request that is sent to the L2 cache of the tile. -/
def attempt (l1Way : L1Kind → ℕ) (acc : Access A) (modeled : Bool) (now : ℕ) :
    Except Fault (Tile A × Option (List UInt8) × List (Send A N)) :=
  if acc.op.permissible (t.l1State cfg acc.comp acc.address) then do
    let (bytes, t) ← t.accessCache cfg acc
    return (t, some bytes, [])
  else do
    let t ← t.invalidateL1 cfg acc.comp acc.address
    let (miss, t) ← t.processShmemRequestFromL1Cache cfg l1Way acc.comp acc.op acc.address
    if miss then
      let time := now + cfg.l1Cost acc.comp .tags + cfg.l2Cost .tags
      return (t, none,
        [⟨self, ⟨⟨reqType acc.op, .fromL1 acc.comp, self, acc.address, none, modeled⟩, time⟩⟩])
    else
      let (bytes, t) ← t.accessCache cfg acc
      return (t, some bytes, [])

/-- The application thread after `num` rounds of the loop. -/
def afterAttempt (acc : Access A) (num : ℕ)
    (r : Tile A × Option (List UInt8) × List (Send A N)) :
    Tile A × Option (List UInt8) × List (Send A N) :=
  ({ r.1 with app := if r.2.1.isSome then .idle else .missed acc num }, r.2)

/-- A core starts an access. -/
def access (l1Way : L1Kind → ℕ) (acc : Access A) (modeled : Bool) (now : ℕ) :
    Except Fault (Tile A × Option (List UInt8) × List (Send A N)) :=
  afterAttempt acc 1 <$> t.attempt cfg self l1Way acc modeled now

/-- The application thread goes round its loop after a fill; `access_num` may not exceed 2. -/
def retry (l1Way : L1Kind → ℕ) (acc : Access A) (num : ℕ) (modeled : Bool) (now : ℕ) :
    Except Fault (Tile A × Option (List UInt8) × List (Send A N)) := do
  require (num + 1 = 1 ∨ num + 1 = 2) .accessNum
  afterAttempt acc (num + 1) <$> t.attempt cfg self l1Way acc modeled now

/-! ### Messages to the L2 cache -/

/-- `processExReqFromL1Cache`: a shared copy is given up before the request is sent. -/
def processExReqFromL1Cache (a : A) (modeled : Bool) (now : ℕ) :
    Except Fault (Tile A × List (Send A N)) := do
  require (t.l2State cfg a = .invalid ∨ t.l2State cfg a = .shared) .cacheState
  if t.l2State cfg a = .shared then
    let t ← t.setL2Line cfg a none
    return (t, [toHome home .invRep self a none modeled now,
      toHome home .exReq self a none modeled now])
  else return (t, [toHome home .exReq self a none modeled now])

/-- `processShReqFromL1Cache`. -/
def processShReqFromL1Cache (a : A) (modeled : Bool) (now : ℕ) :
    Tile A × List (Send A N) :=
  (t, [toHome home .shReq self a none modeled now])

/-- `L2CacheCntlr::handleMsgFromL1Cache`. -/
def handleMsgFromL1Cache (comp : L1Kind) (m : ShmemMsg A N) (now : ℕ) :
    Except Fault (Tile A × List (Send A N)) := do
  require (m.data = none) .messageData
  require (t.outstanding.isNone) .outstandingMsg
  let t := { t with outstanding := some (m.address, comp), outstandingTime := now }
  match m.type with
  | .exReq => t.processExReqFromL1Cache cfg home self m.address m.modeled now
  | .shReq => return t.processShReqFromL1Cache home self m.address m.modeled now
  | _ => .error .unrecognizedMsg

/-- `incrCycleCount` for the L1 cache in which a line is cached. -/
def locCost (loc : Option L1Kind) : ℕ := (loc.map fun comp ↦ cfg.l1Cost comp .tags).getD 0

/-- A reply of the L2 cache to the directory. -/
def replyTo (sender : Fin N) (type : MsgType) (m : ShmemMsg A N) (data : Option Block)
    (time : ℕ) : Send A N :=
  ⟨sender, ⟨⟨type, .toDirectory, m.requester, m.address, data, m.modeled⟩, time⟩⟩

/-- `processInvReqFromDramDirectory`. -/
def processInvReqFromDramDirectory (sender : Fin N) (m : ShmemMsg A N) (now : ℕ) :
    Except Fault (Tile A × List (Send A N)) :=
  if t.l2State cfg m.address = .invalid then return (t, [])
  else do
    let line ← fetch (t.l2Line cfg m.address) .lineNotCached
    require (line.cstate = .shared) .cacheState
    let t ← t.invalidateCacheLineInL1 cfg line.cachedLoc m.address
    let t ← t.setL2Line cfg m.address none
    return (t, [replyTo sender .invRep m none (now + cfg.l2Cost .tags + locCost cfg line.cachedLoc)])

/-- `processFlushReqFromDramDirectory`. -/
def processFlushReqFromDramDirectory (sender : Fin N) (m : ShmemMsg A N) (now : ℕ) :
    Except Fault (Tile A × List (Send A N)) :=
  if t.l2State cfg m.address = .invalid then return (t, [])
  else do
    let line ← fetch (t.l2Line cfg m.address) .lineNotCached
    require (line.cstate = .modified) .cacheState
    let t ← t.invalidateCacheLineInL1 cfg line.cachedLoc m.address
    let t ← t.setL2Line cfg m.address none
    return (t, [replyTo sender .flushRep m (some line.data)
      (now + cfg.l2Cost .dataAndTags + locCost cfg line.cachedLoc)])

/-- `processWbReqFromDramDirectory`. -/
def processWbReqFromDramDirectory (sender : Fin N) (m : ShmemMsg A N) (now : ℕ) :
    Except Fault (Tile A × List (Send A N)) :=
  if t.l2State cfg m.address = .invalid then return (t, [])
  else do
    let line ← fetch (t.l2Line cfg m.address) .lineNotCached
    require (line.cstate = .modified) .cacheState
    let t ← t.setCacheLineStateInL1 cfg line.cachedLoc m.address .shared
    let t ← t.setL2Line cfg m.address (some { line with cstate := .shared })
    return (t, [replyTo sender .wbRep m (some line.data)
      (now + cfg.l2Cost .dataAndTags + locCost cfg line.cachedLoc)])

/-- The application thread after `wakeUpAppThread`. -/
def wake : App A → App A
  | .missed acc num => .filled acc num
  | app => app

/-- An EX_REP or SH_REP: `processExRepFromDramDirectory`, `processShRepFromDramDirectory` and the
end of `handleMsgFromDramDirectory`. -/
def processRepFromDramDirectory (l1Way : L1Kind → ℕ) (l2Way : ℕ) (m : ShmemMsg A N)
    (cstate : CState) (capacityModeled : Bool) (now : ℕ) :
    Except Fault (Tile A × List (Send A N)) := do
  let data ← fetch m.data .messageData
  let (t, sends) ←
    t.insertCacheLineInHierarchy cfg home self l1Way l2Way m.address cstate data capacityModeled now
  require (t.outstandingTime ≤ now) .outstandingTime
  return ({ t with outstanding := none, app := wake t.app }, sends)

/-- `L2CacheCntlr::handleMsgFromDramDirectory`. -/
def handleMsgFromDramDirectory (l1Way : L1Kind → ℕ) (l2Way : ℕ) (sender : Fin N)
    (m : ShmemMsg A N)
    (capacityModeled : Bool) (now : ℕ) : Except Fault (Tile A × List (Send A N)) :=
  match m.type with
  | .exRep =>
    t.processRepFromDramDirectory cfg home self l1Way l2Way m .modified capacityModeled now
  | .shRep =>
    t.processRepFromDramDirectory cfg home self l1Way l2Way m .shared capacityModeled now
  | .invReq => t.processInvReqFromDramDirectory cfg sender m now
  | .flushReq => t.processFlushReqFromDramDirectory cfg sender m now
  | .wbReq => t.processWbReqFromDramDirectory cfg sender m now
  | _ => .error .unrecognizedMsg

end Tile

end CarbonSim.Msi
