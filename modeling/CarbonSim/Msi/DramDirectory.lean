import CarbonSim.Msi.Message

/-!
# The DRAM directory controller

`DramDirectoryCntlr` of `pr_l1_pr_l2_dram_directory_msi`, with the request queues of `HashMapQueue`,
the directory cache and the contents of DRAM.

The handlers of the source end in a call of `processNextReqFromL2Cache` when they have completed the
request at the front of a queue, and that function calls them again for the next request. Here a
handler returns whether it ends in this call, and `processNextReqFromL2Cache` is the loop.
-/

namespace CarbonSim.Msi

open Directory Function

/-- `ShmemReq`: the message of a request, and its time. -/
structure ShmemReq (A : Type) (N : ℕ) where
  type : MsgType
  requester : Fin N
  address : A
  modeled : Bool
  time : ℕ

/-- The directory controller of a tile. `clock` is the cycle count of the thread that runs the
handler and `out` what the handler has sent so far. -/
structure Dir (A : Type) (N : ℕ) where
  cache : DirectoryCache A
  queue : A → List (ShmemReq A N)
  dram : A → Option Block
  clock : ℕ
  out : List (Send A N)

namespace Dir

variable {A : Type} {N : ℕ}

/-- A directory before any request. -/
def start : Dir A N := ⟨.empty, fun _ ↦ [], fun _ ↦ none, 0, []⟩

variable [DecidableEq A] (cfg : Config A N) (env : Env A)

/-! ### Queues, messages and DRAM -/

variable (d : Dir A N)

def setQueue (a : A) (q : List (ShmemReq A N)) : Dir A N :=
  { d with queue := update d.queue a q }

def enqueue (a : A) (req : ShmemReq A N) : Dir A N :=
  d.setQueue a (d.queue a ++ [req])

def dequeue (a : A) : Except Fault (Dir A N) :=
  match d.queue a with
  | [] => .error .queueCount
  | _ :: rest => return d.setQueue a rest

/-- A message of the directory to the L2 cache of a tile on behalf of a request. -/
def message (type : MsgType) (req : ShmemReq A N) (data : Option Block) : ShmemMsg A N :=
  ⟨type, .fromDirectory, req.requester, req.address, data, req.modeled⟩

/-- `MemoryManager::sendMsg`. -/
def sendMsg (receiver : ℤ) (m : ShmemMsg A N) : Except Fault (Dir A N) :=
  if h : 0 ≤ receiver ∧ receiver.toNat < N then
    return { d with out := d.out ++ [⟨⟨receiver.toNat, h.2⟩, ⟨m, d.clock⟩⟩] }
  else .error .noSuchTile

/-- `MemoryManager::broadcastMsg`. -/
def broadcastMsg (m : ShmemMsg A N) : Dir A N :=
  { d with out := d.out ++ (List.finRange N).map fun t ↦ ⟨t, ⟨m, d.clock⟩⟩ }

/-- `sendMsg` to each tile of a list. -/
def sendEach (m : ShmemMsg A N) : List ℤ → Dir A N → Except Fault (Dir A N)
  | [], d => return d
  | z :: zs, d => do
    let d ← d.sendMsg z m
    sendEach m zs d

/-- `DramCntlr::getDataFromDram`. -/
def getDataFromDram (a : A) (modeled : Bool) : Block × Dir A N :=
  let data := (d.dram a).getD Block.zero
  (data, { d with
    dram := update d.dram a (some data)
    clock := d.clock + if modeled then env.dramLatency a d.clock else 0 })

def setDram (a : A) (data : Block) : Dir A N :=
  { d with dram := update d.dram a (some data) }

/-- `DramCntlr::putDataToDram`; the latency of a write is not charged. -/
def putDataToDram (a : A) (data : Block) : Except Fault (Dir A N) := do
  require ((d.dram a).isSome) .noDramData
  return d.setDram a data

/-! ### Directory entries -/

/-- `DirectoryCache::getDirectoryEntry` and its latency. -/
def getDirectoryEntry (a : A) : Option Entry × Dir A N :=
  let (e, cache) := d.cache.getDirectoryEntry cfg.directory cfg.freshEntry a
  let trap := ((d.cache.entries.get? cfg.directory a).map fun e ↦
    e.sharers.getLatency cfg.softwareTrapPenalty).getD 0
  (e, { d with cache, clock := d.clock + cfg.directoryDelay + trap })

def putEntry (a : A) (e : Entry) : Dir A N :=
  { d with cache := d.cache.putEntry cfg.directory a e }

/-- The better of the best candidate so far and the next one. -/
def betterCandidate (count : A → ℕ) (best : Option (A × Entry)) (x : A × Entry) :
    Option (A × Entry) :=
  if (best.all fun y ↦ x.2.sharers.getNumSharers < y.2.sharers.getNumSharers) ∧ count x.1 = 0
  then some x else best

/-- The candidate with the fewest sharers among those without a request in their queue. -/
def replacementCandidate (count : A → ℕ) (candidates : List (A × Entry)) : Option (A × Entry) :=
  candidates.foldl (betterCandidate count) none

/-- INV_REQs to the sharers of a line, or to all tiles if the entry asks for a broadcast. -/
def sendInvReqs (e : Entry) (req : ShmemReq A N) : Except Fault (Dir A N) := do
  let (allTilesSharers, sharersList) ← e.sharers.getSharersList
  if allTilesSharers then return d.broadcastMsg (message .invReq req none)
  else sendEach (message .invReq req none) sharersList d

/-- `processNullifyReq`. -/
def processNullifyReq (req : ShmemReq A N) : Except Fault (Dir A N × Bool) := do
  let (e, d) := d.getDirectoryEntry cfg req.address
  let e ← fetch e .noEntry
  match e.dstate with
  | .modified =>
    let d ← d.sendMsg e.owner (message .flushReq req none)
    return (d, false)
  | .shared =>
    let d ← d.sendInvReqs e req
    return (d, false)
  | .uncached =>
    let cache ← d.cache.invalidateDirectoryEntry req.address
    return ({ d with cache }, true)
  | _ => .error .directoryState

/-- `processDirectoryEntryAllocationReq`: the line of the entry that is replaced gets a NULLIFY.
Its queue has no other request, so the call of `processNextReqFromL2Cache` that completes the
NULLIFY only removes it. -/
def processDirectoryEntryAllocationReq (req : ShmemReq A N) :
    Except Fault (Dir A N) := do
  let msgTime := d.clock
  let (e, d) := d.getDirectoryEntry cfg req.address
  require (e.isNone) .entryExists
  let (replacedAddress, _) ← fetch (replacementCandidate (fun a ↦ (d.queue a).length)
    (d.cache.getReplacementCandidates cfg.directory req.address)) .noReplacementCandidate
  let cache ← d.cache.replaceDirectoryEntry cfg.directory cfg.freshEntry replacedAddress req.address
  let d := { d with cache, clock := d.clock + cfg.directoryDelay }
  let nullifyReq : ShmemReq A N :=
    ⟨.nullifyReq, req.requester, replacedAddress, cfg.capacityModeled, msgTime⟩
  let d := d.enqueue replacedAddress nullifyReq
  require ((d.queue replacedAddress).length = 1) .queueCount
  let (d, completed) ← d.processNullifyReq cfg nullifyReq
  if completed then d.dequeue replacedAddress else return d

/-- The entry of the line of a request, allocated if there is none. -/
def entryFor (req : ShmemReq A N) : Except Fault (Entry × Dir A N) := do
  match d.getDirectoryEntry cfg req.address with
  | (some e, d) => return (e, d)
  | (none, d) =>
    let d ← d.processDirectoryEntryAllocationReq cfg req
    return (cfg.freshEntry, d)

/-! ### Requests -/

/-- `retrieveDataAndSendToL2Cache`: the data comes from a reply or from DRAM. -/
def retrieveDataAndSendToL2Cache (type : MsgType) (req : ShmemReq A N)
    (cachedData : Option Block) : Except Fault (Dir A N) :=
  match cachedData with
  | some data => d.sendMsg req.requester.val (message type req (some data))
  | none =>
    let (data, d) := d.getDataFromDram env req.address req.modeled
    d.sendMsg req.requester.val (message type req (some data))

/-- `processExReqFromL2Cache` once the entry of the line is known. -/
def serveExReq (e : Entry) (req : ShmemReq A N) (cachedData : Option Block) :
    Except Fault (Dir A N × Bool) := do
  match e.dstate with
  | .modified =>
    require (cachedData.isNone) .cachedData
    let d ← d.sendMsg e.owner (message .flushReq req none)
    return (d, false)
  | .shared =>
    require (cachedData.isNone) .cachedData
    let d ← d.sendInvReqs e req
    return (d, false)
  | .uncached =>
    let (added, e) ← e.addSharer req.requester.val
    require (added = true) .addResult
    let e ← e.setOwner req.requester.val
    let d := d.putEntry cfg req.address { e with dstate := .modified }
    let d ← d.retrieveDataAndSendToL2Cache env .exRep req cachedData
    return (d, true)
  | _ => .error .directoryState

/-- `processExReqFromL2Cache`. -/
def processExReqFromL2Cache (req : ShmemReq A N) (cachedData : Option Block) :
    Except Fault (Dir A N × Bool) := do
  let (e, d) ← d.entryFor cfg req
  d.serveExReq cfg env e req cachedData

/-- `processShReqFromL2Cache` once the entry of the line is known. -/
def serveShReq (e : Entry) (req : ShmemReq A N) (cachedData : Option Block) :
    Except Fault (Dir A N × Bool) := do
  match e.dstate with
  | .modified =>
    require (cachedData.isNone) .cachedData
    let d ← d.sendMsg e.owner (message .wbReq req none)
    return (d, false)
  | .shared =>
    let (added, e) ← e.addSharer req.requester.val
    if added then
      let d := d.putEntry cfg req.address e
      let d ← d.retrieveDataAndSendToL2Cache env .shRep req cachedData
      return (d, true)
    else
      let (sharerId, e) ← e.getOneSharer
      let d := d.putEntry cfg req.address e
      let d ← d.sendMsg sharerId (message .invReq req none)
      return (d, false)
  | .uncached =>
    let (added, e) ← e.addSharer req.requester.val
    require (added = true) .addResult
    let d := d.putEntry cfg req.address { e with dstate := .shared }
    let d ← d.retrieveDataAndSendToL2Cache env .shRep req cachedData
    return (d, true)
  | _ => .error .directoryState

/-- `processShReqFromL2Cache`. -/
def processShReqFromL2Cache (req : ShmemReq A N) (cachedData : Option Block) :
    Except Fault (Dir A N × Bool) := do
  let (e, d) ← d.entryFor cfg req
  d.serveShReq cfg env e req cachedData

/-- The request of a tile is processed according to its type. -/
def processReq (req : ShmemReq A N) : Except Fault (Dir A N × Bool) :=
  match req.type with
  | .exReq => d.processExReqFromL2Cache cfg env req none
  | .shReq => d.processShReqFromL2Cache cfg env req none
  | _ => .error .unrecognizedRequest

/-- The times of the front request and of the clock are brought up to each other. -/
def touchFront (a : A) (req : ShmemReq A N) (rest : List (ShmemReq A N)) :
    ShmemReq A N × Dir A N :=
  let req := { req with time := max req.time d.clock }
  (req, { d.setQueue a (req :: rest) with clock := max d.clock req.time })

/-- `processNextReqFromL2Cache`: the completed request is removed, and the next one processed, until
one has to wait. The number of rounds is bounded by the length of the queue. -/
def processNextReqFromL2Cache (a : A) : ℕ → Dir A N → Except Fault (Dir A N)
  | 0, _ => .error .queueCount
  | n + 1, d =>
    match d.queue a with
    | [] => .error .queueCount
    | [_] => return d.setQueue a []
    | _ :: req :: rest => do
      let (req, d) := d.touchFront a req rest
      let (d, completed) ← d.processReq cfg env req
      if completed then processNextReqFromL2Cache a n d else return d

/-- What follows the attempt to serve the front request. -/
def afterReq (a : A) (r : Dir A N × Bool) : Except Fault (Dir A N) :=
  if r.2 then processNextReqFromL2Cache cfg env a (r.1.queue a).length r.1 else return r.1

/-! ### Messages to the directory -/

/-- An EX_REQ or SH_REQ. -/
def handleReqFromL2Cache (m : ShmemMsg A N) : Except Fault (Dir A N) := do
  require (m.data = none) .messageData
  let req : ShmemReq A N := ⟨m.type, m.requester, m.address, m.modeled, d.clock⟩
  let d := d.enqueue m.address req
  if (d.queue m.address).length = 1 then
    let r ← d.processReq cfg env req
    afterReq cfg env m.address r
  else return d

/-- `processInvRepFromL2Cache` once the sharer is removed: an EX_REQ or NULLIFY that waits for the
line is tried again when the last sharer is gone, an SH_REQ at once. -/
def resumeAfterInvRep (e : Entry) (a : A) : Except Fault (Dir A N) :=
  match d.queue a with
  | [] => return d
  | req :: rest => do
    let (req, d) := d.touchFront a req rest
    match req.type with
    | .exReq =>
      if e.dstate = .uncached then
        let r ← d.processExReqFromL2Cache cfg env req none
        afterReq cfg env a r
      else return d
    | .shReq =>
      let r ← d.processShReqFromL2Cache cfg env req none
      afterReq cfg env a r
    | _ =>
      if e.dstate = .uncached then
        let r ← d.processNullifyReq cfg req
        afterReq cfg env a r
      else return d

/-- `processInvRepFromL2Cache`. -/
def processInvRepFromL2Cache (sender : Fin N) (m : ShmemMsg A N) :
    Except Fault (Dir A N) := do
  let (e, d) := d.getDirectoryEntry cfg m.address
  let e ← fetch e .noEntry
  require (e.dstate = .shared) .directoryState
  let e ← e.removeSharer sender.val false
  let e := if e.sharers.getNumSharers = 0 then { e with dstate := .uncached } else e
  (d.putEntry cfg m.address e).resumeAfterInvRep cfg env e m.address

/-- `processFlushRepFromL2Cache` once the owner is removed: the data goes to the EX_REQ at the front
of the queue, or to DRAM. -/
def resumeAfterFlushRep (a : A) (data : Block) : Except Fault (Dir A N) :=
  match d.queue a with
  | [] => d.putDataToDram a data
  | req :: rest => do
    let (req, d) := d.touchFront a req rest
    match req.type with
    | .exReq =>
      let r ← d.processExReqFromL2Cache cfg env req (some data)
      afterReq cfg env a r
    | .shReq =>
      let d ← d.putDataToDram a data
      let r ← d.processShReqFromL2Cache cfg env req (some data)
      afterReq cfg env a r
    | _ =>
      let d ← d.putDataToDram a data
      let r ← d.processNullifyReq cfg req
      afterReq cfg env a r

/-- `processFlushRepFromL2Cache`. -/
def processFlushRepFromL2Cache (sender : Fin N) (m : ShmemMsg A N) :
    Except Fault (Dir A N) := do
  let data ← fetch m.data .messageData
  let (e, d) := d.getDirectoryEntry cfg m.address
  let e ← fetch e .noEntry
  require (e.dstate = .modified) .directoryState
  let e ← e.removeSharer sender.val false
  let e ← e.setOwner invalidTileId
  (d.putEntry cfg m.address { e with dstate := .uncached }).resumeAfterFlushRep cfg env m.address data

/-- `processWbRepFromL2Cache` once the entry is SHARED: the data goes to DRAM and to the SH_REQ that
has asked for it. -/
def resumeAfterWbRep (a : A) (data : Block) : Except Fault (Dir A N) :=
  match d.queue a with
  | [] => .error .queueCount
  | req :: rest => do
    let (req, d) := d.touchFront a req rest
    let d ← d.putDataToDram a data
    require (req.type = .shReq) .unrecognizedRequest
    let r ← d.processShReqFromL2Cache cfg env req (some data)
    afterReq cfg env a r

/-- `processWbRepFromL2Cache`. -/
def processWbRepFromL2Cache (sender : Fin N) (m : ShmemMsg A N) :
    Except Fault (Dir A N) := do
  let data ← fetch m.data .messageData
  let (e, d) := d.getDirectoryEntry cfg m.address
  let e ← fetch e .noEntry
  require (e.dstate = .modified) .directoryState
  let present ← e.sharers.hasSharer sender.val
  require (present = true) .senderNotSharer
  let e ← e.setOwner invalidTileId
  (d.putEntry cfg m.address { e with dstate := .shared }).resumeAfterWbRep cfg env m.address data

/-- `DramDirectoryCntlr::handleMsgFromL2Cache`. -/
def handleMsgFromL2Cache (sender : Fin N) (m : ShmemMsg A N) :
    Except Fault (Dir A N) :=
  match m.type with
  | .exReq => d.handleReqFromL2Cache cfg env m
  | .shReq => d.handleReqFromL2Cache cfg env m
  | .invRep => d.processInvRepFromL2Cache cfg env sender m
  | .flushRep => d.processFlushRepFromL2Cache cfg env sender m
  | .wbRep => d.processWbRepFromL2Cache cfg env sender m
  | _ => .error .unrecognizedMsg

end Dir

end CarbonSim.Msi
