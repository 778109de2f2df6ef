import CarbonSim.Lib.StoreForward

/-!
# Packets and the network of tiles

The part of the network that all routing models share. `Network::netSend` hands a packet to
`forwardPacket`, or one packet for each tile when the model cannot broadcast. `forwardPacket` asks
`NetworkModel::__routePacket` for the next hops and sends a copy of the packet to each; a tile that
pulls a packet from the transport receives it if its node type is `RECEIVE_TILE` and forwards it
otherwise. `processCornerCases` sends packets to the sender itself, and from and to the system tiles,
directly; all others go through the `routePacket` of the model.

Times, delays and counters are not modelled here: they do not influence where a packet goes. The
shared-memory shortcut is disabled.
-/

namespace CarbonSim.Network

/-- The receiver of a packet: `TILE_ID(pkt.receiver)` is a tile or `NetPacket::BROADCAST`. -/
inductive Receiver where
  | tile (id : ℕ)
  | broadcast
  deriving DecidableEq

/-- The node types of all models: what a tile is to do with a packet. -/
inductive NodeType where
  | sendTile
  | receiveTile
  | emesh
  | sendHub
  | receiveHub
  deriving DecidableEq

/-- The asserts and errors on the way of a packet. -/
inductive NetFault where
  /-- `pkt_sender == _tile_id` in `__routePacket` and `processCornerCases`. -/
  | notSender
  /-- The sender is an application tile, and the receiver another one or `BROADCAST`. -/
  | notBetweenApplicationTiles
  /-- `Unrecognized Node Type`. -/
  | unrecognizedNodeType
  /-- The output port is one of the links. -/
  | outputPort
  /-- `next_dest._tile_id != INVALID_TILE_ID`. -/
  | invalidTile
  /-- The tile is in the cluster of the sender. -/
  | notInClusterOfSender
  /-- The laser can neither unicast nor broadcast. -/
  | unsupportedLaserMode
  /-- The number of tiles in a cluster is the cluster size. -/
  | tileListSize
  /-- The receiver is in the tile list of its cluster. -/
  | receiverNotFound
  /-- The number of receive networks, a divisor, is zero. -/
  | divisionByZero
  deriving DecidableEq

/-- A packet with its payload; `nodeType` changes on the way. -/
structure NetPacket (Data : Type) where
  sender : ℕ
  receiver : Receiver
  nodeType : NodeType
  data : Data
  deriving DecidableEq

/-- The next tile of a packet and its node type there. -/
structure Hop where
  nextTileId : ℕ
  nextNodeType : NodeType
  deriving DecidableEq

/-- The numbers of tiles: the application tiles come first, then the system tiles. -/
structure TileCounts where
  applicationTiles : ℕ
  totalTiles : ℕ
  application_le_total : applicationTiles ≤ totalTiles

namespace TileCounts

variable (tiles : TileCounts)

def isApplicationTile (id : ℕ) : Prop := id < tiles.applicationTiles

/-- The thread spawners and the MCP. -/
def isSystemTile (id : ℕ) : Prop := tiles.applicationTiles ≤ id ∧ id < tiles.totalTiles

instance (id : ℕ) : Decidable (tiles.isApplicationTile id) := Nat.decLt _ _

instance (id : ℕ) : Decidable (tiles.isSystemTile id) := inferInstanceAs (Decidable (_ ∧ _))

/-- A packet may go between these through the routing model. -/
def BetweenApplicationTiles (sender : ℕ) : Receiver → Prop
  | .tile r => tiles.isApplicationTile sender ∧ tiles.isApplicationTile r ∧ sender ≠ r
  | .broadcast => tiles.isApplicationTile sender

instance (sender : ℕ) : (receiver : Receiver) →
    Decidable (tiles.BetweenApplicationTiles sender receiver)
  | .tile _ => inferInstanceAs (Decidable (_ ∧ _))
  | .broadcast => inferInstanceAs (Decidable (_ < _))

end TileCounts

/-- What the network models differ in. -/
structure NetworkModel where
  tiles : TileCounts
  hasBroadcastCapability : Bool
  /-- `routePacket` at a tile, for a sender, a receiver and a node type. -/
  routePacket : ℕ → ℕ → Receiver → NodeType → Except NetFault (List Hop)

namespace NetworkModel

variable (model : NetworkModel) {Data : Type}

variable (tileId : ℕ)

variable (pkt : NetPacket Data)

/-- The hops that need no routing, and whether the packet is finished with them. -/
def processCornerCases :
    Except NetFault (Bool × List Hop) := do
  require (pkt.sender = tileId) .notSender
  match pkt.receiver with
  | .tile r =>
    if pkt.sender = r then
      return (true, [⟨r, .receiveTile⟩])
    else if model.tiles.isSystemTile pkt.sender then
      return (true, [⟨r, .receiveTile⟩])
    else if model.tiles.isSystemTile r then
      return (true, [⟨r, .receiveTile⟩])
    else do
      require (model.tiles.BetweenApplicationTiles pkt.sender (.tile r)) .notBetweenApplicationTiles
      return (false, [])
  | .broadcast =>
    if model.tiles.isSystemTile pkt.sender then
      return (true, (List.range model.tiles.totalTiles).map (⟨·, .receiveTile⟩))
    else do
      require (model.tiles.BetweenApplicationTiles pkt.sender .broadcast)
        .notBetweenApplicationTiles
      return (false, (List.range' model.tiles.applicationTiles
        (model.tiles.totalTiles - model.tiles.applicationTiles)).map (⟨·, .receiveTile⟩))

/-- The end of `__routePacket`: the packet goes through the routing model. -/
def routeBetweenApplicationTiles :
    Except NetFault (List Hop) := do
  require (model.tiles.BetweenApplicationTiles pkt.sender pkt.receiver) .notBetweenApplicationTiles
  model.routePacket tileId pkt.sender pkt.receiver pkt.nodeType

/-- `__routePacket`: the next hops of a packet at a tile. -/
def routePacketAt : Except NetFault (List Hop) :=
  if pkt.nodeType = .sendTile then do
    require (pkt.sender = tileId) .notSender
    let (processed, hops) ← model.processCornerCases tileId pkt
    if processed then
      return hops
    else do
      let more ← model.routeBetweenApplicationTiles tileId pkt
      return hops ++ more
  else
    model.routeBetweenApplicationTiles tileId pkt

/-- The copies of a packet that a tile hands to the transport, with the tiles they go to. -/
def forwardPacket :
    Except NetFault (List (ℕ × NetPacket Data)) := do
  let hops ← model.routePacketAt tileId pkt
  return hops.map fun hop ↦ (hop.nextTileId, { pkt with nodeType := hop.nextNodeType })

/-- Send a packet; a broadcast goes as one packet to each tile if the model cannot broadcast. -/
def netSend :
    Except NetFault (List (ℕ × NetPacket Data)) :=
  if pkt.receiver = .broadcast ∧ ¬ model.hasBroadcastCapability then do
    let hops ← (List.range model.tiles.totalTiles).mapM fun i ↦
      model.forwardPacket tileId { pkt with receiver := .tile i }
    return hops.flatten
  else
    model.forwardPacket tileId pkt

/-- A packet that is pulled from the transport is received or forwarded. -/
def isPacketReadyToBeReceived : Bool := pkt.nodeType = .receiveTile

/-- All tiles, each of which sends, pulls, receives and forwards packets. -/
def network (Data : Type) : StoreForward.Network ℕ (NetPacket Data) NetFault where
  ready := isPacketReadyToBeReceived
  send := model.netSend
  route := model.forwardPacket

end NetworkModel

end CarbonSim.Network
