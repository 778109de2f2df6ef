import CarbonSim.Cache.CacheState
import CarbonSim.Directory.DirectoryCache

/-!
# Messages and configuration of the private-L2 MSI protocol

`ShmemMsg` with its sender and receiver components, the packets that carry it, and the parameters of
the memory subsystem. What a run may choose freely in one step (the delay of the network, the ways
picked by the replacement policies, the latencies of DRAM) is collected in `Env`.
-/

namespace CarbonSim.Msi

open Directory

/-- `ShmemMsg::Type`. -/
inductive MsgType
  | exReq
  | shReq
  | invReq
  | flushReq
  | wbReq
  | exRep
  | shRep
  | upgradeRep
  | invRep
  | flushRep
  | wbRep
  | nullifyReq
  deriving DecidableEq, Repr

/-- The sender and receiver components of a message. -/
inductive Route
  /-- From an L1 cache to the L2 cache of the same tile. -/
  | fromL1 (comp : L1Kind)
  /-- From an L2 cache to a directory. -/
  | toDirectory
  /-- From a directory to an L2 cache. -/
  | fromDirectory
  deriving DecidableEq, Repr

/-- `ShmemMsg`; the data has the length of a cache line. -/
structure ShmemMsg (A : Type) (N : ℕ) where
  type : MsgType
  route : Route
  requester : Fin N
  address : A
  data : Option Block
  modeled : Bool

/-- A message in the network, with the time at which it was sent. -/
structure Packet (A : Type) (N : ℕ) where
  msg : ShmemMsg A N
  time : ℕ

/-- A packet and its receiver. -/
structure Send (A : Type) (N : ℕ) where
  receiver : Fin N
  packet : Packet A N

/-- `CachePerfModel::CacheAccess_t`. -/
inductive CacheAccess
  | tags
  | dataAndTags
  deriving DecidableEq, Repr

/-- The caches of a tile. `l1Cost` and `l2Cost` are the latencies of the performance models. -/
structure TileConfig (A : Type) where
  l1 : L1Kind → Geometry A
  l2 : Geometry A
  lineSize : ℕ
  l1Cost : L1Kind → CacheAccess → ℕ
  l2Cost : CacheAccess → ℕ

/-- The memory subsystem. -/
structure Config (A : Type) (N : ℕ) where
  tile : Fin N → TileConfig A
  home : A → Fin N
  directory : Geometry A
  scheme : Scheme
  maxHwSharers : ℕ
  directoryDelay : ℕ
  softwareTrapPenalty : ℕ
  /-- `isMissTypeModeled(CAPACITY_MISS)`. -/
  capacityModeled : Bool

/-- What the network, the replacement policies and the DRAM queue contribute to one step. -/
structure Env (A : Type) where
  delay : ℕ
  l1Way : L1Kind → ℕ
  l2Way : ℕ
  dramLatency : A → ℕ → ℕ

variable {A : Type} {N : ℕ}

/-- The replacement policies of a tile pick ways that exist. -/
structure Env.Valid (cfg : TileConfig A) (env : Env A) : Prop where
  l1Way : ∀ comp, env.l1Way comp ∈ (cfg.l1 comp).scan
  l2Way : env.l2Way ∈ cfg.l2.scan

/-- A new entry of the directory; every tile may share a line. -/
def Config.freshEntry (cfg : Config A N) : Entry := Entry.create cfg.scheme cfg.maxHwSharers N

namespace ShmemMsg

/-- The messages that the controllers of tile `src` send to tile `dst`. -/
structure WF (home : A → Fin N) (src dst : Fin N) (m : ShmemMsg A N) : Prop where
  /-- The type belongs to the route, and the data to the type. -/
  shape : match m.route, m.type with
    | .fromL1 _, .exReq | .fromL1 _, .shReq | .toDirectory, .exReq | .toDirectory, .shReq
    | .toDirectory, .invRep | .fromDirectory, .invReq | .fromDirectory, .flushReq
    | .fromDirectory, .wbReq => m.data = none
    | .toDirectory, .flushRep | .toDirectory, .wbRep | .fromDirectory, .exRep
    | .fromDirectory, .shRep => m.data.isSome
    | _, _ => False
  /-- Messages of an L1 stay in the tile, the others go to or come from the home of the line. -/
  ends : match m.route with
    | .fromL1 _ => src = dst
    | .toDirectory => dst = home m.address
    | .fromDirectory => src = home m.address
  requester : m.type = .exReq ∨ m.type = .shReq → m.requester = src

end ShmemMsg

end CarbonSim.Msi
