import CarbonSim.Lib.Grid
import CarbonSim.Network.NetPacket

/-!
# The electrical mesh

`NetworkModelEMeshHopByHop`. The application tiles form a mesh, numbered row by row. A unicast first
moves along its row and then along the column of its receiver. A broadcast has no table of where it
goes: each tile sends it up and down, away from the row of the sender, and in this row also to the
left and to the right, away from the sender.

`routePacket_unicast` and `routePacket_broadcast` give the hops in terms of the routes of a grid.
-/

namespace CarbonSim.Network

/-- The output ports of a mesh router. -/
inductive OutputDirection where
  | self
  | left
  | right
  | down
  | up
  deriving DecidableEq

/-- The number of the port. -/
def OutputDirection.port : OutputDirection → ℕ
  | .self => 0
  | .left => 1
  | .right => 2
  | .down => 3
  | .up => 4

/-- A neighbour, `none` for `INVALID_TILE_ID`, with the port to it and the node type there. -/
structure NextDest where
  tileId : Option ℕ
  outputPort : OutputDirection
  nodeType : NodeType

/-- The parameters of the mesh. -/
structure EMesh where
  meshWidth : ℕ
  meshHeight : ℕ
  systemTiles : ℕ
  broadcastTreeEnabled : Bool

namespace EMesh

/-- The width and height for a number of application tiles, if it is `width * height`. -/
def initializeEMeshTopologyParams (numApplicationTiles : ℕ) : Option (ℕ × ℕ) :=
  let meshWidth := Nat.sqrt numApplicationTiles
  let meshHeight := (numApplicationTiles + meshWidth - 1) / meshWidth
  if numApplicationTiles = meshWidth * meshHeight then some (meshWidth, meshHeight) else none

/-- An accepted mesh has as many tiles as there are application tiles. -/
theorem mul_eq_of_initializeEMeshTopologyParams {n meshWidth meshHeight : ℕ}
    (haccepted : initializeEMeshTopologyParams n = some (meshWidth, meshHeight)) :
    meshWidth * meshHeight = n := by
  unfold initializeEMeshTopologyParams at haccepted
  simp only at haccepted
  split_ifs at haccepted with hproduct
  simp only [Option.some.injEq, Prod.mk.injEq] at haccepted
  rw [← haccepted.1, ← haccepted.2]
  exact hproduct.symm

variable (mesh : EMesh)

def tiles : TileCounts where
  applicationTiles := mesh.meshWidth * mesh.meshHeight
  totalTiles := mesh.meshWidth * mesh.meshHeight + mesh.systemTiles
  application_le_total := Nat.le_add_right _ _

/-- The column and the row of a tile. -/
def computePosition (tileId : ℕ) : ℕ × ℕ := (tileId % mesh.meshWidth, tileId / mesh.meshWidth)

def computeTileID (x y : ℤ) : Option ℕ :=
  if x < 0 ∨ y < 0 ∨ (mesh.meshWidth : ℤ) ≤ x ∨ (mesh.meshHeight : ℤ) ≤ y then
    none
  else
    some (y * mesh.meshWidth + x).toNat

/-- The mesh router has five ports, each with a link. -/
def numMeshRouterPorts : ℕ := 5

/-- Where a broadcast goes next, some of it perhaps out of the mesh. -/
def nextDestList (tileId sender : ℕ) : List NextDest :=
  let (sx, sy) := mesh.computePosition sender
  let (cx, cy) := mesh.computePosition tileId
  (if sy ≤ cy then [⟨mesh.computeTileID cx (cy + 1), .up, .emesh⟩] else []) ++
  (if cy ≤ sy then [⟨mesh.computeTileID cx (cy - 1), .down, .emesh⟩] else []) ++
  (if cy = sy then
    (if sx ≤ cx then [⟨mesh.computeTileID (cx + 1) cy, .right, .emesh⟩] else []) ++
    (if cx ≤ sx then [⟨mesh.computeTileID (cx - 1) cy, .left, .emesh⟩] else [])
  else []) ++
  [⟨some tileId, .self, .receiveTile⟩]

/-- Where a unicast goes next. -/
def nextDest (tileId receiver : ℕ) : NextDest :=
  let (cx, cy) := mesh.computePosition tileId
  let (dx, dy) := mesh.computePosition receiver
  if dx < cx then ⟨mesh.computeTileID (cx - 1) cy, .left, .emesh⟩
  else if cx < dx then ⟨mesh.computeTileID (cx + 1) cy, .right, .emesh⟩
  else if dy < cy then ⟨mesh.computeTileID cx (cy - 1), .down, .emesh⟩
  else if cy < dy then ⟨mesh.computeTileID cx (cy + 1), .up, .emesh⟩
  else ⟨some tileId, .self, .receiveTile⟩

def routePacket (tileId sender : ℕ) (receiver : Receiver) :
    NodeType → Except NetFault (List Hop)
  | .sendTile => .ok [⟨tileId, .emesh⟩]
  | .emesh =>
    match receiver with
    | .broadcast =>
      .ok ((mesh.nextDestList tileId sender).filterMap fun dest ↦
        dest.tileId.map fun next ↦ ⟨next, dest.nodeType⟩)
    | .tile r => do
      let dest := mesh.nextDest tileId r
      require (dest.outputPort.port < numMeshRouterPorts) .outputPort
      let next ← fetch dest.tileId .invalidTile
      return [⟨next, dest.nodeType⟩]
  | _ => .error .unrecognizedNodeType

def model : NetworkModel where
  tiles := mesh.tiles
  hasBroadcastCapability := mesh.broadcastTreeEnabled
  routePacket := mesh.routePacket

@[simp] theorem model_tiles : mesh.model.tiles = mesh.tiles := rfl

/-! ### Tiles and points -/

/-- The tile at a point of the mesh. -/
def tileAt (point : Grid.Point) : ℕ := point.2 * mesh.meshWidth + point.1

/-- The tile is on the route from `s` to `r`. -/
abbrev OnRoute (s r tile : ℕ) : Prop :=
  Grid.OnPath (mesh.computePosition s) (mesh.computePosition r) (mesh.computePosition tile)

/-- The number of hops from one tile to another. -/
abbrev far (s r : ℕ) : ℕ := Grid.dist (mesh.computePosition s) (mesh.computePosition r)

/-- The next tile on the way to `r`. -/
abbrev nextTile (tile r : ℕ) : ℕ :=
  mesh.tileAt (Grid.step (mesh.computePosition tile) (mesh.computePosition r))

/-- Where a broadcast of `s` goes from a tile. -/
abbrev branches (s tile : ℕ) : List Grid.Point :=
  Grid.children mesh.meshWidth mesh.meshHeight (mesh.computePosition s) (mesh.computePosition tile)

variable {mesh} {v s r : ℕ}

theorem inside_computePosition (hv : mesh.tiles.isApplicationTile v) :
    Grid.Inside mesh.meshWidth mesh.meshHeight (mesh.computePosition v) := by
  have hlt : v < mesh.meshWidth * mesh.meshHeight := hv
  have hwidth : 0 < mesh.meshWidth := by
    apply Nat.pos_of_ne_zero
    intro hzero
    rw [hzero, Nat.zero_mul] at hlt
    exact Nat.not_lt_zero v hlt
  exact ⟨Nat.mod_lt v hwidth, Nat.div_lt_of_lt_mul hlt⟩

theorem tileAt_computePosition (v : ℕ) : mesh.tileAt (mesh.computePosition v) = v :=
  Nat.div_add_mod' v mesh.meshWidth

theorem computePosition_tileAt {point : Grid.Point}
    (hinside : Grid.Inside mesh.meshWidth mesh.meshHeight point) :
    mesh.computePosition (mesh.tileAt point) = point := by
  have hlt := hinside.1
  unfold computePosition tileAt
  apply Prod.ext
  · rw [Nat.mul_comm, Nat.mul_add_mod, Nat.mod_eq_of_lt hlt]
  · rw [Nat.mul_comm, Nat.mul_add_div (Nat.zero_lt_of_lt hlt), Nat.div_eq_of_lt hlt, Nat.add_zero]

theorem isApplicationTile_tileAt {point : Grid.Point}
    (hinside : Grid.Inside mesh.meshWidth mesh.meshHeight point) :
    mesh.tiles.isApplicationTile (mesh.tileAt point) := by
  obtain ⟨hx, hy⟩ := hinside
  have hrows : (point.2 + 1) * mesh.meshWidth ≤ mesh.meshHeight * mesh.meshWidth :=
    Nat.mul_le_mul_right _ hy
  rw [Nat.add_one_mul, Nat.mul_comm mesh.meshHeight] at hrows
  show point.2 * mesh.meshWidth + point.1 < mesh.meshWidth * mesh.meshHeight
  omega

/-- Different tiles are at different points. -/
theorem computePosition_inj (h : mesh.computePosition v = mesh.computePosition r) : v = r := by
  rw [← tileAt_computePosition v, h, tileAt_computePosition]

theorem computePosition_ne (mesh : EMesh) (h : v ≠ r) :
    mesh.computePosition v ≠ mesh.computePosition r := fun heq ↦ h (computePosition_inj heq)

theorem computeTileID_of_inside {x y : ℕ}
    (hinside : Grid.Inside mesh.meshWidth mesh.meshHeight (x, y)) :
    mesh.computeTileID x y = some (mesh.tileAt (x, y)) := by
  obtain ⟨hx, hy⟩ := hinside
  unfold computeTileID
  rw [if_neg (by simp only at hx hy; omega)]
  rfl

/-! ### The neighbours of a tile -/

section Neighbours

variable {x y : ℕ} (hinside : Grid.Inside mesh.meshWidth mesh.meshHeight (x, y))
include hinside

theorem computeTileID_up :
    mesh.computeTileID x (y + 1) =
      if y + 1 < mesh.meshHeight then some (mesh.tileAt (x, y + 1)) else none := by
  split_ifs with hy
  · exact computeTileID_of_inside ⟨hinside.1, hy⟩
  · exact if_pos (.inr (.inr (.inr (by omega))))

theorem computeTileID_down :
    mesh.computeTileID x (y - 1) = if 0 < y then some (mesh.tileAt (x, y - 1)) else none := by
  split_ifs with hy
  · have hrow : ((y : ℤ) - 1) = ((y - 1 : ℕ) : ℤ) := by omega
    rw [hrow]
    exact computeTileID_of_inside ⟨hinside.1, Nat.lt_of_le_of_lt (Nat.sub_le y 1) hinside.2⟩
  · exact if_pos (.inr (.inl (by omega)))

theorem computeTileID_right :
    mesh.computeTileID (x + 1) y =
      if x + 1 < mesh.meshWidth then some (mesh.tileAt (x + 1, y)) else none := by
  split_ifs with hx
  · exact computeTileID_of_inside ⟨hx, hinside.2⟩
  · exact if_pos (.inr (.inr (.inl (by omega))))

theorem computeTileID_left :
    mesh.computeTileID (x - 1) y = if 0 < x then some (mesh.tileAt (x - 1, y)) else none := by
  split_ifs with hx
  · have hcolumn : ((x : ℤ) - 1) = ((x - 1 : ℕ) : ℤ) := by omega
    rw [hcolumn]
    exact computeTileID_of_inside ⟨Nat.lt_of_le_of_lt (Nat.sub_le x 1) hinside.1, hinside.2⟩
  · exact if_pos (.inl (by omega))

end Neighbours

/-- A hop to a neighbour, if there is one. -/
theorem filterMap_ite_nextDest {c c' : Prop} [Decidable c] [Decidable c'] {next : Option ℕ}
    {tile : ℕ} (hnext : next = if c' then some tile else none) (port : OutputDirection)
    (t : NodeType) :
    (if c then [(⟨next, port, t⟩ : NextDest)] else []).filterMap (fun dest ↦
        dest.tileId.map fun next ↦ (⟨next, dest.nodeType⟩ : Hop)) =
      if c ∧ c' then [⟨tile, t⟩] else [] := by
  subst hnext
  by_cases hc : c
  · by_cases hc' : c'
    all_goals simp [hc, hc']
  · simp [hc]

/-- A broadcast goes to the children of the tile in the tree of routes, and to the tile itself. -/
theorem routePacket_broadcast (hv : mesh.tiles.isApplicationTile v) (s : ℕ) :
    mesh.routePacket v s .broadcast .emesh =
      .ok ((mesh.branches s v).map (⟨mesh.tileAt ·, .emesh⟩) ++ [⟨v, .receiveTile⟩]) := by
  have hinside := inside_computePosition hv
  unfold routePacket nextDestList branches Grid.children
  generalize mesh.computePosition v = point at hinside ⊢
  generalize mesh.computePosition s = start
  obtain ⟨cx, cy⟩ := point
  obtain ⟨sx, sy⟩ := start
  have hmap : ∀ (c : Prop) [Decidable c] (point : Grid.Point),
      (if c then [point] else []).map (fun next ↦ (⟨mesh.tileAt next, .emesh⟩ : Hop)) =
        if c then [⟨mesh.tileAt point, .emesh⟩] else [] := by
    intro c _ point
    split_ifs <;> rfl
  simp only [List.filterMap_append, List.map_append, hmap,
    filterMap_ite_nextDest (computeTileID_up hinside),
    filterMap_ite_nextDest (computeTileID_down hinside)]
  congr 1
  by_cases hrow : cy = sy
  · simp only [hrow, if_true, true_and, List.filterMap_append,
      filterMap_ite_nextDest (computeTileID_right (hrow ▸ hinside)),
      filterMap_ite_nextDest (computeTileID_left (hrow ▸ hinside))]
    simp only [List.append_assoc]
    rfl
  · simp only [hrow, if_false, false_and, List.filterMap_nil, List.append_nil]
    rfl

/-- A unicast is received by its receiver. -/
theorem nextDest_self (v : ℕ) : mesh.nextDest v v = ⟨some v, .self, .receiveTile⟩ := by
  unfold nextDest
  simp only [Nat.lt_irrefl, if_false]

/-- Elsewhere a unicast takes the next step of its route. -/
theorem nextDest_of_ne (hv : mesh.tiles.isApplicationTile v) (hr : mesh.tiles.isApplicationTile r)
    (hne : v ≠ r) :
    ∃ port, mesh.nextDest v r = ⟨some (mesh.nextTile v r), port, .emesh⟩ := by
  have hpoints := mesh.computePosition_ne hne
  have hinside := inside_computePosition hv
  have hinside' := inside_computePosition hr
  unfold nextDest nextTile
  generalize mesh.computePosition v = point at *
  generalize mesh.computePosition r = target at *
  obtain ⟨cx, cy⟩ := point
  obtain ⟨dx, dy⟩ := target
  obtain ⟨hdx, hdy⟩ := hinside'
  simp only [Grid.step, Grid.toward]
  by_cases hleft : dx < cx
  · refine ⟨.left, ?_⟩
    rw [if_pos hleft, if_pos (by omega), if_pos hleft, computeTileID_left hinside,
      if_pos (by omega)]
  rw [if_neg hleft]
  by_cases hright : cx < dx
  · refine ⟨.right, ?_⟩
    rw [if_pos hright, if_pos (by omega), if_neg hleft, if_pos hright,
      computeTileID_right hinside, if_pos (by simp only at hdx; omega)]
  rw [if_neg hright]
  have hcolumn : cx = dx := by omega
  by_cases hdown : dy < cy
  · refine ⟨.down, ?_⟩
    rw [if_pos hdown, if_neg (by omega), if_pos hdown, computeTileID_down hinside,
      if_pos (by omega)]
  rw [if_neg hdown]
  have hup : cy < dy := by
    by_contra hup
    exact hpoints (Prod.ext hcolumn (by simp only; omega))
  refine ⟨.up, ?_⟩
  rw [if_pos hup, if_neg (by omega), if_neg hdown, if_pos hup, computeTileID_up hinside,
    if_pos (by simp only at hdy; omega)]

/-- A unicast takes the next step of its route, or it is received. -/
theorem routePacket_unicast (hv : mesh.tiles.isApplicationTile v)
    (hr : mesh.tiles.isApplicationTile r) (s : ℕ) :
    mesh.routePacket v s (.tile r) .emesh = .ok [if v = r then ⟨v, .receiveTile⟩
        else ⟨mesh.nextTile v r, .emesh⟩] := by
  have hport : (mesh.nextDest v r).outputPort.port < numMeshRouterPorts := by
    cases (mesh.nextDest v r).outputPort <;> decide
  unfold routePacket
  simp only [require, if_pos hport, bind, Except.bind]
  by_cases hself : v = r
  · subst hself
    rw [nextDest_self, if_pos rfl]
    rfl
  · obtain ⟨port, hdest⟩ := nextDest_of_ne hv hr hself
    rw [hdest, if_neg hself]
    rfl

end EMesh

end CarbonSim.Network
