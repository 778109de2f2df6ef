import CarbonSim.Lib.Dealing
import CarbonSim.Lib.Tiling
import CarbonSim.Network.AtacTopology

/-!
# The map of tiles to processes

`Config::GenerateTileMap`. The first network model that has a mapping of tiles to processes gives it,
otherwise the tiles are dealt out one by one. The mesh cuts itself into a grid of rectangles, with
the rows at the end cut among the processes that are left over; ATAC deals out its clusters. Then the
map is filled: with the tiles of the mapping below a bound, the thread spawners from this bound on,
and the MCP. In lite mode there are no thread spawners, and the bound is one less than the number of
application tiles: the loop over the thread spawners gives the last application tile to process 0.
-/

namespace CarbonSim.TileMap

open List Function

open Dealing (deal hand stripe Agrees)
open Network (AtacConfig Topology TopologyFault)

/-- The network models. -/
inductive NetworkType
  | magic
  | emeshHopCounter
  | emeshHopByHop
  | atac
  deriving DecidableEq, Repr

/-- The errors of the constructor of `Config`. -/
inductive MapFault
  /-- `ERROR: Use only 1 process in lite mode`. -/
  | liteProcesses
  /-- `assert(m_num_processes > 0)`. -/
  | noProcess
  /-- `assert(m_total_tiles > 0)`. -/
  | noTile
  /-- `ERROR: Problem using the network models specified in the cfg file`. -/
  | tileCount
  /-- The assertion of `initializeEMeshTopologyParams`. -/
  | mesh
  /-- The assertions of `initializeANetTopologyParams`. -/
  | topology (fault : TopologyFault)
  /-- `assert (tile_id < getApplicationTiles())`. -/
  | clusterTile
  /-- `assert(process_to_tile_mapping.size() == m_num_processes)`. -/
  | mappingSize
  /-- A process that does not exist. -/
  | processIndex
  /-- A tile that does not exist. -/
  | tileIndex
  deriving DecidableEq

/-- The parameters. -/
structure Config where
  full : Bool
  numProcesses : ℕ
  applicationTiles : ℕ
  networks : List NetworkType
  atac : AtacConfig

namespace Config

variable (cfg : Config)

/-- `m_total_tiles`, with the MCP and in full mode the thread spawners. -/
def totalTiles : ℕ := cfg.applicationTiles + 1 + if cfg.full then cfg.numProcesses else 0

/-- `getThreadSpawnerTileNum`. -/
def threadSpawnerTileNum (p : ℕ) : ℕ := cfg.totalTiles - (1 + cfg.numProcesses - p)

/-- The parameters of ATAC for this number of tiles. -/
def atacConfig : AtacConfig := { cfg.atac with applicationTiles := cfg.applicationTiles }

end Config

/-- `NetworkModel::isTileCountPermissible`. -/
def NetworkType.isTileCountPermissible (tileCount : ℕ) : NetworkType → Bool
  | .magic | .emeshHopCounter => true
  | .emeshHopByHop | .atac =>
    let width := Nat.sqrt tileCount
    let height := (tileCount + width - 1) / width
    tileCount = width * height

/-- The checks of the constructor before the map is generated. -/
def Config.check (cfg : Config) : Except MapFault Unit := do
  require (cfg.full = true ∨ cfg.numProcesses ≤ 1) .liteProcesses
  require (0 < cfg.numProcesses) .noProcess
  require (0 < cfg.applicationTiles) .noTile
  require (∀ net ∈ cfg.networks, net.isTileCountPermissible cfg.applicationTiles = true) .tileCount

/-- `process_to_tile_mapping[p].push_back(tile)`, for one pair after another. -/
def pushAll : List (ℕ × ℕ) → List (List ℕ) → Except MapFault (List (List ℕ))
  | [], mapping => .ok mapping
  | (p, tile) :: rest, mapping => do
    require (p < mapping.length) .processIndex
    pushAll rest (deal mapping p tile)

/-! ### The mesh -/

/-- The pairs that `NetworkModelEMeshHopByHop::computeProcessToTileMapping` pushes: first those of
the grid of processes, then those of the processes that are left. -/
def emeshPushes (meshWidth meshHeight processCount : ℕ) : List (ℕ × ℕ) :=
  let procMeshWidth := Nat.sqrt processCount
  let procMeshHeight := processCount / procMeshWidth
  let meshHeightL := meshHeight * procMeshWidth * procMeshHeight / processCount
  let procsLeft := processCount - procMeshWidth * procMeshHeight
  ((range procMeshWidth).flatMap fun i ↦ (range procMeshHeight).flatMap fun j ↦
    let sizeX := meshWidth / procMeshWidth
    let sizeY := meshHeightL / procMeshHeight
    let baseX := i * sizeX
    let baseY := j * sizeY
    let sizeX := if i = procMeshWidth - 1 then meshWidth - (procMeshWidth - 1) * sizeX else sizeX
    let sizeY :=
      if j = procMeshHeight - 1 then meshHeightL - (procMeshHeight - 1) * sizeY else sizeY
    (range sizeX).flatMap fun ii ↦ (range sizeY).map fun jj ↦
      (i + j * procMeshWidth, (baseX + ii) + (baseY + jj) * meshWidth)) ++
  (range procsLeft).flatMap fun k ↦ let i := procMeshWidth * procMeshHeight + k
    let sizeX := meshWidth / procsLeft
    let sizeY := meshHeight - meshHeightL
    let baseX := (i - procMeshWidth * procMeshHeight) * sizeX
    let baseY := meshHeightL
    let sizeX := if i = processCount - 1 then meshWidth - (procsLeft - 1) * sizeX else sizeX
    (range sizeX).flatMap fun ii ↦ (range sizeY).map fun jj ↦
      (i, (baseX + ii) + (baseY + jj) * meshWidth)

/-! ### ATAC -/

/-- The tiles that `getTileIDListInCluster` lists. -/
def clusterTiles (topo : Topology) (clusterId : ℕ) : List ℕ :=
  let clusterMeshWidth := topo.enetWidth / topo.clusterWidth
  let coreX := clusterId % clusterMeshWidth * topo.clusterWidth
  let coreY := clusterId / clusterMeshWidth * topo.clusterHeight
  (range topo.clusterWidth).flatMap fun i ↦ (range topo.clusterHeight).map fun j ↦
    (coreY + j) * topo.enetWidth + (coreX + i)

/-- The pairs that `NetworkModelAtac::computeProcessToTileMapping` pushes. -/
def atacPushes (topo : Topology) (processCount : ℕ) : List (ℕ × ℕ) :=
  (stripe processCount 0 (range topo.numClusters)).flatMap fun d ↦
    (clusterTiles topo d.2).map fun tile ↦ (d.1, tile)

/-- The tile in the middle of a cluster. -/
def getTileIDWithOpticalHub (topo : Topology) (clusterId : ℕ) : ℕ :=
  let clusterMeshWidth := topo.enetWidth / topo.clusterWidth
  let opticalHubX := clusterId % clusterMeshWidth * topo.clusterWidth + topo.clusterWidth / 2
  let opticalHubY := clusterId / clusterMeshWidth * topo.clusterHeight + topo.clusterHeight / 2
  opticalHubY * topo.enetWidth + opticalHubX

/-- `NetworkModelAtac::computeMemoryControllerPositions` after its initialization. -/
def computeMemoryControllerPositions (topo : Topology) (numMemoryControllers : ℕ) :
    Option (List ℕ) :=
  if numMemoryControllers ≤ topo.numClusters then
    some ((range numMemoryControllers).map (getTileIDWithOpticalHub topo))
  else none

/-! ### The mapping -/

/-- `NetworkModel::computeProcessToTileMapping`: what is pushed, if the model has a mapping. -/
def NetworkType.pushes (cfg : Config) : NetworkType → Except MapFault (Option (List (ℕ × ℕ)))
  | .magic | .emeshHopCounter => .ok none
  | .emeshHopByHop => do
    let (meshWidth, meshHeight) ←
      fetch (Network.EMesh.initializeEMeshTopologyParams cfg.applicationTiles) .mesh
    return some (emeshPushes meshWidth meshHeight cfg.numProcesses)
  | .atac => do
    let topo ← (cfg.atacConfig.initializeANetTopologyParams).mapError .topology
    require (∀ c < topo.numClusters, ∀ tile ∈ clusterTiles topo c, tile < cfg.applicationTiles)
      .clusterTile
    return some (atacPushes topo cfg.numProcesses)

/-- The loop over the networks, and the default: tiles are dealt one by one. -/
def Config.pushes (cfg : Config) : List NetworkType → Except MapFault (List (ℕ × ℕ))
  | [] => .ok (stripe cfg.numProcesses 0 (range cfg.totalTiles))
  | net :: rest => do
    match ← net.pushes cfg with
    | some pushes => return pushes
    | none => cfg.pushes rest

/-- `computeProcessToTileMapping`. -/
def Config.computeProcessToTileMapping (cfg : Config) : Except MapFault (List (List ℕ)) := do
  let pushes ← cfg.pushes cfg.networks
  pushAll pushes (replicate cfg.numProcesses [])

/-! ### The map -/

/-- `m_proc_to_tile_list_map` and `m_tile_to_proc_map`. -/
structure Map where
  procToTileList : List (List ℕ)
  tileToProc : List ℕ
  deriving DecidableEq

/-- A tile is assigned to a process. -/
def Map.assign (m : Map) (p tile : ℕ) : Except MapFault Map := do
  require (tile < m.tileToProc.length) .tileIndex
  require (p < m.procToTileList.length) .processIndex
  return ⟨deal m.procToTileList p tile, m.tileToProc.set tile p⟩

def Map.assignAll : List (ℕ × ℕ) → Map → Except MapFault Map
  | [], m => .ok m
  | (p, tile) :: rest, m => do
    let m ← m.assign p tile
    assignAll rest m

/-- The tiles of the mapping that are below the bound, each with its process. -/
def belowBound (mapping : List (List ℕ)) (bound : ℕ) : List (ℕ × ℕ) :=
  mapping.zipIdx.flatMap fun d ↦ (d.1.filter (· < bound)).map fun tile ↦ (d.2, tile)

/-- `GenerateTileMap`. -/
def Config.generateTileMap (cfg : Config) : Except MapFault Map := do
  let mapping ← cfg.computeProcessToTileMapping
  require (mapping.length = cfg.numProcesses) .mappingSize
  let bound := cfg.totalTiles - cfg.numProcesses - 1
  let m : Map := ⟨replicate cfg.numProcesses [], replicate cfg.totalTiles 0⟩
  let m ← m.assignAll (belowBound mapping bound)
  let m ← m.assignAll ((range (cfg.totalTiles - 1 - bound)).map fun k ↦ (k, bound + k))
  m.assign 0 (cfg.totalTiles - 1)

/-! ### Every mapping has every application tile once -/

/-- The pushes go to processes, and each tile up to some number from the application tiles on is
pushed once. -/
structure Spreads (cfg : Config) (pushes : List (ℕ × ℕ)) : Prop where
  process : ∀ d ∈ pushes, d.1 < cfg.numProcesses
  once : ∃ n, cfg.applicationTiles ≤ n ∧ (pushes.map Prod.snd).Perm (range n)

theorem pushAll_ok (pushes : List (ℕ × ℕ)) (mapping : List (List ℕ))
    (h : ∀ d ∈ pushes, d.1 < mapping.length) :
    ∃ mapping', pushAll pushes mapping = .ok mapping' ∧ mapping'.length = mapping.length ∧
      mapping'.flatten.Perm (mapping.flatten ++ pushes.map Prod.snd) := by
  induction pushes generalizing mapping with
  | nil => exact ⟨mapping, rfl, rfl, by simp⟩
  | cons d rest ih =>
    obtain ⟨p, tile⟩ := d
    have hp : p < mapping.length := h _ mem_cons_self
    obtain ⟨mapping', hpush, hlength, hperm⟩ := ih (deal mapping p tile) fun d hd ↦ by
      rw [Dealing.length_deal]
      exact h d (mem_cons_of_mem _ hd)
    refine ⟨mapping', ?_, hlength.trans Dealing.length_deal, hperm.trans ?_⟩
    · rw [pushAll, require, if_pos hp]
      exact hpush
    · have hdeal := (Dealing.flatten_deal (x := tile) hp).append_right (rest.map Prod.snd)
      rw [append_assoc] at hdeal
      exact hdeal

variable {d : ℕ × ℕ}

section EMesh

variable {meshWidth meshHeight processCount : ℕ}

/-- The height of the grid of processes is within the mesh. -/
theorem grid_le (meshHeight processCount : ℕ) :
    meshHeight * Nat.sqrt processCount * (processCount / Nat.sqrt processCount) / processCount ≤
      meshHeight := by
  refine Nat.div_le_of_le_mul ?_
  rw [Nat.mul_assoc, Nat.mul_comm processCount]
  exact Nat.mul_le_mul_left _ (Nat.mul_div_le _ _)

/-- The tiles of the grid of processes. -/
theorem map_snd_grid {w h k l : ℕ} (hk : 0 < k) (hl : 0 < l) (g : ℕ → ℕ → ℕ) :
    (((range k).flatMap fun i ↦ (range l).flatMap fun j ↦
      (range (Tiling.size w k i)).flatMap fun ii ↦
        (range (Tiling.size h l j)).map fun jj ↦
          (g i j, (Tiling.base w k i + ii) + (Tiling.base h l j + jj) * w)).map Prod.snd).Perm
      ((range w).flatMap fun x ↦ (range h).map fun y ↦ x + y * w) := by
  have hpieces := Tiling.flatMap_rectangles k l (Tiling.piece w k) (Tiling.piece h l)
    fun x y ↦ x + y * w
  rw [Tiling.flatMap_piece hk, Tiling.flatMap_piece hl] at hpieces
  refine .trans (List.Perm.of_eq ?_) hpieces
  simp only [map_flatMap, map_map, Tiling.piece, flatMap_map, comp_def]

/-- The tiles of the rows at the end. -/
theorem map_snd_strip {w k : ℕ} (hk : 0 < k) (n low : ℕ) (g : ℕ → ℕ) :
    ((range k).flatMap fun i ↦ (range (Tiling.size w k i)).flatMap fun ii ↦
        (range n).map fun jj ↦ (g i, (Tiling.base w k i + ii) + (low + jj) * w)).map Prod.snd =
      (range w).flatMap fun x ↦ (range n).map fun y ↦ x + (low + y) * w := by
  rw [← Tiling.flatMap_piece (n := w) hk, flatMap_assoc]
  simp only [map_flatMap, map_map, Tiling.piece, flatMap_map, comp_def]

/-- Every tile of the mesh is pushed once. -/
theorem map_snd_emeshPushes (hpos : 0 < processCount) :
    ((emeshPushes meshWidth meshHeight processCount).map Prod.snd).Perm
      (range (meshHeight * meshWidth)) := by
  have hcolumns : 0 < Nat.sqrt processCount := Nat.sqrt_pos.mpr hpos
  have hrows : 0 < processCount / Nat.sqrt processCount :=
    Nat.div_pos (Nat.sqrt_le_self processCount) hcolumns
  refine .trans ?_ (Tiling.flatMap_rows_split (grid_le meshHeight processCount))
  rw [emeshPushes, map_append]
  refine (map_snd_grid hcolumns hrows _).append (List.Perm.of_eq ?_)
  by_cases hleft : processCount - Nat.sqrt processCount * (processCount / Nat.sqrt processCount) = 0
  · -- No process is left, and the grid has all rows.
    have hall : Nat.sqrt processCount * (processCount / Nat.sqrt processCount) = processCount :=
      Nat.le_antisymm (Nat.mul_div_le _ _) (Nat.le_of_sub_eq_zero hleft)
    rw [hleft, Nat.mul_assoc, hall, Nat.mul_div_cancel _ hpos, Nat.sub_self]
    simp
  · rw [← map_snd_strip (Nat.pos_of_ne_zero hleft) _ _
      fun k ↦ Nat.sqrt processCount * (processCount / Nat.sqrt processCount) + k]
    refine congrArg (map Prod.snd) (flatMap_congr fun k hk ↦ ?_)
    have hlast : Nat.sqrt processCount * (processCount / Nat.sqrt processCount) + k =
        processCount - 1 ↔ k = processCount -
          Nat.sqrt processCount * (processCount / Nat.sqrt processCount) - 1 := by
      omega
    simp only [Nat.add_sub_cancel_left, hlast, Tiling.size, Tiling.base]

theorem fst_lt_of_mem_emeshPushes (hd : d ∈ emeshPushes meshWidth meshHeight processCount) :
    d.1 < processCount := by
  have hgrid : Nat.sqrt processCount * (processCount / Nat.sqrt processCount) ≤ processCount :=
    Nat.mul_div_le _ _
  simp only [emeshPushes, mem_append, mem_flatMap, mem_map, mem_range] at hd
  rcases hd with ⟨i, hi, j, hj, ii, -, jj, -, rfl⟩ | ⟨k, hk, ii, -, jj, -, rfl⟩
  · have hrow : (j + 1) * Nat.sqrt processCount ≤
        processCount / Nat.sqrt processCount * Nat.sqrt processCount := Nat.mul_le_mul_right _ hj
    rw [Nat.add_one_mul] at hrow
    rw [Nat.mul_comm (Nat.sqrt processCount)] at hgrid
    omega
  · omega

end EMesh

section Atac

variable {topo : Topology}

/-- The tiles of all clusters. -/
theorem flatMap_clusterTiles (h : topo.WellFormed) (hpos : 0 < topo.enetWidth) :
    ((range topo.numClusters).flatMap (clusterTiles topo)).Perm
      (range (topo.enetHeight * topo.enetWidth)) := by
  have hwidth : 0 < topo.clusterWidth := by
    rw [h.enetWidth] at hpos
    exact Nat.pos_of_mul_pos_left hpos
  have hmesh : topo.enetWidth / topo.clusterWidth = topo.numXClusters := by
    rw [h.enetWidth, Nat.mul_div_cancel _ hwidth]
  have hpieces := Tiling.flatMap_rectangles topo.numXClusters topo.numYClusters
    (fun x ↦ (range topo.clusterWidth).map (x * topo.clusterWidth + ·))
    (fun y ↦ (range topo.clusterHeight).map (y * topo.clusterHeight + ·))
    fun x y ↦ x + y * topo.enetWidth
  rw [Tiling.flatMap_range_mul, Tiling.flatMap_range_mul, ← h.enetWidth, ← h.enetHeight] at hpieces
  refine .trans ?_ (hpieces.trans (Tiling.flatMap_rows _ _))
  refine .trans (List.Perm.of_eq ?_) (Tiling.flatMap_comm _ _ _)
  rw [h.numClusters, Nat.mul_comm, ← Tiling.flatMap_range_mul, flatMap_assoc]
  refine flatMap_congr fun y hy ↦ ?_
  rw [flatMap_map]
  refine flatMap_congr fun x hx ↦ ?_
  have hx : x < topo.numXClusters := mem_range.mp hx
  have hcolumn : (y * topo.numXClusters + x) % topo.numXClusters = x := by
    rw [Nat.mul_add_mod_self_right, Nat.mod_eq_of_lt hx]
  have hrow : (y * topo.numXClusters + x) / topo.numXClusters = y := by
    rw [Nat.mul_comm, Nat.mul_add_div (Nat.zero_lt_of_lt hx), Nat.div_eq_of_lt hx, Nat.add_zero]
  simp only [clusterTiles, hmesh, hcolumn, hrow, flatMap_map, map_map, comp_def]
  simp only [Nat.add_comm]

/-- Up to one memory controller for each cluster is placed, on different application tiles. -/
theorem memory_controllers_apart {cfg : AtacConfig} {n : ℕ}
    (haccepted : cfg.initializeANetTopologyParams = .ok topo) (hn : n ≤ topo.numClusters) :
    ∃ tiles, computeMemoryControllerPositions topo n = some tiles ∧ tiles.length = n ∧
      tiles.Nodup ∧ ∀ tile ∈ tiles, tile < cfg.applicationTiles := by
  obtain ⟨h, hproduct, hsize⟩ := AtacConfig.wellFormed haccepted
  obtain ⟨-, -, -, -, hnonzero, -⟩ := AtacConfig.of_initializeANetTopologyParams haccepted
  rw [← hsize, h.clusterSize] at hnonzero
  obtain ⟨hwidth, hheight⟩ := Nat.mul_ne_zero_iff.mp hnonzero
  have hhub : ∀ c, getTileIDWithOpticalHub topo c ∈ clusterTiles topo c := by
    intro c
    simp only [clusterTiles, mem_flatMap, mem_map, mem_range]
    exact ⟨topo.clusterWidth / 2, by omega, topo.clusterHeight / 2, by omega, rfl⟩
  have hcolumns : 0 < topo.numXClusters :=
    Nat.pos_of_lt_mul_right (h.numClusters ▸ h.one_lt_numClusters)
  have hperm := flatMap_clusterTiles h (h.enetWidth ▸ Nat.mul_pos hcolumns (by omega))
  rw [Nat.mul_comm, ← hproduct] at hperm
  obtain ⟨-, hapart⟩ := nodup_flatMap.mp (hperm.nodup_iff.mpr nodup_range)
  refine ⟨_, if_pos hn, by simp, pairwise_map.mpr ?_, ?_⟩
  · refine (hapart.sublist (range_sublist.mpr hn)).imp fun {c c'} hdisjoint heq ↦ ?_
    exact hdisjoint (hhub c) (heq ▸ hhub c')
  · rw [forall_mem_map]
    intro c hc
    have hmem := mem_flatMap.mpr ⟨c, (range_sublist.mpr hn).subset hc, hhub c⟩
    exact mem_range.mp (hperm.mem_iff.mp hmem)

theorem memory_controllers_apart_sixteen : ∃ topo tiles,
    (AtacConfig.mk 16 4 1).initializeANetTopologyParams = .ok topo ∧
      computeMemoryControllerPositions topo 3 = some tiles ∧ tiles.Nodup := by
  have h : (AtacConfig.mk 16 4 1).initializeANetTopologyParams =
    .ok ⟨4, 4, 4, 4, 2, 2, 2, 2, 1, 1, 2, 2⟩ := by decide +kernel
  obtain ⟨tiles, hplaced, -, hnodup, -⟩ := memory_controllers_apart h (n := 3) (by decide)
  exact ⟨_, tiles, h, hplaced, hnodup⟩

theorem map_snd_atacPushes (h : topo.WellFormed) (hpos : 0 < topo.enetWidth) (processCount : ℕ) :
    ((atacPushes topo processCount).map Prod.snd).Perm
      (range (topo.enetHeight * topo.enetWidth)) := by
  refine .trans (List.Perm.of_eq ?_) (flatMap_clusterTiles h hpos)
  rw [atacPushes, map_flatMap, ← Dealing.map_snd_stripe processCount 0
    (range topo.numClusters), flatMap_map, Dealing.map_snd_stripe]
  simp only [map_map, comp_def, map_id_fun']
  rfl

theorem fst_lt_of_mem_atacPushes {processCount : ℕ} (hpos : 0 < processCount)
    (hd : d ∈ atacPushes topo processCount) : d.1 < processCount := by
  simp only [atacPushes, mem_flatMap, mem_map] at hd
  obtain ⟨c, hc, tile, -, rfl⟩ := hd
  have hlt := Dealing.fst_lt_of_mem_stripe hpos hc
  exact hlt

end Atac

/-! ### The mapping that is chosen -/

variable {cfg : Config}

/-- The checks of the constructor. -/
theorem Config.of_check (h : cfg.check = .ok ()) :
    (cfg.full = true ∨ cfg.numProcesses ≤ 1) ∧ 0 < cfg.numProcesses ∧ 0 < cfg.applicationTiles ∧
      ∀ net ∈ cfg.networks, net.isTileCountPermissible cfg.applicationTiles = true := by
  simp only [Config.check, require_bind_eq_ok] at h
  obtain ⟨hmode, hprocesses, htiles, hnetworks⟩ := h
  refine ⟨hmode, hprocesses, htiles, ?_⟩
  by_contra hnot
  rw [require, if_neg hnot] at hnetworks
  cases hnetworks

section

variable (hprocesses : 0 < cfg.numProcesses)

include hprocesses

theorem emesh_spreads {meshWidth meshHeight : ℕ}
    (hmesh : Network.EMesh.initializeEMeshTopologyParams cfg.applicationTiles =
      some (meshWidth, meshHeight)) :
    Spreads cfg (emeshPushes meshWidth meshHeight cfg.numProcesses) where
  process := fun _ hd ↦ fst_lt_of_mem_emeshPushes hd
  once := by
    refine ⟨meshHeight * meshWidth, Nat.le_of_eq ?_, map_snd_emeshPushes hprocesses⟩
    rw [Nat.mul_comm, Network.EMesh.mul_eq_of_initializeEMeshTopologyParams hmesh]

theorem atac_spreads {topo : Topology} (h : topo.WellFormed) (hpos : 0 < topo.enetWidth)
    (htiles : cfg.applicationTiles = topo.enetWidth * topo.enetHeight) :
    Spreads cfg (atacPushes topo cfg.numProcesses) where
  process := fun _ hd ↦ fst_lt_of_mem_atacPushes hprocesses hd
  once := by
    refine ⟨topo.enetHeight * topo.enetWidth, Nat.le_of_eq ?_, map_snd_atacPushes h hpos _⟩
    rw [Nat.mul_comm, htiles]

theorem stripe_spreads :
    Spreads cfg (stripe cfg.numProcesses 0 (range cfg.totalTiles)) where
  process := fun _ hd ↦ Dealing.fst_lt_of_mem_stripe hprocesses hd
  once := by
    refine ⟨cfg.totalTiles, ?_, List.Perm.of_eq (Dealing.map_snd_stripe _ _ _)⟩
    unfold Config.totalTiles
    omega

/-- A network model with a mapping spreads the tiles, or ATAC does not accept its parameters. -/
theorem NetworkType.pushes_spec (htiles : 0 < cfg.applicationTiles) {net : NetworkType}
    (hnet : net.isTileCountPermissible cfg.applicationTiles = true) :
    Outcome (net.pushes cfg) (fun pushes ↦ ∀ l ∈ pushes, Spreads cfg l)
      fun e ↦ ∃ fault, e = .topology fault := by
  cases net with
  | magic | emeshHopCounter => exact nofun
  | emeshHopByHop =>
    have hmesh : ∃ w h, Network.EMesh.initializeEMeshTopologyParams cfg.applicationTiles =
        some (w, h) := ⟨_, _, if_pos (of_decide_eq_true hnet)⟩
    obtain ⟨w, h, hmesh⟩ := hmesh
    rw [NetworkType.pushes, hmesh]
    rintro l ⟨⟩
    exact emesh_spreads hprocesses hmesh
  | atac =>
    rw [NetworkType.pushes]
    cases htopo : cfg.atacConfig.initializeANetTopologyParams with
    | error fault => exact ⟨fault, rfl⟩
    | ok topo =>
      obtain ⟨hwell, hproduct, -⟩ := AtacConfig.wellFormed htopo
      replace hproduct : cfg.applicationTiles = topo.enetWidth * topo.enetHeight := hproduct
      have hpos : 0 < topo.enetWidth := by
        rw [hproduct] at htiles
        exact Nat.pos_of_mul_pos_right htiles
      have hbelow : ∀ c < topo.numClusters, ∀ tile ∈ clusterTiles topo c,
          tile < cfg.applicationTiles := by
        intro c hc tile htile
        have hmem := (flatMap_clusterTiles hwell hpos).mem_iff.mp
          (mem_flatMap.mpr ⟨c, mem_range.mpr hc, htile⟩)
        rw [hproduct, Nat.mul_comm]
        exact mem_range.mp hmem
      show Outcome (require _ _ >>= _) _ _
      rw [require, if_pos hbelow]
      rintro l ⟨⟩
      exact atac_spreads hprocesses hwell hpos hproduct

theorem Config.pushes_spec (htiles : 0 < cfg.applicationTiles) {nets : List NetworkType}
    (hnets : ∀ net ∈ nets, net.isTileCountPermissible cfg.applicationTiles = true) :
    Outcome (cfg.pushes nets) (Spreads cfg) fun e ↦ ∃ fault, e = .topology fault := by
  induction nets with
  | nil => exact stripe_spreads hprocesses
  | cons net rest ih =>
    have hnet := NetworkType.pushes_spec hprocesses htiles (hnets net mem_cons_self)
    refine hnet.bind fun pushes hpushes ↦ ?_
    cases pushes with
    | none => exact ih fun net hmem ↦ hnets net (mem_cons_of_mem _ hmem)
    | some l => exact hpushes l rfl

end

/-! ### Filling the map -/

/-- What has been assigned stays, each tile of the list is assigned to its process, and the two
directions of the map agree. -/
theorem Map.assignAll_ok (l : List (ℕ × ℕ)) (m : Map)
    (hbounds : ∀ d ∈ l, d.1 < m.procToTileList.length ∧ d.2 < m.tileToProc.length)
    (hagrees : Agrees m.procToTileList m.tileToProc)
    (hnodup : (m.procToTileList.flatten ++ l.map Prod.snd).Nodup) :
    ∃ m', m.assignAll l = .ok m' ∧ m'.procToTileList.length = m.procToTileList.length ∧
      m'.tileToProc.length = m.tileToProc.length ∧
      m'.procToTileList.flatten.Perm (m.procToTileList.flatten ++ l.map Prod.snd) ∧
      Agrees m'.procToTileList m'.tileToProc ∧
      (∀ p, ∀ tile ∈ hand m.procToTileList p, tile ∈ hand m'.procToTileList p) ∧
      ∀ d ∈ l, d.2 ∈ hand m'.procToTileList d.1 := by
  induction l generalizing m with
  | nil => exact ⟨m, rfl, rfl, rfl, by simp, hagrees, fun _ _ h ↦ h, nofun⟩
  | cons d rest ih =>
    obtain ⟨p, tile⟩ := d
    obtain ⟨hp, htile⟩ := hbounds _ mem_cons_self
    have hperm := (Dealing.flatten_deal (x := tile) hp).append_right (rest.map Prod.snd)
    rw [append_assoc] at hperm
    have hfresh : tile ∉ m.procToTileList.flatten := fun hmem ↦
      (nodup_append'.mp hnodup).2.2 hmem mem_cons_self
    obtain ⟨m', hassign, hlists, htiles, hflatten, hagrees', hkeeps, hassigned⟩ :=
      ih ⟨deal m.procToTileList p tile, m.tileToProc.set tile p⟩ (fun d hd ↦ by
          rw [Dealing.length_deal, length_set]
          exact hbounds d (mem_cons_of_mem _ hd))
        (hagrees.deal hp htile hfresh) (hperm.nodup_iff.mpr hnodup)
    refine ⟨m', ?_, hlists.trans Dealing.length_deal, htiles.trans length_set,
      hflatten.trans hperm, hagrees', ?_, ?_⟩
    · rw [assignAll, assign, require, if_pos htile, require, if_pos hp]
      exact hassign
    · exact fun q x hx ↦ hkeeps q x ((Dealing.mem_hand_deal hp).mpr (.inl hx))
    · intro d hd
      rcases mem_cons.mp hd with rfl | hd
      · exact hkeeps p tile ((Dealing.mem_hand_deal hp).mpr (.inr ⟨rfl, rfl⟩))
      · exact hassigned d hd

theorem Map.assignAll_append (l l' : List (ℕ × ℕ)) (m : Map) :
    m.assignAll (l ++ l') = m.assignAll l >>= fun m ↦ m.assignAll l' := by
  induction l generalizing m with
  | nil => rfl
  | cons d rest ih =>
    rw [cons_append, assignAll, assignAll]
    cases m.assign d.1 d.2 with
    | error e => rfl
    | ok m' => exact ih m'

theorem Map.assignAll_singleton (p tile : ℕ) (m : Map) :
    m.assignAll [(p, tile)] = m.assign p tile := by
  rw [assignAll]
  cases m.assign p tile with
  | error e => rfl
  | ok m' => rfl

theorem map_snd_belowBound (mapping : List (List ℕ)) (bound : ℕ) :
    (belowBound mapping bound).map Prod.snd = mapping.flatten.filter (· < bound) := by
  have hlists : mapping.zipIdx.flatMap (fun d ↦ d.1.filter (· < bound)) =
      (mapping.zipIdx.map Prod.fst).flatMap (filter (· < bound)) := by
    rw [flatMap_map]
  simp only [belowBound, map_flatMap, map_map, comp_def, map_id_fun', id]
  rw [hlists, zipIdx_map_fst, filter_flatten, flatMap_def]

variable {mapping : List (List ℕ)}

theorem lt_of_mem_belowBound {bound : ℕ} (hd : d ∈ belowBound mapping bound) :
    d.1 < mapping.length ∧ d.2 < bound := by
  simp only [belowBound, mem_flatMap, mem_map, mem_filter] at hd
  obtain ⟨tiles, htiles, tile, ⟨-, hbound⟩, rfl⟩ := hd
  have hlt := snd_lt_of_mem_zipIdx htiles
  exact ⟨hlt, of_decide_eq_true hbound⟩

theorem filter_range {bound n : ℕ} (h : bound ≤ n) :
    (range n).filter (· < bound) = range bound := by
  obtain ⟨rest, rfl⟩ := Nat.exists_eq_add_of_le h
  rw [range_add, filter_append, filter_eq_self.mpr, filter_eq_nil_iff.mpr, append_nil]
  · intro x hx
    obtain ⟨y, -, rfl⟩ := mem_map.mp hx
    simp
  · intro x hx
    simpa using hx

/-- What is assigned by `GenerateTileMap`: the tiles below the bound, the thread spawners and the
MCP. -/
def Config.assignments (cfg : Config) (mapping : List (List ℕ)) : List (ℕ × ℕ) :=
  belowBound mapping (cfg.totalTiles - cfg.numProcesses - 1) ++
    ((range cfg.numProcesses).map fun k ↦ (k, cfg.totalTiles - cfg.numProcesses - 1 + k)) ++
    [(0, cfg.totalTiles - 1)]

/-- Every tile is assigned once. -/
theorem Config.map_snd_assignments
    (htotal : cfg.totalTiles - cfg.numProcesses - 1 + cfg.numProcesses + 1 = cfg.totalTiles) {n : ℕ}
    (hn : cfg.totalTiles - cfg.numProcesses - 1 ≤ n)
    (hmapping : mapping.flatten.Perm (range n)) :
    ((cfg.assignments mapping).map Prod.snd).Perm (range cfg.totalTiles) := by
  have hbelow := hmapping.filter (· < cfg.totalTiles - cfg.numProcesses - 1)
  rw [filter_range hn] at hbelow
  have hlast : cfg.totalTiles - 1 = cfg.totalTiles - cfg.numProcesses - 1 + cfg.numProcesses := by
    omega
  have hrange : range cfg.totalTiles = range (cfg.totalTiles - cfg.numProcesses - 1) ++
      (range cfg.numProcesses).map (cfg.totalTiles - cfg.numProcesses - 1 + ·) ++
      [cfg.totalTiles - 1] := by
    rw [← range_add, hlast, ← range_succ]
    exact congrArg range htotal.symm
  rw [hrange, assignments, map_append, map_append, map_snd_belowBound, map_map]
  exact (hbelow.append_right _).append_right _

/-- The processes and tiles of the assignments exist. -/
theorem Config.lt_of_mem_assignments (hprocesses : 0 < cfg.numProcesses)
    (htotal : cfg.totalTiles - cfg.numProcesses - 1 + cfg.numProcesses + 1 = cfg.totalTiles)
    (hlength : mapping.length = cfg.numProcesses) (hd : d ∈ cfg.assignments mapping) :
    d.1 < cfg.numProcesses ∧ d.2 < cfg.totalTiles := by
  rw [assignments, mem_append, mem_append] at hd
  rcases hd with (hd | hd) | hd
  · have hlt := lt_of_mem_belowBound hd
    omega
  · obtain ⟨k, hk, rfl⟩ := mem_map.mp hd
    have hk := mem_range.mp hk
    exact ⟨hk, by omega⟩
  · rw [mem_singleton.mp hd]
    exact ⟨hprocesses, by omega⟩

/-- Every tile is in the list of one process, once; the map of tiles agrees with the lists; and the
thread spawners and the MCP are where they belong. -/
structure Map.Partitions (m : Map) (cfg : Config) : Prop where
  lists : m.procToTileList.length = cfg.numProcesses
  tiles : m.tileToProc.length = cfg.totalTiles
  once : ∀ tile < cfg.totalTiles, ∃ p < cfg.numProcesses, m.tileToProc[tile]? = some p ∧
    ∀ q, (hand m.procToTileList q).count tile = if q = p then 1 else 0
  only : ∀ p, ∀ tile ∈ hand m.procToTileList p, tile < cfg.totalTiles
  threadSpawner : cfg.full = true → ∀ p < cfg.numProcesses,
    m.tileToProc[cfg.threadSpawnerTileNum p]? = some p
  mcp : m.tileToProc[cfg.totalTiles - 1]? = some 0

section

variable (hmode : cfg.full = true ∨ cfg.numProcesses ≤ 1) (hprocesses : 0 < cfg.numProcesses)
  (htiles : 0 < cfg.applicationTiles)

include hmode hprocesses htiles

/-- The bound, the thread spawners and the MCP make up all tiles. -/
theorem Config.totalTiles_eq :
    cfg.totalTiles - cfg.numProcesses - 1 + cfg.numProcesses + 1 = cfg.totalTiles ∧
      cfg.totalTiles - cfg.numProcesses - 1 ≤ cfg.applicationTiles := by
  unfold Config.totalTiles
  by_cases hfull : cfg.full = true
  · rw [if_pos hfull]
    omega
  · have hone := hmode.resolve_left hfull
    rw [if_neg hfull]
    omega

/-- Filling the map from a mapping that has every application tile once. -/
theorem Config.assignAll_partitions (hlength : mapping.length = cfg.numProcesses) {n : ℕ}
    (hn : cfg.applicationTiles ≤ n) (hmapping : mapping.flatten.Perm (range n)) :
    ∃ m, Map.assignAll (cfg.assignments mapping)
        ⟨replicate cfg.numProcesses [], replicate cfg.totalTiles 0⟩ = .ok m ∧
      m.Partitions cfg := by
  obtain ⟨htotal, hbound⟩ := Config.totalTiles_eq hmode hprocesses htiles
  have hall := Config.map_snd_assignments htotal (hbound.trans hn) hmapping
  have hempty : (replicate cfg.numProcesses ([] : List ℕ)).flatten = [] := by simp
  obtain ⟨m, hassign, hlists, htable, hflatten, hagrees, -, hassigned⟩ :=
    Map.assignAll_ok (cfg.assignments mapping)
      ⟨replicate cfg.numProcesses [], replicate cfg.totalTiles 0⟩
      (fun d hd ↦ by
        simpa using Config.lt_of_mem_assignments hprocesses htotal hlength hd)
      (fun p tile htile ↦ by
        have hmem := Dealing.mem_flatten_iff.mpr ⟨p, Dealing.lt_length_of_mem_hand htile, htile⟩
        rw [hempty] at hmem
        exact nomatch hmem)
      (by
        rw [hempty, nil_append]
        exact hall.nodup_iff.mpr nodup_range)
  rw [hempty, nil_append] at hflatten
  replace hflatten := hflatten.trans hall
  rw [length_replicate] at hlists htable
  refine ⟨m, hassign, hlists, htable, fun tile htile ↦ ?_, fun p tile htile ↦ ?_, fun hfull p hp ↦ ?_,
    ?_⟩
  · rw [← hlists]
    exact hagrees.count (hflatten.nodup_iff.mpr nodup_range)
      (hflatten.mem_iff.mpr (mem_range.mpr htile))
  · have hmem := Dealing.mem_flatten_iff.mpr ⟨p, Dealing.lt_length_of_mem_hand htile, htile⟩
    exact mem_range.mp (hflatten.mem_iff.mp hmem)
  · have hspawner : cfg.threadSpawnerTileNum p = cfg.totalTiles - cfg.numProcesses - 1 + p := by
      unfold Config.threadSpawnerTileNum
      omega
    rw [hspawner]
    refine hagrees p _ (hassigned (p, _) ?_)
    exact mem_append_left _ (mem_append_right _ (mem_map.mpr ⟨p, mem_range.mpr hp, rfl⟩))
  · exact hagrees 0 _ (hassigned (0, _) (mem_append_right _ mem_cons_self))

/-- `GenerateTileMap` is filling the map from the mapping. -/
theorem Config.generateTileMap_eq (hlength : mapping.length = cfg.numProcesses)
    (hmapping : cfg.computeProcessToTileMapping = .ok mapping) :
    cfg.generateTileMap = Map.assignAll (cfg.assignments mapping)
      ⟨replicate cfg.numProcesses [], replicate cfg.totalTiles 0⟩ := by
  obtain ⟨htotal, -⟩ := Config.totalTiles_eq hmode hprocesses htiles
  have hspawners : cfg.totalTiles - 1 - (cfg.totalTiles - cfg.numProcesses - 1) =
      cfg.numProcesses := by
    omega
  rw [assignments, Map.assignAll_append, Map.assignAll_append, generateTileMap, hmapping]
  show (require _ _ >>= _) = _
  rw [require, if_pos hlength]
  show (Map.assignAll _ _ >>= fun m ↦ Map.assignAll _ m >>= fun m ↦ m.assign 0 _) = _
  simp only [hspawners, Map.assignAll_singleton, bind_assoc]

end

/-- For every accepted configuration the map of tiles to processes is a partition: one that passes
the checks of the constructor, and where ATAC gives the mapping, those of its topology. -/
theorem tile_map_partitions {cfg : Config} (hcheck : cfg.check = .ok ())
    (htopology : ∀ fault, cfg.pushes cfg.networks ≠ .error (.topology fault)) :
    ∃ m, cfg.generateTileMap = .ok m ∧ m.Partitions cfg := by
  obtain ⟨hmode, hprocesses, htiles, hnetworks⟩ := Config.of_check hcheck
  have hspec := Config.pushes_spec hprocesses htiles hnetworks
  cases hpushes : cfg.pushes cfg.networks with
  | error e =>
    rw [hpushes] at hspec
    obtain ⟨fault, rfl⟩ := hspec
    exact absurd hpushes (htopology fault)
  | ok pushes =>
    rw [hpushes] at hspec
    obtain ⟨n, hn, hperm⟩ := Spreads.once hspec
    obtain ⟨mapping, hpush, hlength, hflatten⟩ := pushAll_ok pushes
      (replicate cfg.numProcesses []) fun d hd ↦ by
        rw [length_replicate]
        exact Spreads.process hspec d hd
    rw [length_replicate] at hlength
    have hempty : (replicate cfg.numProcesses ([] : List ℕ)).flatten = [] := by simp
    rw [hempty, nil_append] at hflatten
    have hmapping : cfg.computeProcessToTileMapping = .ok mapping := by
      rw [Config.computeProcessToTileMapping, hpushes]
      exact hpush
    rw [Config.generateTileMap_eq hmode hprocesses htiles hlength hmapping]
    exact Config.assignAll_partitions hmode hprocesses htiles hlength hn (hflatten.trans hperm)

/-- Five processes on a mesh of three by four tiles, with a row left for the fifth. -/
def fiveProcesses : Config where
  full := true
  numProcesses := 5
  applicationTiles := 12
  networks := [.magic, .emeshHopByHop]
  atac := ⟨12, 1, 1⟩

theorem tile_map_partitions_fiveProcesses :
    fiveProcesses.check = .ok () ∧ ∃ m, fiveProcesses.generateTileMap = .ok m ∧
      m.Partitions fiveProcesses := by
  have hsqrt : Nat.sqrt 12 = 3 := (Nat.eq_sqrt.mpr ⟨by decide, by decide⟩).symm
  have hcheck : fiveProcesses.check = .ok () := by
    simp [Config.check, require, fiveProcesses, NetworkType.isTileCountPermissible, hsqrt]
    rfl
  have hmesh : Network.EMesh.initializeEMeshTopologyParams 12 = some (3, 4) := by
    simp [Network.EMesh.initializeEMeshTopologyParams, hsqrt]
  have hpushes : fiveProcesses.pushes fiveProcesses.networks = .ok (emeshPushes 3 4 5) := by
    show ((fetch (Network.EMesh.initializeEMeshTopologyParams 12) _ >>= _) >>= _) = _
    rw [hmesh]
    rfl
  refine ⟨hcheck, tile_map_partitions hcheck fun fault ↦ ?_⟩
  rw [hpushes]
  intro heq
  cases heq

end CarbonSim.TileMap
