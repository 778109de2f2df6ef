import CarbonSim.Network.EMesh
import Mathlib.Data.Nat.Prime.Basic

/-!
# The topology of ATAC

`NetworkModelAtac`, its parameters and the geometry of its clusters. The application tiles form an
electrical mesh, the ENet, that is divided into clusters of equal size, and each cluster into
sub-clusters. A cluster has an optical hub in its middle, a sub-cluster an access point in its
middle, through which its tiles reach the hub.

`initializeANetTopologyParams` checks the parameters and derives the numbers, widths and heights of
clusters and sub-clusters, with different cases for even and odd powers of two. Every accepted
configuration gives a tiling without remainder (`AtacConfig.wellFormed`).
-/

namespace CarbonSim.Network

/-- The parameters in the configuration file that the tiling depends on. -/
structure AtacConfig where
  applicationTiles : ℕ
  clusterSize : ℕ
  numAccessPointsPerCluster : ℕ
  deriving DecidableEq

/-- The asserts of `initializeANetTopologyParams`, and the divisions by zero on its way. -/
inductive TopologyFault where
  | tooManyAccessPoints
  | tilesNotPerfectSquare
  | tilesNotPower2
  | clusterSizeNotPower2
  | tilesNotMultipleOfClusterSize
  | tooFewClusters
  | accessPointsNotPower2
  | divisionByZero
  deriving DecidableEq

/-- The derived parameters. -/
structure Topology where
  enetWidth : ℕ
  enetHeight : ℕ
  numClusters : ℕ
  clusterSize : ℕ
  numXClusters : ℕ
  numYClusters : ℕ
  clusterWidth : ℕ
  clusterHeight : ℕ
  numXSubClusters : ℕ
  numYSubClusters : ℕ
  subClusterWidth : ℕ
  subClusterHeight : ℕ
  deriving DecidableEq

/-- `isPower2` also accepts zero. -/
def isPower2 (n : ℕ) : Prop := n &&& (n - 1) = 0

def isPerfectSquare (n : ℕ) : Prop := n = Nat.sqrt n * Nat.sqrt n

instance (n : ℕ) : Decidable (isPower2 n) := inferInstanceAs (Decidable (_ = _))

instance (n : ℕ) : Decidable (isPerfectSquare n) := inferInstanceAs (Decidable (_ = _))

/-- The numbers of columns and rows of `n` clusters: the rows are more if they differ. -/
def clusterGrid (n : ℕ) : ℕ × ℕ :=
  if n.log2 % 2 = 0 then (Nat.sqrt n, Nat.sqrt n) else (Nat.sqrt (n / 2), Nat.sqrt (n * 2))

/-- The numbers of columns and rows of `n` sub-clusters: the columns are more if they differ. -/
def subClusterGrid (n : ℕ) : ℕ × ℕ :=
  if n.log2 % 2 = 0 then (Nat.sqrt n, Nat.sqrt n) else (Nat.sqrt (n * 2), Nat.sqrt (n / 2))

/-- The beginning of `initializeClusters`, up to the lists of boundaries and access points. -/
def initializeClusters (enetWidth numClusters clusterSize numSubClusters : ℕ) :
    Except TopologyFault Topology := do
  let (numXClusters, numYClusters) := clusterGrid numClusters
  let (numXSubClusters, numYSubClusters) := subClusterGrid numSubClusters
  require (numXSubClusters ≠ 0 ∧ numYSubClusters ≠ 0) .divisionByZero
  let clusterWidth := enetWidth / numXClusters
  let clusterHeight := enetWidth / numYClusters
  return {
    enetWidth, enetHeight := enetWidth, numClusters, clusterSize, numXClusters, numYClusters,
    clusterWidth, clusterHeight, numXSubClusters, numYSubClusters,
    subClusterWidth := clusterWidth / numXSubClusters,
    subClusterHeight := clusterHeight / numYSubClusters }

def AtacConfig.initializeANetTopologyParams (cfg : AtacConfig) : Except TopologyFault Topology := do
  require (cfg.numAccessPointsPerCluster ≤ cfg.clusterSize) .tooManyAccessPoints
  require (isPerfectSquare cfg.applicationTiles) .tilesNotPerfectSquare
  require (isPower2 cfg.applicationTiles) .tilesNotPower2
  require (isPower2 cfg.clusterSize) .clusterSizeNotPower2
  require (cfg.clusterSize ≠ 0) .divisionByZero
  require (cfg.applicationTiles % cfg.clusterSize = 0) .tilesNotMultipleOfClusterSize
  let numClusters := cfg.applicationTiles / cfg.clusterSize
  require (1 < numClusters) .tooFewClusters
  require (isPower2 cfg.numAccessPointsPerCluster) .accessPointsNotPower2
  initializeClusters (Nat.sqrt cfg.applicationTiles) numClusters cfg.clusterSize
    cfg.numAccessPointsPerCluster

/-- Clusters tile the mesh and sub-clusters tile each cluster. -/
structure Topology.WellFormed (topo : Topology) : Prop where
  enetWidth : topo.enetWidth = topo.numXClusters * topo.clusterWidth
  enetHeight : topo.enetHeight = topo.numYClusters * topo.clusterHeight
  numClusters : topo.numClusters = topo.numXClusters * topo.numYClusters
  one_lt_numClusters : 1 < topo.numClusters
  clusterSize : topo.clusterSize = topo.clusterWidth * topo.clusterHeight
  clusterWidth : topo.clusterWidth = topo.numXSubClusters * topo.subClusterWidth
  clusterHeight : topo.clusterHeight = topo.numYSubClusters * topo.subClusterHeight
  subClusterWidth_pos : 0 < topo.subClusterWidth
  subClusterHeight_pos : 0 < topo.subClusterHeight
  clusterHeight_le : topo.clusterHeight ≤ topo.clusterWidth

/-! ### Accepted configurations -/

/-- A number that has no bit in common with its predecessor is a power of two. -/
theorem exists_two_pow_of_and_pred {n : ℕ} (hzero : n ≠ 0) (hand : n &&& (n - 1) = 0) :
    ∃ k, n = 2 ^ k := by
  refine ⟨n.log2, ?_⟩
  have hlow : 2 ^ n.log2 ≤ n := Nat.log2_self_le hzero
  have hhigh : n < 2 ^ (n.log2 + 1) := Nat.lt_log2_self
  by_contra hne
  have hbit : n.testBit n.log2 = true :=
    Nat.testBit_of_two_pow_le_and_two_pow_add_one_gt hlow hhigh
  have hbit' : (n - 1).testBit n.log2 = true :=
    Nat.testBit_of_two_pow_le_and_two_pow_add_one_gt (by omega) (by omega)
  have hboth : (n &&& (n - 1)).testBit n.log2 = true := by
    rw [Nat.testBit_and, hbit, hbit']
    rfl
  rw [hand, Nat.zero_testBit] at hboth
  exact Bool.noConfusion hboth

theorem sqrt_two_pow (k : ℕ) : Nat.sqrt (2 ^ (2 * k)) = 2 ^ k := by
  rw [Nat.mul_comm, Nat.pow_mul]
  exact Nat.sqrt_eq' (2 ^ k)

/-- The two halves of an odd power of two. -/
theorem half_two_pow (j : ℕ) : 2 ^ (2 * j + 1) / 2 = 2 ^ (2 * j) := by
  rw [Nat.pow_succ, Nat.mul_div_cancel _ Nat.two_pos]

/-- A power of two as a grid of clusters. -/
theorem clusterGrid_two_pow (m : ℕ) :
    clusterGrid (2 ^ m) = (2 ^ (m / 2), 2 ^ ((m + 1) / 2)) := by
  unfold clusterGrid
  rw [Nat.log2_two_pow]
  split_ifs with heven
  · obtain ⟨j, rfl⟩ : ∃ j, m = 2 * j := ⟨m / 2, by omega⟩
    rw [sqrt_two_pow, show 2 * j / 2 = j by omega, show (2 * j + 1) / 2 = j by omega]
  · obtain ⟨j, rfl⟩ : ∃ j, m = 2 * j + 1 := ⟨m / 2, by omega⟩
    rw [half_two_pow, ← Nat.pow_succ, show (2 * j + 1).succ = 2 * (j + 1) by omega,
      sqrt_two_pow, sqrt_two_pow, show (2 * j + 1) / 2 = j by omega,
      show (2 * j + 1 + 1) / 2 = j + 1 by omega]

/-- A power of two as a grid of sub-clusters. -/
theorem subClusterGrid_two_pow (a : ℕ) :
    subClusterGrid (2 ^ a) = (2 ^ ((a + 1) / 2), 2 ^ (a / 2)) := by
  have hgrid := clusterGrid_two_pow a
  unfold clusterGrid at hgrid
  unfold subClusterGrid
  split_ifs at hgrid ⊢ with heven
  all_goals
    have hfirst := congrArg Prod.fst hgrid
    have hsecond := congrArg Prod.snd hgrid
    exact Prod.ext hsecond hfirst

/-- The tiling for powers of two: a mesh of width `2 ^ k` with clusters of `2 ^ c` tiles and `2 ^ a`
sub-clusters in each. -/
theorem wellFormed_two_pow {k c a : ℕ} (hclusters : c < 2 * k) (hpoints : a ≤ c) {topo : Topology}
    (htopo : initializeClusters (2 ^ k) (2 ^ (2 * k - c)) (2 ^ c) (2 ^ a) = .ok topo) :
    topo.WellFormed := by
  have hpos : ∀ n, 2 ^ n ≠ 0 := fun n ↦ Nat.ne_of_gt (Nat.two_pow_pos n)
  have hdiv : ∀ {m n : ℕ}, n ≤ m → 2 ^ m / 2 ^ n = 2 ^ (m - n) := fun hle ↦
    Nat.pow_div hle Nat.two_pos
  have hjoin : ∀ {m n l : ℕ}, m = n + l → 2 ^ m = 2 ^ n * 2 ^ l := by
    rintro m n l rfl
    exact Nat.pow_add 2 n l
  unfold initializeClusters at htopo
  rw [clusterGrid_two_pow, subClusterGrid_two_pow] at htopo
  simp only [require, hpos, ne_eq, not_false_eq_true, and_self, if_true, bind, Except.bind, pure,
    Except.pure, Except.ok.injEq] at htopo
  rw [hdiv (by omega), hdiv (by omega), hdiv (by omega), hdiv (by omega)] at htopo
  subst htopo
  constructor
  · exact hjoin (by omega)
  · exact hjoin (by omega)
  · exact hjoin (by omega)
  · exact Nat.one_lt_two_pow (by omega)
  · exact hjoin (by omega)
  · exact hjoin (by omega)
  · exact hjoin (by omega)
  · exact Nat.two_pow_pos _
  · exact Nat.two_pow_pos _
  · exact Nat.pow_le_pow_right Nat.two_pos (by omega)

/-- What the checks of `initializeANetTopologyParams` establish. -/
theorem AtacConfig.of_initializeANetTopologyParams {cfg : AtacConfig} {topo : Topology}
    (haccepted : cfg.initializeANetTopologyParams = .ok topo) :
    cfg.numAccessPointsPerCluster ≤ cfg.clusterSize ∧ isPerfectSquare cfg.applicationTiles ∧
      isPower2 cfg.applicationTiles ∧ isPower2 cfg.clusterSize ∧ cfg.clusterSize ≠ 0 ∧
      cfg.applicationTiles % cfg.clusterSize = 0 ∧ 1 < cfg.applicationTiles / cfg.clusterSize ∧
      isPower2 cfg.numAccessPointsPerCluster ∧
      initializeClusters (Nat.sqrt cfg.applicationTiles) (cfg.applicationTiles / cfg.clusterSize)
        cfg.clusterSize cfg.numAccessPointsPerCluster = .ok topo := by
  simp only [initializeANetTopologyParams, require_bind_eq_ok] at haccepted
  exact haccepted

/-- The fields that are taken over, and that there are sub-clusters. -/
theorem of_initializeClusters {enetWidth numClusters clusterSize numSubClusters : ℕ}
    {topo : Topology}
    (htopo : initializeClusters enetWidth numClusters clusterSize numSubClusters = .ok topo) :
    topo.enetWidth = enetWidth ∧ topo.enetHeight = enetWidth ∧ topo.clusterSize = clusterSize ∧
      topo.numClusters = numClusters ∧ numSubClusters ≠ 0 := by
  unfold initializeClusters at htopo
  simp only [require_bind_eq_ok] at htopo
  obtain ⟨⟨hcolumns, -⟩, htopo⟩ := htopo
  cases htopo
  refine ⟨rfl, rfl, rfl, rfl, ?_⟩
  rintro rfl
  exact hcolumns (by decide)

/-- Every accepted configuration gives a tiling. -/
theorem AtacConfig.wellFormed {cfg : AtacConfig} {topo : Topology}
    (haccepted : cfg.initializeANetTopologyParams = .ok topo) :
    topo.WellFormed ∧ cfg.applicationTiles = topo.enetWidth * topo.enetHeight ∧
      topo.clusterSize = cfg.clusterSize := by
  obtain ⟨hle, hsquare, htiles, hcluster, hnonzero, hmultiple, hclusters, hpoints, hinit⟩ :=
    of_initializeANetTopologyParams haccepted
  obtain ⟨hwidth, hheight, hsize, -, hsubs⟩ := of_initializeClusters hinit
  have hpos : cfg.applicationTiles ≠ 0 := by
    intro hzero
    rw [hzero, Nat.zero_div] at hclusters
    omega
  obtain ⟨t, ht⟩ := exists_two_pow_of_and_pred hpos htiles
  obtain ⟨c, hc⟩ := exists_two_pow_of_and_pred hnonzero hcluster
  obtain ⟨a, ha⟩ := exists_two_pow_of_and_pred hsubs hpoints
  -- the width divides a power of two
  have hdvd : Nat.sqrt cfg.applicationTiles ∣ 2 ^ t := by
    rw [← ht]
    exact ⟨_, hsquare⟩
  obtain ⟨k, _, hk⟩ := (Nat.dvd_prime_pow Nat.prime_two).mp hdvd
  have htk : cfg.applicationTiles = 2 ^ (2 * k) := by
    have hproduct : cfg.applicationTiles = 2 ^ k * 2 ^ k := hk ▸ hsquare
    rw [hproduct, ← Nat.pow_add, Nat.two_mul]
  have hck : c < 2 * k := by
    have hpow : 2 ^ c < 2 ^ (2 * k) := by
      by_contra hge
      have hone : cfg.applicationTiles / cfg.clusterSize ≤ 1 := Nat.div_le_of_le_mul (by omega)
      omega
    exact (Nat.pow_lt_pow_iff_right Nat.one_lt_two).mp hpow
  have hac : a ≤ c := (Nat.pow_le_pow_iff_right Nat.one_lt_two).mp (ha ▸ hc ▸ hle)
  refine ⟨?_, ?_, hsize⟩
  · rw [hk, htk, hc, Nat.pow_div (Nat.le_of_lt hck) Nat.two_pos, ha] at hinit
    exact wellFormed_two_pow hck hac hinit
  · rw [hwidth, hheight]
    exact hsquare

end CarbonSim.Network
