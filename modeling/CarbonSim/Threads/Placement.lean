import CarbonSim.Threads.ThreadScheduler

/-!
# Where a new thread is placed

A spawn without a destination looks for an idle thread of another core. For each thread index the
tiles are tried in the order of their distance from the requester, and the largest index with an idle
thread decides. With one thread for each core this is the nearest idle core.
-/

namespace CarbonSim.Threads.Master

open List Function

/-- The tile at distance `i + 1` from the requester. -/
def tileAt (cfg : Config) (requester : Slot) (i : ℕ) : ℕ :=
  (requester.tile + (i + 1)) % cfg.applicationTiles

variable (cfg : Config) (m : Master) (requester : Slot)

/-- A spawn may place a thread at index `j` of the core at distance `i + 1`. -/
structure Open (i j : ℕ) : Prop where
  distance : i < cfg.applicationTiles
  index : j < cfg.maxThreadsPerCore
  notFirst : tileAt cfg requester i ≠ 0
  idle : m.status ⟨tileAt cfg requester i, j⟩ = .idle

/-- The place is on the nearest core with an idle thread of that index, and no index below `k` with
an idle thread is larger; or there is no place with an index below `k`. -/
def Found (k : ℕ) : Option Slot → Prop
  | none => ∀ i j, j < k → ¬ m.Open cfg requester i j
  | some x => ∃ i, x.tile = tileAt cfg requester i ∧ m.Open cfg requester i x.index ∧
      (∀ i', m.Open cfg requester i' x.index → i ≤ i') ∧
      ∀ i' j, j < k → m.Open cfg requester i' j → j ≤ x.index

variable {cfg m requester}

/-- The search over the tiles finds the nearest one. -/
theorem find_targetTiles (m : Master) (requester : Slot) {j : ℕ} (hj : j < cfg.maxThreadsPerCore) :
    match (targetTiles cfg requester).find? (m.status ⟨·, j⟩ = .idle) with
    | some tile => ∃ i, tile = tileAt cfg requester i ∧ m.Open cfg requester i j ∧
        ∀ i', m.Open cfg requester i' j → i ≤ i'
    | none => ∀ i, ¬ m.Open cfg requester i j := by
  unfold targetTiles
  rw [find?_filter, find?_map]
  cases hfind : List.find? _ (List.range cfg.applicationTiles) with
  | none =>
    intro i hi
    have hno := find?_range_eq_none.mp hfind i hi.distance
    simp only [comp_apply, Bool.not_eq_true', decide_eq_false_iff_not] at hno
    exact hno ⟨decide_eq_true hi.notFirst, decide_eq_true hi.idle⟩
  | some i =>
    obtain ⟨hi, hlt, hbefore⟩ := find?_range_eq_some.mp hfind
    simp only [comp_apply, decide_eq_true_iff] at hi
    refine ⟨i, rfl, ⟨mem_range.mp hlt, hj, hi.1, hi.2⟩, fun i' hi' ↦ ?_⟩
    by_contra hlt'
    have hno := hbefore i' (Nat.lt_of_not_le hlt')
    simp only [comp_apply, Bool.not_eq_true', decide_eq_false_iff_not] at hno
    exact hno ⟨decide_eq_true hi'.notFirst, decide_eq_true hi'.idle⟩

theorem Found.succ {k : ℕ} {r : Option Slot} (h : m.Found cfg requester k r)
    (hk : ∀ i, ¬ m.Open cfg requester i k) : m.Found cfg requester (k + 1) r := by
  have hlt : ∀ i j, j < k + 1 → m.Open cfg requester i j → j < k := fun i j hj hopen ↦
    Nat.lt_of_le_of_ne (Nat.le_of_lt_succ hj) fun heq ↦ hk i (heq ▸ hopen)
  cases r with
  | none => exact fun i j hj hopen ↦ h i j (hlt i j hj hopen) hopen
  | some x =>
    obtain ⟨i, htile, hopen, hnearest, hlast⟩ := h
    exact ⟨i, htile, hopen, hnearest, fun i' j hj hopen' ↦ hlast i' j (hlt i' j hj hopen') hopen'⟩

/-- The loop over the thread indices is not left early. -/
theorem found_findPlace (cfg : Config) (m : Master) (requester : Slot) :
    m.Found cfg requester cfg.maxThreadsPerCore (m.findPlace cfg requester) := by
  unfold findPlace
  suffices h : ∀ k ≤ cfg.maxThreadsPerCore, m.Found cfg requester k ((List.range k).foldl _ none) from
    h _ (Nat.le_refl _)
  intro k
  induction k with
  | zero => exact fun _ _ _ hj ↦ absurd hj (Nat.not_lt_zero _)
  | succ k ih =>
    intro hle
    have hbefore := ih (Nat.le_of_succ_le hle)
    have hfind := find_targetTiles m requester hle
    rw [range_succ, foldl_append, foldl_cons, foldl_nil]
    cases hk : (targetTiles cfg requester).find? (m.status ⟨·, k⟩ = .idle) with
    | none =>
      rw [hk] at hfind
      exact hbefore.succ hfind
    | some tile =>
      rw [hk] at hfind
      obtain ⟨i, htile, hopen, hnearest⟩ := hfind
      exact ⟨i, htile, hopen, hnearest, fun _ _ hj _ ↦ Nat.le_of_lt_succ hj⟩

variable (cfg m requester) in
/-- The place has the smallest index of those a spawn may use and among these the smallest distance,
and at the indices at which its core has a thread already the other cores have one, too. -/
def Strided (x : Slot) : Prop :=
  ∃ i, x.tile = tileAt cfg requester i ∧ m.Open cfg requester i x.index ∧
    (∀ i' j, m.Open cfg requester i' j → x.index < j ∨ x.index = j ∧ i ≤ i') ∧
    ∀ j < cfg.maxThreadsPerCore, m.status ⟨x.tile, j⟩ ≠ .idle →
      ∀ i' < cfg.applicationTiles, tileAt cfg requester i' ≠ 0 →
        m.status ⟨tileAt cfg requester i', j⟩ ≠ .idle

/-- The place is strided exactly if all idle threads that a spawn may use have one index. -/
theorem spawn_strided_iff {req : SpawnRequest} (hdest : req.destination = none) :
    Outcome (m.choosePlace cfg req)
      (fun x ↦ m.Strided cfg req.requester x ↔
        ∀ i j i' j', m.Open cfg req.requester i j → m.Open cfg req.requester i' j' → j = j')
      fun fault ↦ fault = .noCore ∧ ∀ i j, ¬ m.Open cfg req.requester i j := by
  have hfound := found_findPlace cfg m req.requester
  unfold choosePlace
  rw [hdest]
  cases hplace : m.findPlace cfg req.requester with
  | none =>
    rw [hplace] at hfound
    exact ⟨rfl, fun i j hopen ↦ hfound i j hopen.index hopen⟩
  | some x =>
    rw [hplace] at hfound
    obtain ⟨i, htile, hopen, hnearest, hlargest⟩ := hfound
    constructor
    · -- the index found is the largest, so it is the smallest only if there is no other
      rintro ⟨_, -, -, hsmallest, -⟩
      have hindex : ∀ i' j, m.Open cfg req.requester i' j → j = x.index := fun i' j hopen' ↦
        Nat.le_antisymm (hlargest i' j hopen'.index hopen')
          ((hsmallest i' j hopen').elim Nat.le_of_lt fun h ↦ Nat.le_of_eq h.1)
      intro i₁ j₁ i₂ j₂ hopen₁ hopen₂
      rw [hindex i₁ j₁ hopen₁, hindex i₂ j₂ hopen₂]
    · intro hsame
      refine ⟨i, htile, hopen, fun i' j hopen' ↦ ?_, fun j hj hbusy i' hi' hnotFirst hidle ↦ ?_⟩
      · obtain rfl := hsame i x.index i' j hopen hopen'
        exact .inr ⟨rfl, hnearest i' hopen'⟩
      · obtain rfl := hsame i x.index i' j hopen ⟨hi', hj, hnotFirst, hidle⟩
        exact hbusy (htile ▸ hopen.idle)

/-- Three application tiles whose cores have some number of threads each. -/
def threeCores (threads : ℕ) : Config := ⟨3, 1, threads, .lite, .roundRobin, fun _ ↦ 0⟩

/-- All threads but the requester are idle, and the place has the larger index. -/
theorem spawn_not_strided :
    (start (threeCores 2)).findPlace (threeCores 2) ⟨0, 0⟩ = some ⟨1, 1⟩ ∧
      (start (threeCores 2)).Open (threeCores 2) ⟨0, 0⟩ 0 0 :=
  ⟨rfl, by decide, by decide, by decide, rfl⟩

theorem spawn_strided_iff_single :
    (start (threeCores 1)).choosePlace (threeCores 1) ⟨0, 0, ⟨0, 0⟩, none⟩ = .ok ⟨1, 0⟩ ∧
      (start (threeCores 1)).Strided (threeCores 1) ⟨0, 0⟩ ⟨1, 0⟩ := by
  have hstrided := @spawn_strided_iff (threeCores 1) (start (threeCores 1)) ⟨0, 0, ⟨0, 0⟩, none⟩ rfl
  refine ⟨rfl, (hstrided.of_eq_ok rfl).mpr fun _ _ _ _ h h' ↦ ?_⟩
  exact (Nat.lt_one_iff.mp h.index).trans (Nat.lt_one_iff.mp h'.index).symm

end CarbonSim.Threads.Master
