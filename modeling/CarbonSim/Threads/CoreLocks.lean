import CarbonSim.Threads.Affinity

/-!
# The locks of the cores

The scheduler has a lock for every core. The functions below list what a call does with them, in the
order of the source: `yieldThread` runs in the process of the thread, the others on the master.
-/

namespace CarbonSim.Threads

inductive LockOp
  | acquire (tile : ℕ)
  | release (tile : ℕ)
  deriving DecidableEq, Repr

/-- The number of locks of the core of `tile` that a call has acquired and not released. It cannot
release a lock that it has not acquired. -/
def LockOp.step (tile held : ℕ) : LockOp → Option ℕ
  | acquire t => some (if t = tile then held + 1 else held)
  | release t => if t = tile then (if held = 0 then none else some (held - 1)) else some held

/-- A call releases only locks that it has acquired itself, and in the end it has released them. -/
def Bracketed (ops : List LockOp) : Prop :=
  ∀ tile held, ops.foldlM (LockOp.step tile) held = some held

namespace Bracketed

variable {ops ops' : List LockOp}

theorem nil : Bracketed [] := fun _ _ ↦ rfl

theorem append (h : Bracketed ops) (h' : Bracketed ops') : Bracketed (ops ++ ops') := fun tile held ↦ by
  rw [List.foldlM_append, h tile held]
  exact h' tile held

theorem wrap (tile : ℕ) (h : Bracketed ops) : Bracketed (.acquire tile :: ops ++ [.release tile]) := by
  intro t held
  rw [List.foldlM_append, List.foldlM_cons]
  show (ops.foldlM _ _ >>= _) = _
  rw [h]
  by_cases ht : tile = t <;> simp [LockOp.step, ht]

theorem pair (tile : ℕ) : Bracketed [.acquire tile, .release tile] := nil.wrap tile

end Bracketed

/-! ### The client -/

/-- The loop in which a thread waits until it is the next one of its core; `nexts` are the values of
`m_local_next_tidx` that it sees. -/
def waitLocks (tile : ℕ) (index : Option ℕ) : List (Option ℕ) → List LockOp
  | [] => []
  | next :: rest =>
    if index = next then [] else .release tile :: .acquire tile :: waitLocks tile index rest

/-- `yieldThread` on the core of `tile`; the master replies with `dst` and `index`. -/
def yieldLocks (quantum now last : UInt32) (tile dst : ℕ) (index : Option ℕ)
    (nexts : List (Option ℕ)) : List LockOp :=
  if tile = 0 then []
  else if quantum ≤ now - last then
    .acquire tile :: (if dst = tile then [] else [.release tile, .acquire dst]) ++
      waitLocks dst index nexts ++ [.release dst]
  else [.release tile]

theorem bracketed_wait (tile : ℕ) (index : Option ℕ) (nexts : List (Option ℕ)) :
    Bracketed (.acquire tile :: waitLocks tile index nexts ++ [.release tile]) := by
  induction nexts with
  | nil => exact .pair tile
  | cons next rest ih =>
    unfold waitLocks
    split_ifs
    · exact .pair tile
    · exact (Bracketed.pair tile).append ih

/-! ### The master -/

/-- `masterMigrateThread` with both places given. -/
def migrateLocks (src dst : ℕ) (index : Option ℕ) : List LockOp :=
  if index = none then [] else [.acquire src, .acquire dst, .release dst, .release src]

theorem bracketed_migrate (src dst : ℕ) (index : Option ℕ) :
    Bracketed (migrateLocks src dst index) := by
  unfold migrateLocks
  split_ifs
  · exact .nil
  · exact (Bracketed.pair dst).wrap src

namespace Master

variable (cfg : Config) (m : Master)

def masterMigrateLocks (tid tile : ℕ) : Except Fault (List LockOp) := do
  require (tile < cfg.totalTiles) .outOfRange
  match m.getIdleThread cfg tile with
  | none => return []
  | some j =>
    let src ← m.lookupThreadIndex tid
    return migrateLocks src.tile tile (some j)

/-- `masterCheckAffinityAndMigrate`. -/
def affinityLocks (x : Slot) : Except Fault (List LockOp) := do
  let tile ← m.affinityTile cfg x
  if tile = x.tile then return []
  else return .release x.tile :: migrateLocks x.tile tile (m.getIdleThread cfg tile) ++
    [.acquire x.tile]

def masterYieldLocks (x : Slot) : Except Fault (List LockOp) := do
  require ((m.waiterQueue x.tile).head?.map (·.destination.index) = some x.index) .yieldNotFront
  let s ← (m.stallThread x).requeueThread cfg x.tile
  let moves ← s.affinityLocks cfg x
  return .acquire x.tile :: moves ++ [.release x.tile]

end Master

open Master

/-- A thread stays exactly if its mask has its core or no core that runs no thread. -/
theorem affinityTile_stays_iff {cfg : Config} {m : Master} {x : Slot} :
    Outcome (m.affinityTile cfg x) (fun tile ↦ tile = x.tile ↔
        x.tile ∈ m.cpuSets (m.threadState x).cpuSet ∨
          ∀ tile ∈ m.maskTiles cfg x, ¬ m.NoneRuns cfg tile)
      fun fault ↦ fault = .twoRunning := by
  unfold affinityTile
  dsimp only
  split_ifs with hset
  · show x.tile = x.tile ↔ _
    refine iff_of_true rfl (hset.symm.imp_right fun hempty tile hmem ↦ ?_)
    rw [maskTiles, hempty] at hmem
    simp at hmem
  · obtain ⟨-, haway⟩ := not_or.mp hset
    refine (firstFreeCore_outcome _).bind_mono (fun _ hfault ↦ hfault.1) fun free hfree ↦ ?_
    show free.getD x.tile = x.tile ↔ _
    rw [hfree, or_iff_right haway]
    cases hfind : List.find? _ _ with
    | none =>
    exact iff_of_true rfl fun tile hmem ↦ by simpa using List.find?_eq_none.mp hfind tile hmem
    | some tile =>
      have hmem := List.mem_of_find?_eq_some hfind
      refine iff_of_false (fun heq ↦ haway ?_) fun hruns ↦ hruns tile hmem ?_
      · have hmask := of_decide_eq_true (List.mem_filter.mp hmem).2
        exact heq ▸ hmask
      · have hnone := List.find?_some hfind
        exact of_decide_eq_true hnone

/-- A call that begins with a release is not bracketed. -/
theorem not_bracketed_release (tile : ℕ) (ops : List LockOp) :
    ¬ Bracketed (.release tile :: ops) := by
  intro h
  have hnone := h tile 0
  simp [LockOp.step] at hnone

/-- `yieldThread` is bracketed exactly if the quantum has elapsed or the core is core 0, and a check
of the affinity on its own exactly if the thread stays. The others always are. -/
theorem locks_bracketed_iff (cfg : Config) (m : Master) :
    (∀ quantum now last tile dst index nexts,
      Bracketed (yieldLocks quantum now last tile dst index nexts) ↔
        tile = 0 ∨ quantum ≤ now - last) ∧
    (∀ x, Yields (m.masterYieldLocks cfg x) Bracketed) ∧
    (∀ x, Outcome (m.affinityLocks cfg x)
      (fun ops ↦ Bracketed ops ↔ x.tile ∈ m.cpuSets (m.threadState x).cpuSet ∨
        ∀ tile ∈ m.maskTiles cfg x, ¬ m.NoneRuns cfg tile)
      fun fault ↦ fault = .twoRunning) ∧
    (∀ tid tile, Yields (m.masterMigrateLocks cfg tid tile) Bracketed) ∧
    ∀ src dst index, Bracketed (migrateLocks src dst index) := by
  refine ⟨fun quantum now last tile dst index nexts ↦ ?_, fun x ↦ ?_, fun x ↦ ?_,
    fun tid tile ↦ ?_, bracketed_migrate⟩
  · unfold yieldLocks
    split_ifs with hfirst helapsed hdst
    · exact iff_of_true .nil (.inl hfirst)
    · refine iff_of_true ?_ (.inr helapsed)
      rw [hdst]
      exact bracketed_wait tile index nexts
    · exact iff_of_true ((Bracketed.pair tile).append (bracketed_wait dst index nexts))
        (.inr helapsed)
    · exact iff_of_false (not_bracketed_release tile []) (not_or.mpr ⟨hfirst, helapsed⟩)
  · refine .check fun _ ↦ ?_
    refine .skip fun s ↦ ?_
    have hmoves : Yields (s.affinityLocks cfg x) (fun moves ↦ moves = [] ∨ ∃ ops, Bracketed ops ∧
        moves = .release x.tile :: ops ++ [.acquire x.tile]) := by
      refine .skip fun tile ↦ ?_
      split_ifs
      · exact .inl rfl
      · exact .inr ⟨_, bracketed_migrate _ _ _, rfl⟩
    refine hmoves.bind fun moves hmoves ↦ ?_
    obtain rfl | ⟨ops, hops, rfl⟩ := hmoves
    · exact .pair x.tile
    · have h := ((Bracketed.pair x.tile).append hops).append (.pair x.tile)
      simpa using h
  · refine affinityTile_stays_iff.bind fun tile hstays ↦ ?_
    rw [← hstays]
    split_ifs with htile
    · exact iff_of_true .nil htile
    · exact iff_of_false (not_bracketed_release x.tile _) htile
  · refine .check fun _ ↦ ?_
    split
    · exact .nil
    · exact .skip fun src ↦ bracketed_migrate _ _ _

theorem locks_not_bracketed :
    ¬ Bracketed (yieldLocks 1 0 0 1 1 none []) ∧
      ∃ ops, (masked (threeCores 1) .idle).affinityLocks (threeCores 1) ⟨1, 0⟩ = .ok ops ∧
        ¬ Bracketed ops :=
  ⟨fun h ↦ absurd (h 1 0) (by decide), _, rfl, fun h ↦ absurd (h 1 0) (by decide)⟩

end CarbonSim.Threads
