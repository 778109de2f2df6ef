import CarbonSim.Threads.Migration

/-!
# Migration and affinity

A migration moves a thread from one place to another. A thread that yields and has an affinity mask
without its core is sent to the first core of the mask that runs no thread.
-/

namespace CarbonSim.Threads.Master

open Function List

variable {cfg : Config} {m m' : Master} {src dst x : Slot}

/-! ### Migration -/

/-- What a migration from `src` to `dst` does. The requests for the old place leave the queue of its
core, one of them goes to the end of the other queue, and the id of the thread is mapped to the new
place, which takes over the state of the thread. -/
structure Conserves (cfg : Config) (m m' : Master) (src dst : Slot) : Prop where
  appended : ∃ req ∈ m.waiterQueue src.tile, req.destination.index = src.index ∧
    m'.waiterQueue dst.tile = m.waiterQueue dst.tile ++ [{ req with destination := dst }]
  removed : m'.waiterQueue src.tile =
    (m.waiterQueue src.tile).filter (·.destination.index ≠ src.index)
  queues : ∀ tile, tile ≠ src.tile → tile ≠ dst.tile → m'.waiterQueue tile = m.waiterQueue tile
  ids : ∃ tid, m.threadId src = some tid ∧ tid < m.tidToCoreMap.length ∧
    m'.tidToCoreMap = m.tidToCoreMap.set tid dst
  left : m'.threadState src = { m.threadState src with status := .idle }
  arrived : ∃ startable, m.isStartable cfg dst.tile = .ok startable ∧
    m'.threadState dst = { m.threadState src with
      status := if startable = true ∧ m.status src ≠ .initializing then .running else m.status src }
  others : ∀ x, x ≠ src → x ≠ dst → m'.threadState x = m.threadState x

theorem goOn_outcome {t : ThreadState} (hdst : m.threadState dst = t) : Yields (m.goOn cfg dst)
    (fun m' ↦ m'.waiterQueue = m.waiterQueue ∧ m'.tidToCoreMap = m.tidToCoreMap ∧
      m'.threadState = update m.threadState dst
        { t with status := if t.status ≠ .initializing then .running else t.status }) := by
  subst hdst
  show Yields (if (m.threadState dst).status = .initializing then _ else _) _
  by_cases hinit : (m.threadState dst).status = .initializing
  · rw [if_pos hinit, if_neg (not_not.mpr hinit)]
    refine .lookup fun req _ ↦ ?_
    refine .check fun _ ↦ ?_
    unfold launch
    cases cfg.simulationMode <;> exact ⟨rfl, rfl, (update_eq_self dst m.threadState).symm⟩
  · rw [if_neg hinit, if_pos hinit]
    exact .require_bind (fun _ ↦ ⟨rfl, rfl, rfl⟩) fun _ ↦ trivial

theorem migrateThread_conserves (m : Master) (src dst : Slot) :
    Yields (m.migrateThread cfg src dst) (fun m' ↦ m.Conserves cfg m' src dst) := by
  refine .check fun hne ↦ ?_
  have hslot : src ≠ dst := fun heq ↦ hne (congrArg Slot.tile heq)
  refine Yields.check fun _ ↦ ?_
  refine ((dequeueThread_outcome m src).mono_fault fun _ _ ↦ trivial).bind ?_
  rintro ⟨m₁, req⟩ ⟨hreq, hm₁⟩
  obtain ⟨hmem, hindex⟩ := mem_filter.mp hreq
  dsimp only at hm₁ ⊢
  have hqueue : (m.setQueue src.tile
      ((m.waiterQueue src.tile).filter (·.destination.index ≠ src.index))).waiterQueue dst.tile =
        m.waiterQueue dst.tile := update_of_ne hne.symm ..
  rw [hm₁, hqueue]
  refine Yields.after fun startable hstartable ↦ ?_
  refine Yields.check fun _ ↦ ?_
  refine .check fun _ ↦ ?_
  refine (setThreadIndex_outcome _ _ dst).bind ?_
  rintro m₂ ⟨tid, htid, hlt, rfl⟩
  set m₁ : Master := { m with tidToCoreMap := m.tidToCoreMap.set tid dst }
  -- whether the thread goes on or not, the queues and the ids stay as the move leaves them
  have hconserves : ∀ m', m'.waiterQueue = (m₁.relocate src dst req).waiterQueue →
      m'.tidToCoreMap = m₁.tidToCoreMap → m'.threadState =
        update (m₁.moveThread src dst).threadState dst { m.threadState src with
          status := if startable = true ∧ m.status src ≠ .initializing then .running
            else m.status src } → m.Conserves cfg m' src dst := by
    intro m' hqueue hmap hthread
    have hmoved (x : Slot) := threadState_moveThread m₁ hslot x
    refine ⟨⟨req, hmem, of_decide_eq_true hindex, ?_⟩, ?_, fun tile hsrc hdst ↦ ?_,
      ⟨tid, htid, hlt, hmap⟩, ?_, ⟨startable, hstartable, ?_⟩, fun x hsrc hdst ↦ ?_⟩
    · rw [hqueue]
      exact update_self ..
    · rw [hqueue]
      exact (update_of_ne hne ..).trans (update_self ..)
    · rw [hqueue]
      exact (update_of_ne hdst ..).trans (update_of_ne hsrc ..)
    · rw [hthread, update_of_ne hslot, hmoved, if_neg hslot, if_pos rfl]
    · rw [hthread, update_self]
    · rw [hthread, update_of_ne hdst, hmoved, if_neg hdst, if_neg hsrc]
  have hdst : (m₁.moveThread src dst).threadState dst = m.threadState src := by
    rw [threadState_moveThread m₁ hslot, if_pos rfl]
  cases startable with
  | false =>
    refine hconserves _ rfl rfl ?_
    exact eq_update_self_iff.mpr hdst
  | true =>
    have hgo : Yields ((m₁.relocate src dst req).goOn cfg dst) _ := goOn_outcome hdst
    refine hgo.mono fun m' hm' ↦ ?_
    refine hconserves m' hm'.1 hm'.2.1 ?_
    simp only [true_and]
    exact hm'.2.2

/-- A migration that returns conserves the threads: nothing changes but for the thread that moves. -/
theorem migration_conserves (h : m.migrateThread cfg src dst = .ok m') :
    m.Conserves cfg m' src dst :=
  (migrateThread_conserves m src dst).of_eq_ok h

theorem migration_conserves_spawned : ∃ m m',
    (start (threeCores 1)).masterSpawnThread (threeCores 1) ⟨0, 0, ⟨0, 0⟩, some 1⟩ = .ok m ∧
      m.migrateThread (threeCores 1) ⟨1, 0⟩ ⟨2, 0⟩ = .ok m' ∧
      m.Conserves (threeCores 1) m' ⟨1, 0⟩ ⟨2, 0⟩ :=
  ⟨_, _, rfl, rfl, migration_conserves rfl⟩

/-! ### Affinity -/

/-- The tiles of the affinity mask of the thread at a place. -/
def maskTiles (cfg : Config) (m : Master) (x : Slot) : List ℕ :=
  (List.range cfg.totalTiles).filter (· ∈ m.cpuSets (m.threadState x).cpuSet)

/-- No thread of the core runs. -/
def NoneRuns (cfg : Config) (m : Master) (tile : ℕ) : Prop :=
  ∀ j < cfg.maxThreadsPerCore, m.status ⟨tile, j⟩ ≠ .running

instance (tile : ℕ) : Decidable (m.NoneRuns cfg tile) := inferInstanceAs (Decidable (∀ j < _, _))

/-- The core that a thread should go to: of the cores of its mask with an idle thread the first that
runs no thread, or else the first. -/
def affinityGoal (cfg : Config) (m : Master) (x : Slot) : Option ℕ :=
  ((m.maskTiles cfg x).find? fun tile ↦ m.getIdleThread cfg tile ≠ none ∧ m.NoneRuns cfg tile).or
    ((m.maskTiles cfg x).find? (m.getIdleThread cfg · ≠ none))

/-- At most one thread of the core runs, as `isCoreRunning` asserts. -/
def OneRuns (cfg : Config) (m : Master) (tile : ℕ) : Prop :=
  ∀ i < cfg.maxThreadsPerCore, ∀ j < cfg.maxThreadsPerCore, m.status ⟨tile, i⟩ = .running →
    m.status ⟨tile, j⟩ = .running → i = j

theorem isCoreRunning_outcome (m : Master) (tile : ℕ) : Outcome (m.isCoreRunning cfg tile)
    (fun running ↦ running = none ↔ m.NoneRuns cfg tile)
    fun fault ↦ fault = .twoRunning ∧ ¬ m.OneRuns cfg tile := by
  have hmem : ∀ j, j ∈ (List.range cfg.maxThreadsPerCore).filter (m.status ⟨tile, ·⟩ = .running) ↔
      j < cfg.maxThreadsPerCore ∧ m.status ⟨tile, j⟩ = .running := by simp
  have hnodup := (nodup_range (n := cfg.maxThreadsPerCore)).filter (m.status ⟨tile, ·⟩ = .running)
  unfold isCoreRunning
  split
  · next heq =>
    rw [heq] at hmem
    exact iff_of_true rfl fun j hj hrun ↦ not_mem_nil ((hmem j).mpr ⟨hj, hrun⟩)
  · next j heq =>
    rw [heq] at hmem
    obtain ⟨hj, hrun⟩ := (hmem j).mp mem_cons_self
    exact iff_of_false nofun fun hnone ↦ hnone j hj hrun
  · next hnil hsingle =>
    refine ⟨rfl, fun hone ↦ ?_⟩
    match hlist : (List.range cfg.maxThreadsPerCore).filter (m.status ⟨tile, ·⟩ = .running) with
    | [] => exact hnil hlist
    | [j] => exact hsingle j hlist
    | i :: j :: rest =>
      rw [hlist] at hmem hnodup
      obtain ⟨hi, hruni⟩ := (hmem i).mp mem_cons_self
      obtain ⟨hj, hrunj⟩ := (hmem j).mp (mem_cons_of_mem i mem_cons_self)
      have hne : i ≠ j := fun heq ↦ (nodup_cons.mp hnodup).1 (heq ▸ mem_cons_self)
      exact hne (hone i hi j hj hruni hrunj)

/-- The loop over the mask stops at the first core without a running thread. -/
theorem firstFreeCore_outcome (tiles : List ℕ) :
    Outcome (m.firstFreeCore cfg tiles) (fun free ↦ free = tiles.find? (m.NoneRuns cfg ·))
      fun fault ↦ fault = .twoRunning ∧ ∃ tile ∈ tiles, ¬ m.OneRuns cfg tile := by
  induction tiles with
  | nil => exact rfl
  | cons tile rest ih =>
    refine (isCoreRunning_outcome m tile).bind_mono (fun fault ⟨hfault, htwo⟩ ↦
      ⟨hfault, tile, mem_cons_self, htwo⟩) fun running hrunning ↦ ?_
    rw [find?_cons]
    by_cases hfree : running = none
    · rw [if_pos hfree, decide_eq_true (hrunning.mp hfree)]
      exact rfl
    · rw [if_neg hfree, decide_eq_false fun h ↦ hfree (hrunning.mpr h)]
      exact ih.mono_fault fun fault ⟨hfault, tile', hmem, htwo⟩ ↦
        ⟨hfault, tile', mem_cons_of_mem tile hmem, htwo⟩

/-- A thread that yields: `masterYieldThread` has stalled it and moved its request to the end of the
queue. The cores of its mask run one thread at most. -/
structure Yielding (cfg : Config) (m : Master) (x : Slot) : Prop where
  stalled : m.status x = .stalled
  queued : ∃ req ∈ m.waiterQueue x.tile, req.destination.index = x.index
  recorded : ∃ tid, m.threadId x = some tid ∧ tid < m.tidToCoreMap.length
  masked : m.cpuSets (m.threadState x).cpuSet ≠ []
  away : x.tile ∉ m.cpuSets (m.threadState x).cpuSet
  one : ∀ tile ∈ m.maskTiles cfg x, m.OneRuns cfg tile

/-- In a consistent state a thread that runs and yields is one. -/
theorem Consistent.yielding {blocked launched : List Slot} (h : m.Consistent cfg blocked launched)
    (hx : m.status x = .running) (hsolo : ¬ cfg.Solo x.tile)
    (hid : ∃ tid, m.threadId x = some tid ∧ tid < m.tidToCoreMap.length)
    (hmask : m.cpuSets (m.threadState x).cpuSet ≠ [])
    (haway : x.tile ∉ m.cpuSets (m.threadState x).cpuSet) :
    Yields ((m.stallThread x).requeueThread cfg x.tile) (·.Yielding cfg x) := by
  obtain ⟨req, rest, hqueue, hreq⟩ := h.front hx hsolo
  refine ((requeueThread_front (m := m.stallThread x) hqueue).mono_fault fun _ _ ↦ trivial).imp ?_
  rintro m₁ rfl
  obtain ⟨hm₁, -⟩ := h.requeue hx hsolo hqueue hreq
  have hstate : (m.stallThread x).threadState x = { m.threadState x with status := .stalled } :=
    update_self ..
  refine ⟨congrArg ThreadState.status hstate, ⟨req, ?_, congrArg Slot.index hreq⟩, ?_, ?_, ?_,
    fun tile _ i _ j _ hi hj ↦ ?_⟩
  · show req ∈ update (m.stallThread x).waiterQueue x.tile (rest ++ [req]) x.tile
    rw [update_self]
    exact mem_append_right rest mem_cons_self
  · obtain ⟨tid, htid, hlt⟩ := hid
    exact ⟨tid, (congrArg ThreadState.threadId hstate).trans htid, hlt⟩
  · exact (congrArg (m.cpuSets ·.cpuSet) hstate).trans_ne hmask
  · show x.tile ∉ m.cpuSets ((m.stallThread x).threadState x).cpuSet
    rw [hstate]
    exact haway
  · exact congrArg Slot.index ((hm₁.inv.running _ hi).unique (hm₁.inv.running _ hj) rfl)

/-- A thread that yields can migrate to an idle thread of another core that runs none. -/
theorem Yielding.migrates (h : m.Yielding cfg x) (dst : Slot) (hne : x.tile ≠ dst.tile)
    (hidle : m.status dst = .idle) (hnone : m.NoneRuns cfg dst.tile) :
    ∃ m', m.migrateThread cfg x dst = .ok m' ∧ m.Conserves cfg m' x dst := by
  have hreturns : Outcome (m.migrateThread cfg x dst) (fun _ ↦ True) fun _ ↦ False := by
    obtain ⟨req, hreq, hindex⟩ := h.queued
    obtain ⟨tid, htid, hlt⟩ := h.recorded
    refine .require_pos hne ?_
    refine .require_pos (by rw [h.stalled]; decide) ?_
    have hdequeue : Outcome (m.dequeueThread x) (fun r ↦ r.1 = m.setQueue x.tile
        ((m.waiterQueue x.tile).filter (·.destination.index ≠ x.index))) fun _ ↦ False := by
      refine .fetch_bind (fun _ _ ↦ rfl) fun hlast ↦ ?_
      have hnone := filter_eq_nil_iff.mp (getLast?_eq_none_iff.mp hlast) req hreq
      exact hnone (decide_eq_true hindex)
    refine hdequeue.bind ?_
    rintro ⟨m₁, req'⟩ hm₁
    dsimp only at hm₁ ⊢
    subst hm₁
    -- nothing so far has changed a status, so the core still runs no thread
    refine .bind (m := fun _ ↦ True) (.bind (m := fun _ ↦ True) ?_ fun _ _ ↦ trivial)
      fun startable _ ↦ ?_
    · refine (isCoreRunning_outcome _ dst.tile).mono (fun _ _ ↦ trivial) fun fault hfault ↦ ?_
      exact hfault.2 fun i hi _ _ hrun ↦ absurd hrun (hnone i hi)
    refine .require_pos (show m.status x ≠ .idle by rw [h.stalled]; decide) ?_
    refine .require_pos (show m.status dst = .idle from hidle) ?_
    refine .bind (m := fun m₂ ↦ m₂.threadState = m.threadState) ?_ fun m₂ hm₂ ↦ ?_
    · refine .fetch_bind (fun u hu ↦ ?_) fun hno ↦ ?_
      · cases htid.symm.trans hu
        exact .require_pos hlt rfl
      · cases htid.symm.trans hno
    have hmoved : ((m₂.moveThread x dst).threadState dst).status = .stalled := by
      rw [threadState_moveThread m₂ (fun heq ↦ hne (congrArg Slot.tile heq)), if_pos rfl, hm₂]
      exact h.stalled
    split_ifs
    · show Outcome
        (if ((m₂.moveThread x dst).threadState dst).status = .initializing then _ else _) _ _
      rw [if_neg (by rw [hmoved]; decide)]
      exact .require_pos (show ((m₂.moveThread x dst).threadState dst).status ≠ .running by
        rw [hmoved]; decide) trivial
    · trivial
  obtain ⟨m', hm', -⟩ := hreturns.exists_ok fun _ hfalse ↦ hfalse
  exact ⟨m', hm', (migrateThread_conserves m x dst).of_eq_ok hm'⟩

/-- What the check should do, with the place of the thread afterwards: the thread has moved to an
idle thread of its goal, or it has stayed for want of a goal. -/
def Honours (cfg : Config) (m : Master) (x : Slot) (r : Master × ℕ × Option ℕ) : Prop :=
  match m.affinityGoal cfg x with
  | some tile => ∃ j, m.getIdleThread cfg tile = some j ∧ r.2 = (tile, some j) ∧
      m.Conserves cfg r.1 x ⟨tile, j⟩
  | none => r = (m, x.tile, some x.index)

/-- The goal is the first core of the mask that runs no thread, if that one has an idle thread. -/
theorem affinityGoal_of_idle {tile : ℕ} (hidle : m.getIdleThread cfg tile ≠ none)
    (hfind : (m.maskTiles cfg x).find? (m.NoneRuns cfg ·) = some tile) :
    m.affinityGoal cfg x = some tile := by
  obtain ⟨hnone, before, after, hsplit, hbefore⟩ := find?_eq_some_iff_append.mp hfind
  have hfirst : (m.maskTiles cfg x).find?
      (fun tile ↦ m.getIdleThread cfg tile ≠ none ∧ m.NoneRuns cfg tile) = some tile := by
    refine find?_eq_some_iff_append.mpr ⟨decide_eq_true ⟨hidle, of_decide_eq_true hnone⟩, before,
      after, hsplit, fun tile' hmem ↦ ?_⟩
    have hruns := hbefore tile' hmem
    simp only [Bool.not_eq_true', decide_eq_false_iff_not] at hruns ⊢
    exact fun h ↦ hruns h.2
  rw [affinityGoal, hfirst]
  rfl

/-- A goal is a core of the mask with an idle thread. -/
theorem mem_of_affinityGoal {tile : ℕ} (h : m.affinityGoal cfg x = some tile) :
    tile ∈ m.maskTiles cfg x := by
  rcases Option.or_eq_some_iff.mp h with hfirst | ⟨-, hother⟩
  · exact mem_of_find?_eq_some hfirst
  · exact mem_of_find?_eq_some hother

theorem affinityGoal_eq_none : m.affinityGoal cfg x = none ↔
    ∀ tile ∈ m.maskTiles cfg x, m.getIdleThread cfg tile = none := by
  rw [affinityGoal, Option.or_eq_none_iff, find?_eq_none, find?_eq_none]
  simp only [decide_eq_true_eq, not_not]
  exact ⟨fun h ↦ h.2, fun h ↦ ⟨fun tile hmem hidle ↦ hidle.1 (h tile hmem), h⟩⟩

/-- The check returns and does what it should exactly if the first core of the mask that runs no
thread has an idle thread, or there is no such core and no core of the mask has an idle thread. -/
theorem affinity_honoured_iff (h : m.Yielding cfg x) :
    (∃ r, m.masterCheckAffinityAndMigrate cfg x = .ok r ∧ m.Honours cfg x r) ↔
      match (m.maskTiles cfg x).find? (m.NoneRuns cfg ·) with
      | some tile => m.getIdleThread cfg tile ≠ none
      | none => ∀ tile ∈ m.maskTiles cfg x, m.getIdleThread cfg tile = none := by
  have haway : ∀ tile ∈ m.maskTiles cfg x, tile ≠ x.tile := fun tile hmem heq ↦
    h.away (heq ▸ of_decide_eq_true (mem_filter.mp hmem).2)
  have hloop : Outcome (m.firstFreeCore cfg (m.maskTiles cfg x)) _ _ := firstFreeCore_outcome _
  obtain ⟨free, hfree, hfind⟩ := hloop.exists_ok fun fault hfault ↦ by
    obtain ⟨-, tile, hmem, htwo⟩ := hfault
    exact htwo (h.one tile hmem)
  have htile : m.affinityTile cfg x = .ok (free.getD x.tile) := by
    unfold affinityTile
    rw [if_neg (not_or.mpr ⟨h.masked, h.away⟩)]
    exact congrArg (· >>= _) hfree
  rw [← hfind]
  cases free with
  | none =>
    -- the thread stays, which is right only if it has no goal
    have hcall : m.masterCheckAffinityAndMigrate cfg x = .ok (m, x.tile, some x.index) := by
      rw [masterCheckAffinityAndMigrate, htile]
      exact if_pos rfl
    simp only [hcall, Except.ok.injEq, exists_eq_left', ← affinityGoal_eq_none]
    unfold Honours
    cases hgoal : m.affinityGoal cfg x with
    | none => exact iff_of_true rfl rfl
    | some tile =>
      refine iff_of_false ?_ (Option.some_ne_none tile)
      rintro ⟨j, -, hplace, -⟩
      exact haway tile (mem_of_affinityGoal hgoal) (congrArg Prod.fst hplace).symm
  | some tile =>
    have hmem := mem_of_find?_eq_some hfind.symm
    have hnone := find?_some hfind.symm
    cases hj : m.getIdleThread cfg tile with
    | none =>
      -- the call says that the thread has moved
      have hcall : m.masterCheckAffinityAndMigrate cfg x = .ok (m, tile, none) := by
        rw [masterCheckAffinityAndMigrate, htile]
        refine (if_neg (haway tile hmem)).trans ?_
        rw [Option.getD_some, hj]
        rfl
      refine iff_of_false ?_ (not_not.mpr hj)
      rintro ⟨r, hr, hhonours⟩
      cases hcall.symm.trans hr
      unfold Honours at hhonours
      split at hhonours
      · obtain ⟨j, -, hplace, -⟩ := hhonours
        cases hplace
      · exact haway tile hmem (congrArg (·.2.1) hhonours)
    | some j =>
      have hidle : m.getIdleThread cfg tile ≠ none := hj ▸ Option.some_ne_none j
      refine iff_of_true ?_ hidle
      obtain ⟨m', hm', hconserves⟩ := h.migrates ⟨tile, j⟩ (haway tile hmem).symm
        (getIdleThread_eq_some hj).1 (of_decide_eq_true hnone)
      have hcall : m.masterCheckAffinityAndMigrate cfg x = .ok (m', tile, some j) := by
        rw [masterCheckAffinityAndMigrate, htile]
        refine (if_neg (haway tile hmem)).trans ?_
        rw [Option.getD_some, hj]
        exact congrArg (· >>= _) hm'
      refine ⟨(m', tile, some j), hcall, ?_⟩
      unfold Honours
      rw [affinityGoal_of_idle hidle hfind.symm]
      exact ⟨j, hj, rfl, hconserves⟩

/-- The mask of the stalled thread at tile 1 has tile 2 only, where the first thread has some status. -/
def masked (cfg : Config) (status : Status) : Master :=
  { (((start cfg).getNewThreadId ⟨1, 0⟩).1.setStatus ⟨1, 0⟩ .stalled).setStatus ⟨2, 0⟩ status with
    cpuSets := fun _ ↦ [2]
    waiterQueue := fun _ ↦ [⟨0, 0, ⟨0, 0⟩, ⟨1, 0⟩, 1⟩] }

/-- A core that runs a thread is never chosen, and a core whose threads are all stalled is: then
nothing moves, and the call says otherwise. -/
theorem affinity_not_honoured :
    (∃ m', (masked (threeCores 2) .running).masterCheckAffinityAndMigrate (threeCores 2) ⟨1, 0⟩ =
        .ok (m', 1, some 0) ∧
      (masked (threeCores 2) .running).affinityGoal (threeCores 2) ⟨1, 0⟩ = some 2) ∧
    ∃ m', (masked (threeCores 1) .stalled).masterCheckAffinityAndMigrate (threeCores 1) ⟨1, 0⟩ =
        .ok (m', 2, none) ∧
      (masked (threeCores 1) .stalled).affinityGoal (threeCores 1) ⟨1, 0⟩ = none :=
  ⟨⟨_, rfl, rfl⟩, _, rfl, rfl⟩

theorem affinity_honoured_iff_moved : ∃ r,
    (masked (threeCores 1) .idle).masterCheckAffinityAndMigrate (threeCores 1) ⟨1, 0⟩ = .ok r ∧
      (masked (threeCores 1) .idle).Honours (threeCores 1) ⟨1, 0⟩ r ∧ r.2 = (2, some 0) := by
  have hyielding : (masked (threeCores 1) .idle).Yielding (threeCores 1) ⟨1, 0⟩ :=
    ⟨rfl, ⟨_, mem_cons_self, rfl⟩, ⟨1, rfl, by decide⟩, by decide, by decide, by
      unfold OneRuns
      decide⟩
  obtain ⟨r, hr, hhonours⟩ := (affinity_honoured_iff hyielding).mpr nofun
  refine ⟨r, hr, hhonours, ?_⟩
  cases hr
  rfl

end CarbonSim.Threads.Master
