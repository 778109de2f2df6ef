import CarbonSim.Threads.Consistency

/-!
# Threads that move

A thread that migrates leaves the queue of its core and joins the queue of another one; a thread that
yields goes to the back of its own. Both are one change of the `Table`: the thread leaves and arrives.
-/

namespace CarbonSim.Threads

open Function List

namespace Master

variable {cfg : Config} {m m' : Master} {blocked launched : List Slot} {src dst x y : Slot}
  {rest : List ThreadSpawnRequest} {req : ThreadSpawnRequest}

/-- A thread that does not move itself stays ready. -/
theorem Ready.moved (hy : m.Ready blocked launched y) (hsrc : m.status src ≠ .idle)
    (hysrc : y ≠ src) (hydst : y ≠ dst) (htable : m'.table blocked launched =
      ((m.table blocked launched).remove src).append dst (m.status src) (m.waiterAt src)) :
    m'.Ready blocked launched y := by
  have hsame : m'.status y = m.status y := by
    have hstatus : m'.status = update (update m.status src .idle) dst
        (m.status src) := congrArg Table.status htable
    rw [hstatus, update_of_ne hydst, update_of_ne hysrc]
  refine ⟨hsame ▸ hy.busy, hsame ▸ hy.rest, hy.unblocked, hy.unlaunched, fun hjoins ↦ ?_⟩
  rw [htable] at hjoins
  exact hy.unjoining (hjoins.of_move hsrc)

/-- The state after `migrateThread` has moved the thread and before the new core goes on. -/
def relocate (m : Master) (src dst : Slot) (req : ThreadSpawnRequest) : Master :=
  ((m.setQueue src.tile ((m.waiterQueue src.tile).filter (·.destination.index ≠ src.index))).setQueue
    dst.tile (m.waiterQueue dst.tile ++ [{ req with destination := dst }])).moveThread src dst

theorem status_moveThread (m : Master) (hne : src ≠ dst) : (m.moveThread src dst).status =
    update (update m.status src .idle) dst (m.status src) := by
  funext z
  show ((m.moveThread src dst).threadState z).status = _
  rw [threadState_moveThread m hne, update_apply, update_apply]
  split_ifs <;> rfl

theorem waiterAt_moveThread (m : Master) : (m.moveThread src dst).waiterAt =
    update m.waiterAt dst (m.waiterAt src) :=
  (waiterAt_setStatus _ src .idle).trans (field_setThread (·.waiter) m dst _)

theorem queueOf_relocate (m : Master) (req : ThreadSpawnRequest) (hne : src.tile ≠ dst.tile) :
    (m.relocate src dst req).queueOf =
      ((m.table blocked launched).remove src |>.append dst (m.status src) none).queue := by
  funext c
  show (update (update m.waiterQueue src.tile _) dst.tile _ c).map _ =
    update (update m.queueOf src.tile _) dst.tile _ c
  by_cases hdst : c = dst.tile
  · subst hdst
    have hother : update m.queueOf src.tile
        ((m.queueOf src.tile).filter (· ≠ src.index)) dst.tile = m.queueOf dst.tile :=
      update_of_ne hne.symm ..
    rw [update_self, update_self, map_append]
    exact congrArg (· ++ [dst.index]) hother.symm
  · rw [update_of_ne hdst, update_of_ne hdst]
    by_cases hsrc : c = src.tile
    · subst hsrc
      rw [update_self, update_self]
      show _ = ((m.waiterQueue src.tile).map fun req ↦ req.destination.index).filter
        (fun j ↦ decide (j ≠ src.index))
      rw [filter_map]
      rfl
    · rw [update_of_ne hsrc, update_of_ne hsrc]
      rfl

theorem home_relocate (home : ∀ tile, ∀ req ∈ m.waiterQueue tile, req.destination.tile = tile)
    (req : ThreadSpawnRequest) : ∀ tile, ∀ req' ∈ (m.relocate src dst req).waiterQueue tile,
      req'.destination.tile = tile := by
  refine home_update (home_update home rfl fun req' hreq' ↦ ?_ :
    ∀ tile, ∀ req ∈ (m.setQueue src.tile _).waiterQueue tile, req.destination.tile = tile) rfl
    fun req' hreq' ↦ ?_
  · exact home _ req' (mem_filter.mp hreq').1
  · rcases mem_append.mp hreq' with hmem | hmem
    · exact home _ req' hmem
    · rw [mem_singleton.mp hmem]

/-- What a migration does besides: the queue of the old core loses the thread, and the threads of
other cores stay ready. -/
structure Migrated (cfg : Config) (m m' : Master) (blocked launched : List Slot) (src dst : Slot)
    (new : List Slot) : Prop where
  launches : m'.launches cfg = m.launches cfg ++ new
  consistent : m'.Consistent cfg blocked (launched ++ new)
  queue : m'.waiterQueue src.tile =
    (m.waiterQueue src.tile).filter (·.destination.index ≠ src.index)
  ready : ∀ y, y ≠ src → y.tile ≠ dst.tile → m.Ready blocked launched y →
    m'.Ready blocked (launched ++ new) y

/-- The ids of the threads do not matter for the schedule. -/
theorem Migrated.of_ids {map : List Slot} {new : List Slot}
    (h : Migrated cfg { m with tidToCoreMap := map } m' blocked launched src dst new) :
    Migrated cfg m m' blocked launched src dst new :=
  ⟨h.launches, h.consistent, h.queue, fun y hysrc hydst hy ↦
    h.ready y hysrc hydst ⟨hy.busy, hy.rest, hy.unblocked, hy.unlaunched, hy.unjoining⟩⟩

theorem dequeueThread_outcome (m : Master) (src : Slot) :
    Outcome (m.dequeueThread src)
      (fun r ↦ r.2 ∈ (m.waiterQueue src.tile).filter (·.destination.index = src.index) ∧
        r.1 = m.setQueue src.tile
          ((m.waiterQueue src.tile).filter (·.destination.index ≠ src.index)))
      fun fault ↦ ¬ fault.IsScheduling :=
  .fetch_bind (fun _ hreq ↦ ⟨mem_of_getLast? hreq, rfl⟩) fun _ ↦ id

theorem setThreadIndex_ids (m : Master) (tid : Option ℕ) (x : Slot) :
    Outcome (m.setThreadIndex tid x) (fun m' ↦ ∃ map, m' = { m with tidToCoreMap := map })
      fun fault ↦ ¬ fault.IsScheduling := by
  refine .fetch_bind (fun u _ ↦ ?_) fun _ ↦ id
  exact .require_bind (fun _ ↦ ⟨_, rfl⟩) fun _ ↦ id

theorem lookupThreadIndex_fault (m : Master) (tid : ℕ) :
    Outcome (m.lookupThreadIndex tid) (fun _ ↦ True) fun fault ↦ ¬ fault.IsScheduling := by
  refine .require_bind (fun _ ↦ ?_) fun _ ↦ id
  unfold fetch
  cases m.tidToCoreMap[tid]? with
  | none => exact id
  | some x => trivial

/-- The thread waits behind another one, and no blocked thread holds the core that it goes to. -/
def MigratesWell (cfg : Config) (m : Master) (src dst : Slot) : Prop :=
  (m.queueOf src.tile).head? ≠ some src.index ∧ ¬ cfg.Solo dst.tile ∧ m.Vacant cfg dst.tile

theorem requeueThread_front {tile : ℕ} (hqueue : m.waiterQueue tile = req :: rest) :
    Outcome (m.requeueThread cfg tile) (fun m' ↦ m' = m.setQueue tile (rest ++ [req]))
      fun fault ↦ ¬ fault.IsScheduling := by
  refine .require_bind (fun _ ↦ ?_) fun _ ↦ id
  rw [hqueue]
  rfl

section

variable (h : m.Consistent cfg blocked launched)

include h

/-- A ready thread leaves its core and arrives at an idle place, or at the back of its own queue. -/
theorem Consistent.moved (hready : m.Ready blocked launched src) (hsolo : ¬ cfg.Solo dst.tile)
    (hidle : update m.status src .idle dst = .idle) (hbound : dst.index < cfg.maxThreadsPerCore)
    (hstatus : m'.status = update (update m.status src .idle) dst (m.status src))
    (hwaiter : m'.waiterAt = update m.waiterAt dst (m.waiterAt src)) (hqueue : m'.queueOf =
      ((m.table blocked launched).remove src |>.append dst (m.status src) none).queue)
    (hlast : m'.lastStalledThread = m.lastStalledThread)
    (home : ∀ tile, ∀ req ∈ m'.waiterQueue tile, req.destination.tile = tile) :
    m'.Consistent cfg blocked launched ∧ m'.table blocked launched =
      ((m.table blocked launched).remove src).append dst (m.status src) (m.waiterAt src) := by
  have htable : m'.table blocked launched =
      ((m.table blocked launched).remove src).append dst (m.status src) (m.waiterAt src) := by
    unfold table
    rw [hstatus, hwaiter, hqueue, hlast]
    rfl
  refine ⟨⟨?_, home⟩, htable⟩
  rw [htable]
  exact h.inv.move hready.busy hready.unlaunched hready.unblocked hready.unjoining hsolo hidle
    hready.busy hready.rest hbound

/-- The thread that moved is ready at its new place. -/
theorem Consistent.ready_moved (hready : m.Ready blocked launched src)
    (hidle : m.status dst = .idle) (htable : m'.table blocked launched =
      ((m.table blocked launched).remove src).append dst (m.status src) (m.waiterAt src)) :
    m'.Ready blocked launched dst := by
  have hsame : m'.status dst = m.status src := by
    have hstatus : m'.status = update (update m.status src .idle) dst
        (m.status src) := congrArg Table.status htable
    rw [hstatus, update_self]
  refine ⟨hsame ▸ hready.busy, hsame ▸ hready.rest, fun hmem ↦ ?_, fun hmem ↦ ?_, fun hjoins ↦ ?_⟩
  · exact absurd (hidle.symm.trans (h.inv.blocked _ hmem).1) nofun
  · exact absurd (hidle.symm.trans (h.inv.launched _ hmem).1) nofun
  · rw [htable] at hjoins
    exact absurd (hidle.symm.trans (h.inv.joining _ (hjoins.of_move hready.busy)).1) nofun

/-! ### Migration -/

theorem Consistent.relocate (hready : m.Ready blocked launched src) (hne : src.tile ≠ dst.tile)
    (hsolo : ¬ cfg.Solo dst.tile) (hidle : m.status dst = .idle)
    (hbound : dst.index < cfg.maxThreadsPerCore) (req : ThreadSpawnRequest) :
    (m.relocate src dst req).Consistent cfg blocked launched ∧
      (m.relocate src dst req).table blocked launched =
        ((m.table blocked launched).remove src).append dst (m.status src) (m.waiterAt src) := by
  have hslot : src ≠ dst := fun heq ↦ hne (congrArg Slot.tile heq)
  have hidle' : update m.status src .idle dst = .idle := by
    rw [update_of_ne hslot.symm, hidle]
  exact h.moved hready hsolo hidle' hbound (status_moveThread _ hslot) (waiterAt_moveThread _)
    (queueOf_relocate m req hne) rfl (home_relocate h.home req)

/-- The new core goes on with the thread if it may start. -/
theorem Consistent.goOn (hready : m.Ready blocked launched src) (hne : src.tile ≠ dst.tile)
    (hsolo : ¬ cfg.Solo dst.tile) (hidle : m.status dst = .idle)
    (hbound : dst.index < cfg.maxThreadsPerCore) (req : ThreadSpawnRequest) {startable : Bool}
    (hempty : startable = true → m.waiterQueue dst.tile = []) :
    Outcome (if startable = true then (m.relocate src dst req).goOn cfg dst
        else .ok (m.relocate src dst req))
      (fun m' ↦ ∃ new, Migrated cfg m m' blocked launched src dst new)
      fun fault ↦ ¬ fault.IsScheduling := by
  obtain ⟨hmoved, htable⟩ := h.relocate hready hne hsolo hidle hbound req
  have hqueue : (m.relocate src dst req).waiterQueue src.tile =
      (m.waiterQueue src.tile).filter (·.destination.index ≠ src.index) := by
    show update (update m.waiterQueue src.tile _) dst.tile _ src.tile = _
    rw [update_of_ne hne, update_self]
  have hothers : ∀ y, y ≠ src → y.tile ≠ dst.tile → m.Ready blocked launched y →
      (m.relocate src dst req).Ready blocked launched y := fun y hysrc hydst hy ↦
    hy.moved hready.busy hysrc (fun heq ↦ hydst (congrArg Slot.tile heq)) htable
  cases startable with
  | false =>
    refine ⟨[], (append_nil _).symm, ?_, hqueue, ?_⟩
    · rw [append_nil]
      exact hmoved
    · rw [append_nil]
      exact hothers
  | true =>
    have hdst : (m.relocate src dst req).waiterQueue dst.tile = [{ req with destination := dst }] := by
      show update (update m.waiterQueue src.tile _) dst.tile _ dst.tile = _
      rw [update_self, hempty rfl]
      rfl
    have hdstReady := h.ready_moved hready hidle htable
    set next := (m.relocate src dst req).setNextTidx dst.tile (some dst.index)
    have hnext : next.Consistent cfg blocked launched := ⟨hmoved.inv, hmoved.home⟩
    have hnextReady : ∀ y, (m.relocate src dst req).Ready blocked launched y →
        next.Ready blocked launched y := fun y hy ↦
      ⟨hy.busy, hy.rest, hy.unblocked, hy.unlaunched, hy.unjoining⟩
    refine (hnext.startOrResume hdst rfl (holds_front hsolo hdst rfl) (hnextReady dst hdstReady)).mono ?_ fun _ hfault ↦
      hfault
    rintro m' ⟨new, hgoes⟩
    refine ⟨new, hgoes.launches, hgoes.consistent, ?_, fun y hysrc hydst hy ↦ ?_⟩
    · rw [hgoes.queue]
      exact hqueue
    · exact hgoes.ready y (fun heq ↦ hydst (congrArg Slot.tile heq))
        (hnextReady y (hothers y hysrc hydst hy))

theorem Consistent.migrate
    (hready : m.waiterQueue src.tile ≠ [] → m.status src ≠ .idle → m.status src ≠ .running →
      m.Ready blocked launched src)
    (hsolo : ¬ cfg.Solo dst.tile) (hbound : dst.index < cfg.maxThreadsPerCore)
    (hvacant : m.Vacant cfg dst.tile) :
    Outcome (m.migrateThread cfg src dst)
      (fun m' ↦ ∃ new, Migrated cfg m m' blocked launched src dst new)
      fun fault ↦ ¬ fault.IsScheduling := by
  refine .require_bind (fun hne ↦ ?_) fun _ ↦ id
  refine .require_bind (fun hrest ↦ ?_) fun _ ↦ id
  refine (dequeueThread_outcome m src).bind ?_
  rintro ⟨removed, req⟩ ⟨hmem, hremoved⟩
  have hremoved' : removed = m.setQueue src.tile
    ((m.waiterQueue src.tile).filter (·.destination.index ≠ src.index)) := hremoved
  have hqueue : removed.waiterQueue dst.tile = m.waiterQueue dst.tile := by
    rw [hremoved']
    exact update_of_ne hne.symm ..
  dsimp only
  rw [hqueue]
  set queued := removed.setQueue dst.tile (m.waiterQueue dst.tile ++ [{ req with destination := dst }])
  obtain ⟨b, hb, hstartable⟩ := h.isStartable dst.tile
  have hstatus : queued.status = m.status := by
    show removed.status = _
    rw [hremoved']
    rfl
  have hb' : queued.isStartable cfg dst.tile = .ok b := (isStartable_congr hstatus dst.tile).trans hb
  rw [hb', hstatus]
  refine .require_bind (fun hbusy ↦ ?_) fun _ ↦ id
  refine .require_bind (fun hidle ↦ ?_) fun _ ↦ id
  refine (setThreadIndex_ids queued _ dst).bind ?_
  rintro s₂ ⟨map, rfl⟩
  have hsrc := hready (ne_nil_of_mem (mem_of_mem_filter hmem)) hbusy hrest
  -- the ids aside, the state is the one after the move
  set m₀ : Master := { m with tidToCoreMap := map }
  have hm₀ : m₀.Consistent cfg blocked launched := ⟨h.inv, h.home⟩
  have hsrc₀ : m₀.Ready blocked launched src :=
    ⟨hsrc.busy, hsrc.rest, hsrc.unblocked, hsrc.unlaunched, hsrc.unjoining⟩
  have hm₁ : { queued with tidToCoreMap := map }.moveThread src dst = m₀.relocate src dst req := by
    simp only [queued, hremoved']
    rfl
  rw [hm₁]
  have hempty : b = true → m₀.waiterQueue dst.tile = [] := fun hstart ↦
    hvacant fun j _ ↦ hstartable.mp hstart j
  exact (hm₀.goOn hsrc₀ hne hsolo hidle hbound req hempty).imp
    (fun m' ⟨new, hnew⟩ ↦ ⟨new, hnew.of_ids⟩)

theorem Consistent.migrateRequest {tid tile : ℕ}
    (hwell : ∀ src dst, m.lookupThreadIndex tid = .ok src → m.idlePlace cfg tile = some dst →
      m.MigratesWell cfg src dst) :
    m.Safe cfg blocked launched (m.masterMigrateThread cfg tid tile) := by
  refine .require_bind (fun _ ↦ ?_) fun _ ↦ id
  cases hj : m.getIdleThread cfg tile with
  | none =>
    exact h.nothingNew rfl
  | some j =>
    have hlookup : Outcome (m.lookupThreadIndex tid) (fun src ↦ m.lookupThreadIndex tid = .ok src)
        fun fault ↦ ¬ fault.IsScheduling := by
      cases hsrc : m.lookupThreadIndex tid with
      | ok src => exact rfl
      | error fault => exact (lookupThreadIndex_fault m tid).of_eq_error hsrc
    refine hlookup.bind fun src hsrc ↦ ?_
    have hplace : m.idlePlace cfg tile = some ⟨tile, j⟩ := by
      unfold idlePlace
      rw [hj]
      rfl
    obtain ⟨hbehind, hsolo, hvacant⟩ := hwell src ⟨tile, j⟩ hsrc hplace
    have hready : m.waiterQueue src.tile ≠ [] → m.status src ≠ .idle → m.status src ≠ .running →
        m.Ready blocked launched src := by
      intro hqueue hbusy _
      refine h.ready_behind hbusy ?_
      rintro (⟨hsrcSolo, -⟩ | ⟨-, hhead⟩)
      · exact hqueue (h.queue_solo hsrcSolo)
      · exact hbehind hhead
    refine (h.migrate hready hsolo (getIdleThread_eq_some hj).2 hvacant).imp ?_
    rintro m' ⟨new, hnew⟩
    exact ⟨new, hnew.launches, hnew.consistent⟩

/-! ### Yielding -/

/-- The thread that runs is at the front of the queue of its core. -/
theorem Consistent.front (hx : m.status x = .running) (hsolo : ¬ cfg.Solo x.tile) :
    ∃ req rest, m.waiterQueue x.tile = req :: rest ∧ req.destination = x := by
  rcases h.inv.running x hx with ⟨hsolo', -⟩ | ⟨-, hhead⟩
  · exact absurd hsolo' hsolo
  · have hhead' : ((m.waiterQueue x.tile).map (·.destination.index)).head? = some x.index := hhead
    cases hqueue : m.waiterQueue x.tile with
    | nil =>
      rw [hqueue] at hhead'
      cases hhead'
    | cons req rest =>
      rw [hqueue] at hhead'
      have hindex : req.destination.index = x.index := Option.some.inj hhead'
      have htile : req.destination.tile = x.tile := by
        refine h.home x.tile req ?_
        rw [hqueue]
        exact mem_cons_self
      refine ⟨req, rest, rfl, ?_⟩
      show Slot.mk req.destination.tile req.destination.index = x
      rw [htile, hindex]

/-- The yielding thread is stalled and at the back of its queue; it and those before it are ready. -/
theorem Consistent.requeue (hx : m.status x = .running) (hsolo : ¬ cfg.Solo x.tile)
    (hqueue : m.waiterQueue x.tile = req :: rest) (hreq : req.destination = x) :
    let m₁ := (m.stallThread x).setQueue x.tile (rest ++ [req])
    m₁.Consistent cfg blocked launched ∧
      ∀ req' ∈ rest ++ [req], m₁.Ready blocked launched req'.destination := by
  intro m₁
  have hbusy : m.status x ≠ .idle := hx ▸ nofun
  have hspawning := h.spawning hx
  have hstatus : m₁.status = update (update (m.stallThread x).status x .idle) x
      ((m.stallThread x).status x) := by
    rw [update_idem, update_eq_self]
    rfl
  have hwaiter : m₁.waiterAt =
      update (m.stallThread x).waiterAt x ((m.stallThread x).waiterAt x) := by
    rw [update_eq_self]
    rfl
  have hfilter := h.filter_holder (h.inv.running x hx)
  rw [hqueue] at hfilter
  have hqueueOf : m₁.queueOf = (((m.stallThread x).table blocked launched).remove x |>.append x
      ((m.stallThread x).status x) none).queue := by
    funext c
    show (update m.waiterQueue x.tile _ c).map _ = update (update m.queueOf x.tile _) x.tile _ c
    by_cases hc : c = x.tile
    · subst hc
      rw [update_self, update_self]
      show _ = update m.queueOf x.tile ((m.queueOf x.tile).filter (· ≠ x.index)) x.tile ++ _
      rw [update_self, hfilter, map_append, ← hreq]
      rfl
    · rw [update_of_ne hc, update_of_ne hc, update_of_ne hc]
      rfl
  have hhome : ∀ tile, ∀ req' ∈ m₁.waiterQueue tile, req'.destination.tile = tile := by
    refine home_update h.home rfl fun req' hreq' ↦ h.home x.tile req' ?_
    rw [hqueue]
    exact mem_cons.mpr ((mem_append.mp hreq').symm.imp_left mem_singleton.mp)
  obtain ⟨hm₁, htable⟩ := hspawning.consistent.moved hspawning.ready hsolo (update_self ..)
    (h.inv.bounded x hbusy) hstatus hwaiter hqueueOf rfl hhome
  refine ⟨hm₁, fun req' hreq' ↦ ?_⟩
  rcases mem_append.mp hreq' with hmem | hmem
  · have htail : req' ∈ (m.waiterQueue x.tile).tail := by
      rw [hqueue]
      exact hmem
    obtain ⟨hne, hready⟩ := h.ready_tail hx htail
    have hstatus' : (m.stallThread x).status = update m.status x .stalled :=
      status_setStatus m x .stalled
    have hwaiter' : (m.stallThread x).waiterAt = m.waiterAt := waiterAt_setStatus m x .stalled
    have hstalled : (m.stallThread x).Ready blocked launched req'.destination :=
      hready.other hne hbusy hstatus' hwaiter' fun z hz ↦ .inl hz
    exact hstalled.moved hspawning.ready.busy hne hne htable
  · rw [mem_singleton.mp hmem, hreq]
    obtain ⟨hbusy, hrest, hunblocked, hunlaunched, hunjoining⟩ := hspawning.ready
    refine ⟨hbusy, hrest, hunblocked, hunlaunched, fun hjoins ↦ hunjoining ?_⟩
    rw [htable] at hjoins
    exact hjoins.of_move hbusy

theorem Consistent.firstFreeCore (tiles : List ℕ) :
    ∃ free, m.firstFreeCore cfg tiles = .ok free := by
  induction tiles with
  | nil => exact ⟨none, rfl⟩
  | cons tile rest ih =>
    obtain ⟨running, hrunning, -⟩ := h.isCoreRunning tile
    simp only [Master.firstFreeCore, hrunning]
    by_cases hfree : running = none
    · exact ⟨some tile, if_pos hfree⟩
    · obtain ⟨free, hrest⟩ := ih
      exact ⟨free, (if_neg hfree).trans hrest⟩

theorem Consistent.affinityTile (x : Slot) :
    ∃ tile, m.affinityTile cfg x = .ok tile := by
  unfold Master.affinityTile
  dsimp only
  split_ifs with hstay
  · exact ⟨x.tile, rfl⟩
  · obtain ⟨free, hfree⟩ := h.firstFreeCore
      ((List.range cfg.totalTiles).filter (· ∈ m.cpuSets (m.threadState x).cpuSet))
    exact ⟨free.getD x.tile, by rw [hfree]; rfl⟩

theorem Consistent.affinity (hready : m.Ready blocked launched x)
    (hplace : ∀ dst, m.affinityPlace cfg x = some dst → dst.tile ≠ x.tile →
      ¬ cfg.Solo dst.tile ∧ m.Vacant cfg dst.tile) :
    Outcome (m.masterCheckAffinityAndMigrate cfg x)
      (fun r ↦ r.1 = m ∨ ∃ dst new, dst.tile ≠ x.tile ∧
        Migrated cfg m r.1 blocked launched x dst new)
      fun fault ↦ ¬ fault.IsScheduling := by
  obtain ⟨tile, htile⟩ := h.affinityTile x
  unfold masterCheckAffinityAndMigrate
  unfold affinityPlace idlePlace at hplace
  rw [htile] at hplace ⊢
  show Outcome (if tile = x.tile then _ else _) _ _
  by_cases hstay : tile = x.tile
  · rw [if_pos hstay]
    exact .inl rfl
  · rw [if_neg hstay]
    simp only [if_neg hstay] at hplace
    cases hj : m.getIdleThread cfg tile with
    | none => exact .inl rfl
    | some j =>
      rw [hj] at hplace
      obtain ⟨hsolo, hvacant⟩ := hplace ⟨tile, j⟩ rfl hstay
      have hmigrate := h.migrate (fun _ _ _ ↦ hready) hsolo (getIdleThread_eq_some hj).2 hvacant
      exact hmigrate.bind fun m' ⟨new, hnew⟩ ↦ .inr ⟨⟨tile, j⟩, new, hstay, hnew⟩

/-- The next thread of a core goes on. -/
theorem Consistent.runNext {tile : ℕ} {next : Option ℕ} (hnext : m.waiterQueue tile ≠ [] →
      next = (m.waiterQueue tile).head?.map (·.destination.index))
    (hready : ∀ req ∈ (m.waiterQueue tile).head?, m.Ready blocked launched req.destination) :
    m.Safe cfg blocked launched (m.runNext cfg tile next) := by
  cases hqueue : m.waiterQueue tile with
  | nil =>
    have hend : m.runNext cfg tile next = .ok (m.setNextTidx tile none) := by
      unfold Master.runNext
      rw [if_pos hqueue]
    rw [hend]
    exact Consistent.nothingNew ⟨h.inv, h.home⟩ rfl
  | cons req rest =>
    have hne : m.waiterQueue tile ≠ [] := by
      rw [hqueue]
      exact cons_ne_nil req rest
    have hfront : m.runNext cfg tile next = m.runFront cfg tile := by
      unfold Master.runNext Master.runFront
      rw [if_neg hne, hnext hne, hqueue]
      rfl
    rw [hfront]
    exact (h.runFront (x := ⟨tile, 0⟩) hready).imp (fun m' hm' ↦ hm'.1)

/-- The rest of the queue of a thread that runs has none of its requests. -/
theorem Consistent.filter_rest (hx : m.status x = .running)
    (hqueue : m.waiterQueue x.tile = req :: rest) (hreq : req.destination = x) :
    (rest ++ [req]).filter (·.destination.index ≠ x.index) = rest := by
  have hrest : rest.filter (·.destination.index ≠ x.index) = rest := by
    refine filter_eq_self.mpr fun req' hreq' ↦ decide_eq_true fun hindex ↦ ?_
    have htail : req' ∈ (m.waiterQueue x.tile).tail := by
      rw [hqueue]
      exact hreq'
    have htile := h.home x.tile req' (mem_of_mem_tail htail)
    refine (h.ready_tail hx htail).1 ?_
    show Slot.mk req'.destination.tile req'.destination.index = x
    rw [htile, hindex]
  rw [filter_append, hrest, filter_cons_of_neg (by simp [hreq]), filter_nil,
    append_nil]

/-- After the affinity of the yielding thread has been followed, the next thread goes on. -/
theorem Consistent.runAfter {queue rest : List ThreadSpawnRequest}
    (hqueue : m.waiterQueue x.tile = queue)
    (hready : ∀ req ∈ queue, m.Ready blocked launched req.destination)
    (hrest : queue.filter (·.destination.index ≠ x.index) = rest)
    (hhead : rest ≠ [] → queue.head? = rest.head?)
    (hmove : m' = m ∨ ∃ dst new, dst.tile ≠ x.tile ∧ Migrated cfg m m' blocked launched x dst new) :
    ∃ new, m'.launches cfg = m.launches cfg ++ new ∧ m'.Safe cfg blocked (launched ++ new)
        (m'.runNext cfg x.tile (queue.head?.map (·.destination.index))) := by
  rcases hmove with rfl | ⟨dst, new, hne, hmigrated⟩
  · refine ⟨[], (append_nil _).symm, ?_⟩
    rw [append_nil]
    refine h.runNext (fun _ ↦ by rw [hqueue]) fun req hreq ↦ hready req ?_
    rw [hqueue] at hreq
    exact mem_of_head? hreq
  · have hqueue' : m'.waiterQueue x.tile = rest := by
      rw [hmigrated.queue, hqueue, hrest]
    refine ⟨new, hmigrated.launches, hmigrated.consistent.runNext (fun hne' ↦ ?_) fun req hreq ↦ ?_⟩
    · rw [hqueue'] at hne' ⊢
      rw [hhead hne']
    · rw [hqueue'] at hreq
      have hmem := mem_of_head? hreq
      rw [← hrest] at hmem
      obtain ⟨hmem, hindex⟩ := mem_filter.mp hmem
      have htile : req.destination.tile = x.tile := by
        refine h.home x.tile req ?_
        rw [hqueue]
        exact hmem
      refine hmigrated.ready _ (fun heq ↦ ?_) (fun heq ↦ hne (heq.symm.trans htile))
        (hready req hmem)
      exact of_decide_eq_true hindex (congrArg Slot.index heq)

theorem Consistent.yield (hx : m.status x = .running) (hsolo : ¬ cfg.Solo x.tile)
    (hplace : ∀ dst, (m.stallThread x).affinityPlace cfg x = some dst →
      ¬ cfg.Solo dst.tile ∧ (m.stallThread x).Vacant cfg dst.tile) :
    m.Safe cfg blocked launched (m.masterYieldThread cfg x) := by
  obtain ⟨req, rest, hqueue, hreq⟩ := h.front hx hsolo
  obtain ⟨hm₁, hready₁⟩ := h.requeue hx hsolo hqueue hreq
  have hfront : (m.waiterQueue x.tile).head?.map (·.destination.index) = some x.index := by
    rw [hqueue, ← hreq]
    rfl
  refine .require_pos hfront ?_
  have hstalled : (m.stallThread x).waiterQueue x.tile = req :: rest := hqueue
  refine (requeueThread_front hstalled).bind ?_
  rintro m₁ rfl
  have hqueue₁ : ((m.stallThread x).setQueue x.tile (rest ++ [req])).waiterQueue x.tile =
      rest ++ [req] := update_self ..
  rw [hqueue₁]
  set next := (rest ++ [req]).head?.map (·.destination.index)
  set m₁ := (m.stallThread x).setQueue x.tile (rest ++ [req]) with hm₁eq
  set m₂ := m₁.setNextTidx x.tile next with hm₂eq
  have hm₂ : m₂.Consistent cfg blocked launched := ⟨hm₁.inv, hm₁.home⟩
  have hready₂ : ∀ req' ∈ rest ++ [req], m₂.Ready blocked launched req'.destination :=
    fun req' hreq' ↦ have hy := hready₁ req' hreq'
      ⟨hy.busy, hy.rest, hy.unblocked, hy.unlaunched, hy.unjoining⟩
  have hxready : m₂.Ready blocked launched x :=
    hreq ▸ hready₂ req (mem_append_right rest mem_cons_self)
  have hplace₂ : m₂.affinityPlace cfg x = (m.stallThread x).affinityPlace cfg x := by
    apply affinityPlace_congr <;> rfl
  have haffinity := hm₂.affinity hxready fun dst hdst hne ↦ by
    obtain ⟨hdstSolo, hvacant⟩ := hplace dst (hplace₂ ▸ hdst)
    refine ⟨hdstSolo, fun hfree ↦ ?_⟩
    show update m.waiterQueue x.tile _ dst.tile = []
    rw [update_of_ne hne]
    exact hvacant hfree
  refine haffinity.bind ?_
  rintro ⟨m₃, tile, index⟩ hmove
  have hhead : rest ≠ [] → (rest ++ [req]).head? = rest.head? := fun hne ↦
    head?_append_of_ne_nil rest hne
  obtain ⟨new, hnew, hsafe⟩ := hm₂.runAfter hqueue₁ hready₂ (h.filter_rest hx hqueue hreq) hhead hmove
  refine hsafe.bind ?_
  rintro m₄ ⟨new', hnew', hm₄⟩
  refine ⟨new ++ new', ?_, ?_⟩
  · rw [launches_netSend m₄ rfl, hnew', hnew, append_assoc]
    rfl
  · rw [← append_assoc]
    exact ⟨hm₄.inv, hm₄.home⟩

end

end Master

end CarbonSim.Threads
