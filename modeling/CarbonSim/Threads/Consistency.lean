import CarbonSim.Threads.CoreTable
import CarbonSim.Threads.JoinEffects
import CarbonSim.Threads.Placement

/-!
# The master keeps its cores consistent

The tables of the master, seen as a `Table`: `Consistent` is its invariant, and `Safe` says that an
operation keeps it and fails with none of the assertions of the scheduler. This module shows it for the
operations on one core: a thread starts, stalls, is resumed, joins another one, exits or spawns.
-/

namespace CarbonSim.Threads

open Function List Master

/-- Core 0 and the cores of the system run one thread, which is not queued. -/
def Config.Solo (cfg : Config) (tile : ℕ) : Prop := tile = 0 ∨ cfg.applicationTiles ≤ tile

instance (cfg : Config) (tile : ℕ) : Decidable (cfg.Solo tile) :=
  inferInstanceAs (Decidable (_ ∨ _))

/-- The assertions of the scheduler: what is started is the front of its queue and initializing, what
yields is the front of its queue, what is resumed does not run, and a core has one running thread. -/
def Fault.IsScheduling : Fault → Prop
  | .startWaiting | .emptyQueue | .yieldNotFront | .alreadyRunning | .twoRunning
  | .exitStillRunning => True
  | _ => False

namespace Master

/-- The place of a thread that is handed to its process. -/
def lcpSpawn? : Packet → Option Slot
  | .lcpSpawn _ req => some req.destination
  | _ => none

/-- The places of the threads that have been launched so far. -/
def launches (cfg : Config) (m : Master) : List Slot :=
  match cfg.simulationMode with
  | .full => m.sent.filterMap lcpSpawn?
  | .lite => m.threadSpawnList.map ThreadSpawnRequest.destination

def queueOf (m : Master) (tile : ℕ) : List ℕ := (m.waiterQueue tile).map (·.destination.index)

/-- The table of the threads, with the blocked and the launched threads. -/
def table (m : Master) (blocked launched : List Slot) : Table :=
  ⟨m.status, m.waiterAt, m.queueOf, m.lastStalledThread, blocked, launched⟩

/-- The table is consistent, and a request in a queue is for the core of the queue. -/
structure Consistent (cfg : Config) (m : Master) (blocked launched : List Slot) : Prop where
  inv : (m.table blocked launched).Inv cfg.Solo cfg.maxThreadsPerCore
  home : ∀ tile, ∀ req ∈ m.waiterQueue tile, req.destination.tile = tile

/-- The operation fails with none of the assertions of the scheduler, or it ends in a consistent state
with the threads launched meanwhile. -/
def Safe (cfg : Config) (m : Master) (blocked launched : List Slot) (r : Except Fault Master) : Prop :=
  Outcome r (fun m' ↦ ∃ new, m'.launches cfg = m.launches cfg ++ new ∧
      m'.Consistent cfg blocked (launched ++ new))
    fun fault ↦ ¬ fault.IsScheduling

variable {cfg : Config} {m m' : Master} {blocked launched : List Slot}
  {blocked' launched' : List Slot} {x y : Slot} {req : ThreadSpawnRequest} {r : Slot} {tile : ℕ}
  {status : Status} {rest : List ThreadSpawnRequest}

theorem Consistent.nothingNew (h : m'.Consistent cfg blocked launched)
    (hlaunches : m'.launches cfg = m.launches cfg) :
    ∃ new, m'.launches cfg = m.launches cfg ++ new ∧ m'.Consistent cfg blocked (launched ++ new) :=
  ⟨[], hlaunches.trans (append_nil _).symm, (append_nil launched).symm ▸ h⟩

/-! ### The table after an update -/

theorem table_setStatus (m : Master) (x : Slot) (status : Status) :
    (m.setStatus x status).table blocked' launched' =
      (m.table blocked launched).restatus x status m.lastStalledThread blocked' launched' := by
  unfold table
  rw [status_setStatus, waiterAt_setStatus]
  rfl

/-- A thread keeps its status while the lists change. -/
theorem table_restatus_self (hx : m.status x = status) (last : ℕ → Option ℕ) :
    (m.table blocked launched).restatus x status last blocked' launched' =
      ⟨m.status, m.waiterAt, m.queueOf, last, blocked', launched'⟩ := by
  have hsame : update m.status x status = m.status := hx ▸ update_eq_self ..
  exact congrArg (Table.mk · m.waiterAt m.queueOf last blocked' launched') hsame

theorem table_stallThread (m : Master) (x : Slot) :
    (m.stallThread x).table blocked' launched' = (m.table blocked launched).restatus x .stalled
        (update m.lastStalledThread x.tile (some x.index)) blocked' launched' := by
  have hstatus : (m.stallThread x).status = update m.status x .stalled :=
    status_setStatus m x .stalled
  have hwaiter : (m.stallThread x).waiterAt = m.waiterAt := waiterAt_setStatus m x .stalled
  unfold table
  rw [hstatus, hwaiter]
  rfl

theorem table_setWaiter (m : Master) (x : Slot) (w : Option Slot) :
    (setWaiter m x w).table blocked launched = (m.table blocked launched).setWaiter x w := by
  unfold table Table.setWaiter
  rw [status_setWaiter, waiterAt_setWaiter]
  rfl

theorem queueOf_update (hqueue : m'.waiterQueue = update m.waiterQueue tile rest) :
    m'.queueOf = update m.queueOf tile (rest.map (·.destination.index)) := by
  funext c
  unfold queueOf
  rw [hqueue, update_apply, update_apply]
  split_ifs <;> rfl

theorem home_update (home : ∀ tile, ∀ req ∈ m.waiterQueue tile, req.destination.tile = tile)
    (hqueue : m'.waiterQueue = update m.waiterQueue tile rest)
    (hrest : ∀ req ∈ rest, req.destination.tile = tile) :
    ∀ c, ∀ req ∈ m'.waiterQueue c, req.destination.tile = c := by
  rw [hqueue]
  exact (Function.forall_update_iff m.waiterQueue
    fun c queue ↦ ∀ req ∈ queue, req.destination.tile = c).mpr ⟨hrest, fun c _ ↦ home c⟩

theorem launches_setStatus (m : Master) (x : Slot) (status : Status) :
    (m.setStatus x status).launches cfg = m.launches cfg := rfl

theorem launches_netSend (m : Master) {pkt : Packet} (hpkt : lcpSpawn? pkt = none) :
    (m.netSend pkt).launches cfg = m.launches cfg := by
  unfold launches
  cases cfg.simulationMode with
  | full =>
    show (m.sent ++ [pkt]).filterMap lcpSpawn? = _
    rw [filterMap_append, filterMap_cons, hpkt]
    exact append_nil _
  | lite => rfl

theorem launches_launch (m : Master) (req : ThreadSpawnRequest) :
    (m.launch cfg req).launches cfg = m.launches cfg ++ [req.destination] := by
  unfold launches launch
  cases cfg.simulationMode with
  | full =>
    show (m.sent ++ [_]).filterMap lcpSpawn? = _
    rw [filterMap_append]
    rfl
  | lite =>
    show (m.threadSpawnList ++ [req]).map _ = _
    rw [map_append]
    rfl

theorem table_launch (m : Master) (req : ThreadSpawnRequest) :
    (m.launch cfg req).table blocked launched = m.table blocked launched := by
  unfold launch
  cases cfg.simulationMode <;> rfl

theorem launch_same (m : Master) (req : ThreadSpawnRequest) :
    (m.launch cfg req).status = m.status ∧ (m.launch cfg req).waiterAt = m.waiterAt ∧
      (m.launch cfg req).lastStalledThread = m.lastStalledThread := by
  unfold launch
  cases cfg.simulationMode <;> exact ⟨rfl, rfl, rfl⟩

theorem waiterQueue_launch (m : Master) (req : ThreadSpawnRequest) :
    (m.launch cfg req).waiterQueue = m.waiterQueue := by
  unfold launch
  cases cfg.simulationMode <;> rfl

/-! ### The running thread of a core -/

/-- Some thread of the core runs. -/
theorem isCoreRunning_of_unique (cfg : Config) (m : Master) (tile : ℕ)
    (hunique : ∀ i j, m.status ⟨tile, i⟩ = .running → m.status ⟨tile, j⟩ = .running → i = j)
    (hbound : ∀ j, m.status ⟨tile, j⟩ = .running → j < cfg.maxThreadsPerCore) :
    ∃ r, m.isCoreRunning cfg tile = .ok r ∧ ∀ j, r = some j ↔ m.status ⟨tile, j⟩ = .running := by
  have hmem : ∀ j, j ∈ (List.range cfg.maxThreadsPerCore).filter
      (fun j ↦ decide (m.status ⟨tile, j⟩ = .running)) ↔ m.status ⟨tile, j⟩ = .running := by
    intro j
    rw [mem_filter, mem_range, decide_eq_true_iff]
    exact ⟨fun hj ↦ hj.2, fun hj ↦ ⟨hbound j hj, hj⟩⟩
  have hnodup : ((List.range cfg.maxThreadsPerCore).filter
      fun j ↦ decide (m.status ⟨tile, j⟩ = .running)).Nodup := nodup_range.filter _
  unfold isCoreRunning
  generalize (List.range cfg.maxThreadsPerCore).filter
    (fun j ↦ decide (m.status ⟨tile, j⟩ = .running)) = running at hmem hnodup
  match running, hmem, hnodup with
  | [], hmem, _ =>
    exact ⟨none, rfl, fun j ↦ ⟨nofun, fun hj ↦ absurd ((hmem j).mpr hj) not_mem_nil⟩⟩
  | [i], hmem, _ =>
    refine ⟨some i, rfl, fun j ↦ ?_⟩
    rw [← hmem j, mem_singleton]
    exact ⟨fun h ↦ (Option.some.inj h).symm, fun h ↦ h ▸ rfl⟩
  | i :: j :: rest, hmem, hnodup =>
    have hi := (hmem i).mp mem_cons_self
    have hj := (hmem j).mp (mem_cons_of_mem i mem_cons_self)
    obtain rfl : i = j := hunique i j hi hj
    exact absurd mem_cons_self (nodup_cons.mp hnodup).1

theorem Consistent.isCoreRunning (h : m.Consistent cfg blocked launched) (tile : ℕ) :
    ∃ r, m.isCoreRunning cfg tile = .ok r ∧ ∀ j, r = some j ↔ m.status ⟨tile, j⟩ = .running := by
  refine isCoreRunning_of_unique cfg m tile (fun i j hi hj ↦ ?_) fun j hj ↦ ?_
  · have hsame := (h.inv.running ⟨tile, i⟩ hi).unique (h.inv.running ⟨tile, j⟩ hj) rfl
    exact congrArg Slot.index hsame
  · exact h.inv.bounded ⟨tile, j⟩ fun hidle ↦ absurd (hj.symm.trans hidle) nofun

theorem isStartable_of {r : Option ℕ} (hr : m.isCoreRunning cfg tile = .ok r)
    (hrunning : ∀ j, r = some j ↔ m.status ⟨tile, j⟩ = .running)
    (hbound : ∀ j, m.status ⟨tile, j⟩ = .initializing → j < cfg.maxThreadsPerCore) :
    ∃ b, m.isStartable cfg tile = .ok b ∧ (b = true ↔
      ∀ j, m.status ⟨tile, j⟩ ≠ .running ∧ m.status ⟨tile, j⟩ ≠ .initializing) := by
  refine ⟨r.isNone && !m.isCoreInitializing cfg tile, ?_, ?_⟩
  · unfold isStartable
    rw [hr]
    rfl
  · rw [Bool.and_eq_true, Option.isNone_iff_eq_none, Bool.not_eq_true']
    constructor
    · rintro ⟨hnone, hinit⟩ j
      refine ⟨fun hj ↦ ?_, fun hj ↦ ?_⟩
      · rw [← hrunning j, hnone] at hj
        cases hj
      · refine absurd hinit (Bool.not_eq_false _ ▸ ?_)
        exact any_eq_true.mpr ⟨j, mem_range.mpr (hbound j hj), decide_eq_true hj⟩
    · intro hnone
      refine ⟨?_, ?_⟩
      · cases r with
        | none => rfl
        | some j => exact absurd ((hrunning j).mp rfl) (hnone j).1
      · refine any_eq_false.mpr fun j _ hj ↦ ?_
        exact (hnone j).2 (of_decide_eq_true hj)

theorem Consistent.isStartable (h : m.Consistent cfg blocked launched) (tile : ℕ) :
    ∃ b, m.isStartable cfg tile = .ok b ∧ (b = true ↔
      ∀ j, m.status ⟨tile, j⟩ ≠ .running ∧ m.status ⟨tile, j⟩ ≠ .initializing) := by
  obtain ⟨r, hr, hrunning⟩ := h.isCoreRunning tile
  refine isStartable_of hr hrunning fun j hj ↦ ?_
  exact h.inv.bounded ⟨tile, j⟩ fun hidle ↦ absurd (hj.symm.trans hidle) nofun

theorem isStartable_congr (h : m.status = m'.status) (tile : ℕ) :
    m.isStartable cfg tile = m'.isStartable cfg tile := by
  unfold Master.isStartable isCoreInitializing
  rw [isCoreRunning_congr h, h]

/-! ### What the updates need -/

/-- What is in a list without `x` is there still when `x` changes. -/
theorem still {l : List Slot} {p : Slot → Prop} (hx : x ∉ l) : ∀ y ∈ l, y ∈ l ∧ y ≠ x ∨ p y :=
  fun _ hy ↦ .inl ⟨hy, fun heq ↦ hx (heq ▸ hy)⟩

theorem resumeThread_eq (hx : m.status x ≠ .running) :
    m.resumeThread x = .ok (m.setStatus x .running) := by
  unfold Master.resumeThread
  rw [require, if_pos hx]
  rfl

/-- Whoever joins another thread after a stall has joined it before. -/
theorem joins_of_stallThread (hx : m.status x = .running)
    (hjoins : ((m.stallThread x).table blocked launched).Joins y) :
    (m.table blocked launched).Joins y := by
  have hbusy : m.status x ≠ .idle := hx ▸ nofun
  exact hjoins.of_update hbusy (status_setStatus m x .stalled) (waiterAt_setStatus m x .stalled)

/-- The front of the queue of a core holds it. -/
theorem holds_front (hsolo : ¬ cfg.Solo x.tile) (hqueue : m.waiterQueue x.tile = req :: rest)
    (hreq : req.destination = x) : (m.table blocked launched).Holds cfg.Solo x := by
  refine .inr ⟨hsolo, ?_⟩
  show ((m.waiterQueue x.tile).map (·.destination.index)).head? = _
  rw [hqueue, ← hreq]
  rfl

/-- Nothing but its turn keeps the thread from running. -/
structure Ready (m : Master) (blocked launched : List Slot) (x : Slot) : Prop where
  busy : m.status x ≠ .idle
  rest : m.status x ≠ .running
  unblocked : x ∉ blocked
  unlaunched : x ∉ launched
  unjoining : ¬ (m.table blocked launched).Joins x

/-- A thread stays ready when another one goes on. -/
theorem Ready.other (hy : m.Ready blocked launched y) (hyx : y ≠ x) (hx : m.status x ≠ .idle)
    (hstatus : m'.status = update m.status x status) (hwaiter : m'.waiterAt = m.waiterAt)
    {launched' : List Slot} (hlaunched : ∀ z ∈ launched', z ∈ launched ∨ z = x) :
    m'.Ready blocked launched' y := by
  have hsame : m'.status y = m.status y := by
    rw [hstatus, update_of_ne hyx]
  exact ⟨hsame ▸ hy.busy, hsame ▸ hy.rest, hy.unblocked, fun hmem ↦
    (hlaunched y hmem).elim hy.unlaunched hyx, fun hjoins ↦
      hy.unjoining (hjoins.of_update hx hstatus hwaiter)⟩

/-- The thread that holds a core has gone on: it runs, or it has been launched. -/
structure GoesOn (cfg : Config) (m m' : Master) (blocked launched : List Slot) (x : Slot)
    (new : List Slot) : Prop where
  launches : m'.launches cfg = m.launches cfg ++ new
  consistent : m'.Consistent cfg blocked (launched ++ new)
  queue : m'.waiterQueue = m.waiterQueue
  others : ∀ y, y ≠ x → m'.status y = m.status y
  ready : ∀ y, y ≠ x → m.Ready blocked launched y → m'.Ready blocked (launched ++ new) y

theorem masterStartThread_eq (hqueue : m.waiterQueue tile = req :: rest)
    (hinit : m.status req.destination = .initializing) :
    m.masterStartThread cfg tile = .ok (m.launch cfg req) := by
  unfold masterStartThread
  rw [hqueue]
  show (require (m.status req.destination = .initializing) _ >>= _) = _
  rw [require, if_pos hinit]
  rfl

/-- The thread spawner of process 0 and the MCP are cores of the system. -/
theorem solo_of_system (h : some tile = cfg.currentThreadSpawnerTileNum ∨ tile = cfg.mcpTileNum) :
    cfg.Solo tile := by
  refine .inr ?_
  unfold Config.currentThreadSpawnerTileNum Config.mcpTileNum Config.totalTiles at h
  cases hmode : cfg.simulationMode with
  | full =>
    rw [hmode] at h
    rcases h with h | h
    · have htile : tile = cfg.applicationTiles + cfg.processCount + 1 - (1 + cfg.processCount) :=
        Option.some.inj h
      omega
    · have htile : tile = cfg.applicationTiles + cfg.processCount + 1 - 1 := h
      omega
  | lite =>
    rw [hmode] at h
    rcases h with h | h
    · cases h
    · have htile : tile = cfg.applicationTiles + 1 - 1 := h
      omega

theorem waiterQueue_dequeueExited (hsolo : cfg.Solo tile → m.waiterQueue tile = []) :
    (m.dequeueExited cfg tile).waiterQueue =
      update m.waiterQueue tile (m.waiterQueue tile).tail := by
  unfold dequeueExited
  split_ifs with hsystem
  · rw [hsolo (solo_of_system hsystem)]
    exact Function.eq_update_self_iff.mpr (hsolo (solo_of_system hsystem))
  · rfl

/-- Taking the front of a queue without repetitions away. -/
theorem filter_ne_head {l : List ℕ} {j : ℕ} (hnodup : l.Nodup) (hhead : l.head? = some j) :
    l.filter (· ≠ j) = l.tail := by
  cases l with
  | nil => cases hhead
  | cons i rest =>
    cases hhead
    obtain ⟨hmem, -⟩ := nodup_cons.mp hnodup
    rw [filter_cons_of_neg (by simp)]
    exact filter_eq_self.mpr fun i hi ↦ decide_eq_true fun heq ↦ hmem (heq ▸ hi)

theorem Ready.remove (hready : m.Ready blocked launched y) (hyx : y ≠ x)
    (hstatus : m'.status = update m.status x .idle)
    (htable : m'.table blocked launched = (m.table blocked launched).remove x) :
    m'.Ready blocked launched y := by
  have hsame : m'.status y = m.status y := by
    rw [hstatus, update_of_ne hyx]
  refine ⟨hsame ▸ hready.busy, hsame ▸ hready.rest, hready.unblocked, hready.unlaunched, ?_⟩
  rw [htable]
  rintro ⟨z, hz, hzy⟩
  exact hready.unjoining ⟨z, (Table.busy_of_remove hz).2, hzy⟩

/-! ### Blocking, waking and starting -/

section

variable (h : m.Consistent cfg blocked launched)

include h

/-- The thread that holds a core changes its status. -/
theorem Consistent.restatus {last : ℕ → Option ℕ} (htable : m'.table blocked' launched' =
      (m.table blocked launched).restatus x status last blocked' launched')
    (hqueue : m'.waiterQueue = m.waiterQueue) (hx : (m.table blocked launched).Holds cfg.Solo x)
    (hold : m.status x ≠ .idle) (hnew : status ≠ .idle)
    (hlast : ∀ c, c ≠ x.tile → last c = m.lastStalledThread c)
    (hlaunched : ∀ y ∈ launched', y ∈ launched ∧ y ≠ x ∨ y = x ∧ status = .initializing)
    (hblocked : ∀ y ∈ blocked',
      y ∈ blocked ∧ y ≠ x ∨ y = x ∧ status = .stalled ∧ last x.tile = some x.index)
    (hjoins : (m.table blocked launched).Joins x → status = .stalled ∧ x ∉ blocked') :
    m'.Consistent cfg blocked' launched' := by
  refine ⟨?_, fun tile req hreq ↦ ?_⟩
  · rw [htable]
    exact h.inv.restatus hx hold hnew hlast hlaunched hblocked hjoins
  · rw [hqueue] at hreq
    exact h.home tile req hreq

/-- A launched thread reports its start. -/
theorem Consistent.start (hx : x ∈ launched) :
    m.masterOnThreadStart x = .ok (m.setStatus x .running) ∧
      (m.setStatus x .running).Consistent cfg blocked (launched.filter (· ≠ x)) := by
  obtain ⟨hinit, hholds⟩ := h.inv.launched x hx
  have hinit' : m.status x = .initializing := hinit
  refine ⟨?_, ?_⟩
  · unfold masterOnThreadStart
    rw [require, if_pos hinit']
    rfl
  · refine h.restatus (table_setStatus m x .running) rfl hholds (hinit' ▸ by decide) (by decide)
      (fun _ _ ↦ rfl) (fun y hy ↦ ?_) (fun y hy ↦ .inl ⟨hy, ?_⟩) fun hjoins ↦ ?_
    · have hy' := mem_filter.mp hy
      exact .inl ⟨hy'.1, of_decide_eq_true hy'.2⟩
    · rintro rfl
      exact absurd (hinit.symm.trans (h.inv.blocked y hy).1) (by decide)
    · exact absurd (hinit.symm.trans (h.inv.joining x hjoins).1) (by decide)

/-- The running thread of a core blocks. -/
theorem Consistent.stall (hx : m.status x = .running) :
    (m.stallThread x).Consistent cfg (x :: blocked) launched := by
  obtain ⟨hlaunched, hblocked, hjoins⟩ := h.inv.active hx
  refine h.restatus (table_stallThread m x) rfl (h.inv.running x hx) (hx ▸ nofun) nofun
    (fun c hc ↦ update_of_ne hc ..) (still hlaunched) (fun y hy ↦ ?_)
    fun hjoin ↦ absurd hjoin hjoins
  rcases mem_cons.mp hy with rfl | hy
  · exact .inr ⟨rfl, rfl, update_self ..⟩
  · exact .inl ⟨hy, fun heq ↦ hblocked (heq ▸ hy)⟩

/-- A wakeup resumes the thread that is blocked. -/
theorem Consistent.resume (hx : x ∈ blocked) :
    m.resumeCore x.tile = .ok (m.setStatus x .running) ∧
      (m.setStatus x .running).Consistent cfg (blocked.filter (·.tile ≠ x.tile)) launched := by
  obtain ⟨hstalled, hholds, hlast⟩ := h.inv.blocked x hx
  have hstalled' : m.status x = .stalled := hstalled
  have hlast' : m.lastStalledThread x.tile = some x.index := hlast
  refine ⟨?_, ?_⟩
  · unfold resumeCore
    rw [hlast']
    exact resumeThread_eq (x := ⟨x.tile, x.index⟩) (hstalled' ▸ nofun)
  · refine h.restatus (table_setStatus m x .running) rfl hholds (hstalled' ▸ nofun) nofun
      (fun _ _ ↦ rfl) (fun y hy ↦ .inl ⟨hy, ?_⟩) (fun y hy ↦ ?_) fun hjoins ↦ ?_
    · rintro rfl
      exact absurd (hstalled.symm.trans (h.inv.launched y hy).1) nofun
    · have hy' := mem_filter.mp hy
      refine .inl ⟨hy'.1, ?_⟩
      rintro rfl
      exact of_decide_eq_true hy'.2 rfl
    · exact absurd hx (h.inv.joining x hjoins).2.2

/-! ### Joining -/

/-- The running thread of a core is stalled by the master itself. -/
theorem Consistent.stalled (hx : m.status x = .running) :
    (m.stallThread x).Consistent cfg blocked launched :=
  h.restatus (table_stallThread m x) rfl (h.inv.running x hx) (hx ▸ nofun) nofun
    (fun _ hc ↦ update_of_ne hc ..) (still (h.inv.active hx).1) (still (h.inv.active hx).2.1)
    fun hjoin ↦ absurd hjoin (h.inv.active hx).2.2

/-- The running thread of a core becomes the waiter of a thread that has not exited. -/
theorem Consistent.addWaiter (hy : m.status y = .running) :
    ((setWaiter m x (some y)).stallThread y).Consistent cfg blocked launched := by
  have hstall (m₁ : Master) : (m₁.stallThread y).table blocked launched =
      (m₁.table blocked launched).restatus y .stalled
        (update m₁.lastStalledThread y.tile (some y.index)) blocked launched := table_stallThread m₁ y
  have htable : ((setWaiter m x (some y)).stallThread y).table blocked launched =
      ((m.stallThread y).table blocked launched).setWaiter x (some y) := by
    rw [hstall, hstall, table_setWaiter]
    rfl
  have hself : (m.setStatus y .stalled).status y = .stalled := by
    rw [status_setStatus, update_self]
  refine ⟨?_, h.home⟩
  rw [htable]
  refine (h.stalled hy).inv.setWaiter x ?_
  rintro z ⟨⟩ -
  refine ⟨hself, h.inv.running y hy, (h.inv.active hy).2.1, fun w hw hwy ↦ ?_⟩
  exact absurd (joins_of_stallThread hy ⟨w, hw, hwy⟩) (h.inv.active hy).2.2

theorem Consistent.join {sender : Slot} (tid : ℕ) (hsender : m.status sender = .running) :
    Outcome (m.masterJoinThread cfg sender tid)
      (fun m' ↦ m'.launches cfg = m.launches cfg ∧ m'.Consistent cfg blocked launched)
      fun fault ↦ ¬ fault.IsScheduling := by
  obtain ⟨r, hr, hrunning⟩ := h.isCoreRunning sender.tile
  rw [(hrunning sender.index).mpr hsender] at hr
  cases hx : m.placeOf tid with
  | none =>
    have hmap : m.tidToCoreMap[tid]? = none := hx
    unfold masterJoinThread
    rw [hmap]
    exact id
  | some x =>
    by_cases hwaiter : m.waiterAt x = none
    · by_cases hidle : m.status x = .idle
      · obtain ⟨m', hm, rfl⟩ := join_idle hx hwaiter hr hidle
        rw [hm]
        refine ⟨launches_netSend m rfl, ?_⟩
        exact h.restatus (table_restatus_self hsender _).symm rfl (h.inv.running sender hsender)
          (hsender ▸ nofun) nofun (fun c hc ↦ update_of_ne hc ..) (still (h.inv.active hsender).1)
          (still (h.inv.active hsender).2.1) fun hjoin ↦ absurd hjoin (h.inv.active hsender).2.2
      · rw [join_busy hx hwaiter hr hidle]
        exact ⟨rfl, h.addWaiter hsender⟩
    · have hmap : m.tidToCoreMap[tid]? = some x := hx
      unfold masterJoinThread
      rw [hmap]
      exact .require_bind (fun hnone ↦ absurd hnone hwaiter) fun _ ↦ id

/-! ### The thread that holds a core goes on -/

theorem Consistent.resumeHolder (hx : (m.table blocked launched).Holds cfg.Solo x)
    (hready : m.Ready blocked launched x) :
    (m.setStatus x .running).Consistent cfg blocked launched :=
  h.restatus (table_setStatus m x .running) rfl hx hready.busy nofun (fun _ _ ↦ rfl)
    (still hready.unlaunched) (still hready.unblocked) fun hjoins ↦ absurd hjoins hready.unjoining

theorem Consistent.launchHolder (hx : (m.table blocked launched).Holds cfg.Solo req.destination)
    (hinit : m.status req.destination = .initializing)
    (hready : m.Ready blocked launched req.destination) :
    (m.launch cfg req).Consistent cfg blocked (launched ++ [req.destination]) := by
  refine h.restatus ((table_launch m req).trans (table_restatus_self hinit _).symm)
    (waiterQueue_launch m req) hx hready.busy nofun (fun _ _ ↦ rfl) (fun y hy ↦ ?_)
    (still hready.unblocked) fun hjoins ↦ absurd hjoins hready.unjoining
  rcases mem_append.mp hy with hy | hy
  · exact .inl ⟨hy, fun heq ↦ hready.unlaunched (heq ▸ hy)⟩
  · exact .inr ⟨mem_singleton.mp hy, rfl⟩

theorem Consistent.goesOn_launch (hx : (m.table blocked launched).Holds cfg.Solo req.destination)
    (hinit : m.status req.destination = .initializing)
    (hready : m.Ready blocked launched req.destination) :
    GoesOn cfg m (m.launch cfg req) blocked launched req.destination [req.destination] := by
  obtain ⟨hstatus, hwaiter, -⟩ := launch_same m req
  have hupdate : (m.launch cfg req).status = update m.status req.destination .initializing := by
    rw [hstatus, ← hinit, update_eq_self]
  refine ⟨launches_launch m req, h.launchHolder hx hinit hready, waiterQueue_launch m req,
    fun y _ ↦ congrFun hstatus y, ?_⟩
  intro y hyx hy
  refine hy.other hyx hready.busy hupdate hwaiter fun z hz ↦ ?_
  exact (mem_append.mp hz).imp_right mem_singleton.mp

theorem Consistent.goesOn_resume (hx : (m.table blocked launched).Holds cfg.Solo x)
    (hready : m.Ready blocked launched x) :
    GoesOn cfg m (m.setStatus x .running) blocked launched x [] := by
  refine ⟨(append_nil _).symm, ?_, rfl, fun y hyx ↦ ?_, fun y hyx hy ↦ ?_⟩
  · rw [append_nil]
    exact h.resumeHolder hx hready
  · rw [status_setStatus, update_of_ne hyx]
  · rw [append_nil]
    exact hy.other hyx hready.busy (status_setStatus m x .running) (waiterAt_setStatus m x .running)
      fun z hz ↦ .inl hz

/-- The front of a queue is started if it is new and resumed otherwise. -/
theorem Consistent.startOrResume (hqueue : m.waiterQueue x.tile = req :: rest)
    (hreq : req.destination = x)
    (hx : (m.table blocked launched).Holds cfg.Solo x) (hready : m.Ready blocked launched x) :
    Outcome (if m.status x = .initializing then m.masterStartThread cfg x.tile else m.resumeThread x)
      (fun m' ↦ ∃ new, GoesOn cfg m m' blocked launched x new) fun fault ↦ ¬ fault.IsScheduling := by
  by_cases hinit : m.status x = .initializing
  · subst hreq
    rw [if_pos hinit, masterStartThread_eq hqueue hinit]
    exact ⟨[req.destination], h.goesOn_launch hx hinit hready⟩
  · rw [if_neg hinit, resumeThread_eq hready.rest]
    exact ⟨[], h.goesOn_resume hx hready⟩

/-- A thread that is queued for a core which another thread held is ready. -/
theorem Consistent.ready_behind (hbusy : m.status x ≠ .idle)
    (hx : ¬ (m.table blocked launched).Holds cfg.Solo x) :
    m.Ready blocked launched x := by
  obtain ⟨hrest, hlaunched, hblocked, hjoins⟩ := h.inv.behind hx
  exact ⟨hbusy, hrest, hblocked, hlaunched, hjoins⟩

/-! ### Exiting -/

/-- The state before the exit, with the joiner woken. -/
theorem Consistent.wake (hx : m.status x = .running) :
    ∃ m₁ woken : Master, (m.setStatus x .idle).wakeUpWaiter x = .ok m₁ ∧
      woken.Consistent cfg blocked launched ∧ woken.status x = .running ∧
      m₁.status = update woken.status x .idle ∧ m₁.waiterAt = woken.waiterAt ∧
      m₁.waiterQueue = woken.waiterQueue ∧ m₁.lastStalledThread = woken.lastStalledThread ∧
      m₁.launches cfg = m.launches cfg ∧
      ∀ y ∈ m.waiterAt x, y ≠ x ∧ woken.status y = .running := by
  have hwaiterIdle : (m.setStatus x .idle).waiterAt = m.waiterAt := waiterAt_setStatus m x .idle
  cases hw : m.waiterAt x with
  | none =>
    refine ⟨m.setStatus x .idle, m, ?_, h, hx, status_setStatus m x .idle, hwaiterIdle, rfl, rfl,
      rfl, nofun⟩
    have hnone : ((m.setStatus x .idle).threadState x).waiter = none :=
      (congrFun hwaiterIdle x).trans hw
    unfold wakeUpWaiter
    rw [hnone]
  | some y =>
    have hbusy : m.status x ≠ .idle := hx ▸ nofun
    have hjoins : (m.table blocked launched).Joins y := ⟨x, hbusy, hw⟩
    obtain ⟨hstalled, hholds, hfree⟩ := h.inv.joining y hjoins
    have hstalled' : m.status y = .stalled := hstalled
    have hyx : y ≠ x := by
      rintro rfl
      exact absurd (hx.symm.trans hstalled') nofun
    have hrest : (m.setStatus x .idle).status y ≠ .running := by
      rw [status_setStatus, update_of_ne hyx, hstalled']
      exact nofun
    refine ⟨_, (setWaiter m x none).setStatus y .running,
      wakeUpWaiter_eq ((congrFun hwaiterIdle x).trans hw) hrest, ?_, ?_, ?_, ?_, rfl, rfl, ?_, ?_⟩
    · -- without the waiter the joiner waits for nobody, so that it may run
      have htable : (setWaiter m x none).table blocked launched =
          (m.table blocked launched).setWaiter x none := table_setWaiter m x none
      have hcleared : (setWaiter m x none).Consistent cfg blocked launched := by
        refine ⟨?_, h.home⟩
        rw [htable]
        exact h.inv.setWaiter x nofun
      have hstatus : (setWaiter m x none).status = m.status := status_setWaiter m x none
      refine hcleared.resumeHolder hholds ⟨?_, ?_, hfree, ?_, ?_⟩
      · rw [hstatus, hstalled']
        exact nofun
      · rw [hstatus, hstalled']
        exact nofun
      · intro hmem
        exact absurd (hstalled.symm.trans (h.inv.launched y hmem).1) nofun
      · rw [htable]
        rintro ⟨z, hz, hzy⟩
        obtain ⟨hzx, hzy⟩ := Table.eq_some_of_update hzy
        exact hzx (h.inv.oneJoin z x y hz hbusy hzy hw)
    · rw [status_setStatus, update_of_ne (Ne.symm hyx), status_setWaiter]
      exact hx
    · rw [status_setWaiter, status_setStatus, status_setWaiter]
      show ((m.setStatus x .idle).setStatus y .running).status = _
      rw [status_setStatus, status_setStatus, update_comm hyx]
    · rw [waiterAt_setStatus, waiterAt_setWaiter, waiterAt_setWaiter]
      show update ((m.setStatus x .idle).setStatus y .running).waiterAt x none = _
      rw [waiterAt_setStatus, waiterAt_setStatus]
    · exact launches_netSend ((m.setStatus x .idle).setStatus y .running) rfl
    · intro z hz
      cases hz
      refine ⟨hyx, ?_⟩
      rw [status_setStatus, update_self]

theorem Consistent.queue_solo (hsolo : cfg.Solo tile) :
    m.waiterQueue tile = [] :=
  map_eq_nil_iff.mp (h.inv.alone tile hsolo).1

/-- The queue of a core without its holder. -/
theorem Consistent.filter_holder (hx : (m.table blocked launched).Holds cfg.Solo x) :
    (m.queueOf x.tile).filter (· ≠ x.index) = (m.waiterQueue x.tile).tail.map
      (·.destination.index) := by
  rw [map_tail]
  rcases hx with ⟨hsolo, -⟩ | ⟨-, hhead⟩
  · unfold queueOf
    rw [h.queue_solo hsolo]
    rfl
  · exact filter_ne_head (h.inv.nodup x.tile) hhead

/-- The thread that holds a core leaves it. -/
theorem Consistent.leave (hx : m.status x = .running)
    (hstatus : m'.status = update m.status x .idle) (hwaiter : m'.waiterAt = m.waiterAt)
    (hqueue : m'.waiterQueue = update m.waiterQueue x.tile (m.waiterQueue x.tile).tail)
    (hlast : m'.lastStalledThread = m.lastStalledThread) :
    m'.Consistent cfg blocked launched ∧
      m'.table blocked launched = (m.table blocked launched).remove x := by
  have hholds := h.inv.running x hx
  obtain ⟨hlaunched, hblocked, hjoins⟩ := h.inv.active hx
  have htable : m'.table blocked launched = (m.table blocked launched).remove x := by
    have hqueueOf : m'.queueOf =
        update m.queueOf x.tile ((m.queueOf x.tile).filter (· ≠ x.index)) := by
      rw [h.filter_holder hholds, queueOf_update hqueue]
    unfold table
    rw [hstatus, hwaiter, hqueueOf, hlast]
    rfl
  refine ⟨⟨?_, home_update h.home hqueue fun req hreq ↦ ?_⟩, htable⟩
  · rw [htable]
    exact h.inv.remove hlaunched hblocked fun z _ hz hzx ↦ hjoins ⟨z, hz, hzx⟩
  · exact h.home _ req (mem_of_mem_tail hreq)

/-- After its holder has left, the front of a queue goes on. -/
theorem Consistent.runFront
    (hready : ∀ req ∈ (m.waiterQueue x.tile).head?, m.Ready blocked launched req.destination) :
    Outcome (m.runFront cfg x.tile) (fun m' ↦ (∃ new, m'.launches cfg = m.launches cfg ++ new ∧
        m'.Consistent cfg blocked (launched ++ new)) ∧
          ∀ y, y.tile ≠ x.tile → m'.status y = m.status y)
      fun fault ↦ ¬ fault.IsScheduling := by
  unfold Master.runFront
  cases hqueue : m.waiterQueue x.tile with
  | nil =>
    exact ⟨h.nothingNew rfl, fun _ _ ↦ rfl⟩
  | cons req rest =>
    have htile : req.destination.tile = x.tile := by
      refine h.home x.tile req ?_
      rw [hqueue]
      exact mem_cons_self
    have hsolo : ¬ cfg.Solo req.destination.tile := fun hsolo ↦ by
      have hnil := h.queue_solo hsolo
      rw [htile, hqueue] at hnil
      cases hnil
    have hslot : (⟨x.tile, req.destination.index⟩ : Slot) = req.destination := by
      rw [← htile]
    have hready' : m.Ready blocked launched req.destination := by
      refine hready req ?_
      rw [hqueue]
      rfl
    show Outcome
      (if m.status ⟨x.tile, req.destination.index⟩ = .initializing then m.masterStartThread cfg x.tile
        else m.resumeThread ⟨x.tile, req.destination.index⟩) _ _
    rw [hslot, ← htile]
    rw [← htile] at hqueue
    refine (h.startOrResume hqueue rfl (holds_front hsolo hqueue rfl) hready').imp ?_
    rintro m' ⟨new, hgoes⟩
    refine ⟨⟨new, hgoes.launches, hgoes.consistent⟩, fun y hy ↦ hgoes.others y ?_⟩
    exact fun heq ↦ hy (congrArg Slot.tile heq)

/-- The threads behind the one that holds a core are ready. -/
theorem Consistent.ready_tail (hx : m.status x = .running)
    (hreq : req ∈ (m.waiterQueue x.tile).tail) :
    req.destination ≠ x ∧ m.Ready blocked launched req.destination := by
  have hmem := mem_of_mem_tail hreq
  have htile := h.home x.tile req hmem
  have hsolo : ¬ cfg.Solo x.tile := fun hsolo ↦ by
    rw [h.queue_solo hsolo] at hmem
    cases hmem
  have hholds := h.inv.running x hx
  have hne : req.destination ≠ x := by
    intro heq
    have hfilter : req.destination.index ∈ (m.queueOf x.tile).filter (· ≠ x.index) := by
      rw [h.filter_holder hholds]
      exact mem_map_of_mem hreq
    exact of_decide_eq_true (mem_filter.mp hfilter).2 (congrArg Slot.index heq)
  have hbusy : m.status ⟨x.tile, req.destination.index⟩ ≠ .idle :=
    (h.inv.queued x.tile hsolo req.destination.index).mpr (mem_map_of_mem hmem)
  have hslot : (⟨x.tile, req.destination.index⟩ : Slot) = req.destination := by
    rw [← htile]
  rw [hslot] at hbusy
  exact ⟨hne, h.ready_behind hbusy fun hreqHolds ↦ hne (hreqHolds.unique hholds htile)⟩

/-- A thread exits, and the one that joins it goes on. -/
theorem Consistent.exit (hx : m.status x = .running) :
    Outcome (m.masterOnThreadExit cfg x) (fun m' ↦ (∃ new, m'.launches cfg = m.launches cfg ++ new ∧
        m'.Consistent cfg blocked (launched ++ new)) ∧ ∀ y ∈ m.waiterAt x, m'.status y = .running)
      fun fault ↦ ¬ fault.IsScheduling := by
  obtain ⟨m₁, woken, hwake, hwoken, hwokenx, hstatus, hwaiter, hqueue, hlast, hlaunches, hjoiner⟩ :=
    h.wake hx
  refine .require_bind (fun _ ↦ ?_) fun _ ↦ id
  refine .require_pos hx ?_
  rw [hwake]
  show Outcome (m₁.isCoreRunning cfg x.tile >>= _) _ _
  -- no thread of the core runs any more
  have hnone : ∀ j, m₁.status ⟨x.tile, j⟩ ≠ .running := by
    intro j hj
    rw [hstatus] at hj
    by_cases hjx : (⟨x.tile, j⟩ : Slot) = x
    · rw [hjx, update_self] at hj
      cases hj
    · rw [update_of_ne hjx] at hj
      exact hjx ((hwoken.inv.running _ hj).unique (hwoken.inv.running x hwokenx) rfl)
  obtain ⟨r, hr, hrunning⟩ := isCoreRunning_of_unique cfg m₁ x.tile
    (fun i j hi ↦ absurd hi (hnone i)) fun j hj ↦ absurd hj (hnone j)
  have hrnone : r = none := by
    cases r with
    | none => rfl
    | some j => exact absurd ((hrunning j).mp rfl) (hnone j)
  rw [hr]
  refine .require_pos hrnone ?_
  have hqueue₂ : (m₁.dequeueExited cfg x.tile).waiterQueue =
      update woken.waiterQueue x.tile (woken.waiterQueue x.tile).tail := by
    rw [waiterQueue_dequeueExited fun hsolo ↦ by rw [hqueue]; exact hwoken.queue_solo hsolo, hqueue]
  have hsame : (m₁.dequeueExited cfg x.tile).status = m₁.status ∧
      (m₁.dequeueExited cfg x.tile).waiterAt = m₁.waiterAt ∧
      (m₁.dequeueExited cfg x.tile).lastStalledThread = m₁.lastStalledThread ∧
      (m₁.dequeueExited cfg x.tile).launches cfg = m₁.launches cfg := by
    unfold dequeueExited
    split_ifs <;> exact ⟨rfl, rfl, rfl, rfl⟩
  obtain ⟨hleft, htable⟩ := hwoken.leave hwokenx (hsame.1.trans hstatus) (hsame.2.1.trans hwaiter)
    hqueue₂ (hsame.2.2.1.trans hlast)
  have hfront := hleft.runFront (x := x) fun req hreq ↦ by
    rw [hqueue₂, update_self] at hreq
    obtain ⟨hne, hready⟩ := hwoken.ready_tail hwokenx (mem_of_head? hreq)
    exact hready.remove hne (hsame.1.trans hstatus) htable
  refine hfront.bind ?_
  rintro m₃ ⟨⟨new, hnew, hm₃⟩, hothers⟩
  refine ⟨⟨new, ?_, hm₃.inv, hm₃.home⟩, fun y hy ↦ ?_⟩
  · rw [launches_netSend m₃ rfl, hnew, hsame.2.2.2, hlaunches]
  · obtain ⟨hyx, hrunning⟩ := hjoiner y hy
    have htile : y.tile ≠ x.tile := fun htile ↦
      hyx ((hwoken.inv.running y hrunning).unique (hwoken.inv.running x hwokenx) htile)
    show m₃.status y = _
    rw [hothers y htile, hsame.1, hstatus, update_of_ne hyx]
    exact hrunning

end

/-! ### Spawning -/

/-- A core on which no thread runs or is about to run has an empty queue: no blocked thread holds
it. -/
def Vacant (cfg : Config) (m : Master) (tile : ℕ) : Prop :=
  (∀ j < cfg.maxThreadsPerCore,
    m.status ⟨tile, j⟩ ≠ .running ∧ m.status ⟨tile, j⟩ ≠ .initializing) → m.waiterQueue tile = []

theorem getIdleThread_eq_some {tile j : ℕ} (h : m.getIdleThread cfg tile = some j) :
    m.status ⟨tile, j⟩ = .idle ∧ j < cfg.maxThreadsPerCore := by
  unfold getIdleThread at h
  have hidle := find?_some h
  exact ⟨by simpa using hidle, mem_range.mp (mem_of_find?_eq_some h)⟩

/-- The place chosen for a new thread is idle. -/
theorem choosePlace_idle (req : SpawnRequest) :
    Outcome (m.choosePlace cfg req) (fun x ↦ m.status x = .idle ∧ x.index < cfg.maxThreadsPerCore)
      fun fault ↦ ¬ fault.IsScheduling := by
  unfold choosePlace
  cases req.destination with
  | none =>
    cases hplace : m.findPlace cfg req.requester with
    | none => exact id
    | some x =>
      have hfound := found_findPlace cfg m req.requester
      rw [hplace] at hfound
      obtain ⟨i, htile, hopen, -⟩ := hfound
      have hx : x = ⟨tileAt cfg req.requester i, x.index⟩ := by rw [← htile]
      exact ⟨hx ▸ hopen.idle, hopen.index⟩
  | some tile =>
    refine .require_bind (fun _ ↦ ?_) fun _ ↦ id
    exact .fetch_bind (fun j hj ↦ getIdleThread_eq_some hj) fun _ ↦ id

/-- A place for a new thread: it is idle, has no waiter, and its core has a queue. -/
structure Free (cfg : Config) (m : Master) (x : Slot) : Prop where
  queued : ¬ cfg.Solo x.tile
  idle : m.status x = .idle
  bound : x.index < cfg.maxThreadsPerCore
  waiter : m.waiterAt x = none

/-- A new thread arrives. -/
theorem Consistent.arrive (h : m.Consistent cfg blocked launched)
    (hfree : m.Free cfg req.destination)
    (hstatus : m'.status = update m.status req.destination .initializing)
    (hwaiter : m'.waiterAt = m.waiterAt)
    (hqueue : m'.waiterQueue = update m.waiterQueue req.destination.tile
      (m.waiterQueue req.destination.tile ++ [req]))
    (hlast : m'.lastStalledThread = m.lastStalledThread) :
    m'.Consistent cfg blocked launched ∧
      m'.table blocked launched =
        (m.table blocked launched).append req.destination .initializing none := by
  have htable : m'.table blocked launched =
      (m.table blocked launched).append req.destination .initializing none := by
    have hwaiter' : m'.waiterAt = update m.waiterAt req.destination none := by
      rw [hwaiter, ← hfree.waiter, update_eq_self]
    have hqueueOf : m'.queueOf = update m.queueOf req.destination.tile
        (m.queueOf req.destination.tile ++ [req.destination.index]) := by
      rw [queueOf_update hqueue, map_append]
      rfl
    unfold table
    rw [hstatus, hwaiter', hqueueOf, hlast]
    rfl
  refine ⟨⟨?_, home_update h.home hqueue fun req' hreq' ↦ ?_⟩, htable⟩
  · rw [htable]
    exact h.inv.append_none hfree.queued hfree.idle nofun nofun hfree.bound
  · rcases mem_append.mp hreq' with hmem | hmem
    · exact h.home _ req' hmem
    · rw [mem_singleton.mp hmem]

/-- Only the ids change when a new one is given out. -/
theorem table_getNewThreadId (m : Master) (x : Slot) :
    (m.getNewThreadId x).1.table blocked launched = m.table blocked launched := by
  have hstatus : (m.getNewThreadId x).1.status = m.status := status_getNewThreadId m x
  have hwaiter : (m.getNewThreadId x).1.waiterAt = m.waiterAt := waiterAt_getNewThreadId m x
  unfold table
  rw [hstatus, hwaiter]
  rfl

/-- The master between the stall of a spawning thread and its resumption. -/
structure Spawning (cfg : Config) (m : Master) (blocked launched : List Slot) (r : Slot) : Prop where
  consistent : m.Consistent cfg blocked launched
  holds : (m.table blocked launched).Holds cfg.Solo r
  ready : m.Ready blocked launched r
  last : m.lastStalledThread r.tile = some r.index

theorem Consistent.spawning (h : m.Consistent cfg blocked launched) (hr : m.status r = .running) :
    (m.stallThread r).Spawning cfg blocked launched r := by
  have hstatus : (m.stallThread r).status r = .stalled := by
    show (m.setStatus r .stalled).status r = _
    rw [status_setStatus, update_self]
  exact ⟨h.stalled hr, h.inv.running r hr, ⟨hstatus ▸ nofun, hstatus ▸ nofun, (h.inv.active hr).2.1,
    (h.inv.active hr).1, fun hjoins ↦ (h.inv.active hr).2.2 (joins_of_stallThread hr hjoins)⟩,
    update_self ..⟩

/-- The spawning thread is resumed. -/
theorem Spawning.resume (h : m.Spawning cfg blocked launched r) :
    m.resumeCore r.tile = .ok (m.setStatus r .running) ∧
      (m.setStatus r .running).Consistent cfg blocked launched := by
  refine ⟨?_, h.consistent.resumeHolder h.holds h.ready⟩
  unfold resumeCore
  rw [h.last]
  exact resumeThread_eq (x := ⟨r.tile, r.index⟩) h.ready.rest

theorem enqueueThread_eq (hsolo : ¬ cfg.Solo req.destination.tile) :
    m.enqueueThread cfg req = m.setQueue req.destination.tile
      (m.waiterQueue req.destination.tile ++ [req]) := by
  unfold enqueueThread
  rw [if_neg fun hspawner ↦ hsolo (solo_of_system (.inl hspawner))]

section

variable (h : m.Spawning cfg blocked launched r)

include h

/-- A new thread is placed while another one spawns it. -/
theorem Spawning.place (hfree : m.Free cfg req.destination) :
    ((m.enqueueThread cfg req).setStatus req.destination .initializing).Spawning cfg blocked
      launched r := by
  rw [enqueueThread_eq hfree.queued]
  set placed := (m.setQueue req.destination.tile
    (m.waiterQueue req.destination.tile ++ [req])).setStatus req.destination .initializing
  have hstatus : placed.status = update m.status req.destination .initializing :=
    status_setStatus _ _ _
  obtain ⟨hplaced, htable⟩ :=
    h.consistent.arrive hfree hstatus (waiterAt_setStatus _ _ _) rfl rfl
  have hne : r ≠ req.destination := fun heq ↦ h.ready.busy (heq ▸ hfree.idle)
  have hsame : placed.status r = m.status r := by
    rw [hstatus, update_of_ne hne]
  refine ⟨hplaced, ?_, ⟨hsame ▸ h.ready.busy, hsame ▸ h.ready.rest, h.ready.unblocked,
    h.ready.unlaunched, fun hjoins ↦ ?_⟩, h.last⟩
  · rw [htable]
    exact h.holds.append
  · rw [htable] at hjoins
    exact h.ready.unjoining (hjoins.of_append)

/-- A thread that has just been placed at a core with an empty queue holds it and is ready. -/
theorem Spawning.placed_ready (hfree : m.Free cfg req.destination)
    (hqueue : m.waiterQueue req.destination.tile = []) :
    let placed := (m.enqueueThread cfg req).setStatus req.destination .initializing
    placed.waiterQueue req.destination.tile = [req] ∧ placed.status req.destination = .initializing ∧
      (placed.table blocked launched).Holds cfg.Solo req.destination ∧
      placed.Ready blocked launched req.destination := by
  have hplaced := h.place hfree
  rw [enqueueThread_eq hfree.queued] at hplaced ⊢
  intro placed
  have hqueue' : placed.waiterQueue req.destination.tile = [req] := by
    show update m.waiterQueue req.destination.tile _ req.destination.tile = _
    rw [update_self, hqueue]
    rfl
  have hstatus : placed.status req.destination = .initializing := by
    rw [status_setStatus, update_self]
  refine ⟨hqueue', hstatus, holds_front hfree.queued hqueue' rfl, hstatus ▸ nofun, hstatus ▸ nofun,
    fun hmem ↦ ?_, fun hmem ↦ ?_, fun hjoins ↦ ?_⟩
  · exact absurd (hstatus.symm.trans (hplaced.consistent.inv.blocked _ hmem).1) nofun
  · exact absurd (hfree.idle.symm.trans (h.consistent.inv.launched _ hmem).1) nofun
  · exact absurd (hstatus.symm.trans (hplaced.consistent.inv.joining _ hjoins).1) nofun

theorem Spawning.launch (hx : (m.table blocked launched).Holds cfg.Solo req.destination)
    (hinit : m.status req.destination = .initializing)
    (hready : m.Ready blocked launched req.destination) (hne : r ≠ req.destination) :
    (m.launch cfg req).Spawning cfg blocked (launched ++ [req.destination]) r := by
  have hgoes := h.consistent.goesOn_launch hx hinit hready
  refine ⟨hgoes.consistent, ?_, hgoes.ready r hne h.ready, ?_⟩
  · rw [table_launch]
    exact h.holds
  · rw [(launch_same m req).2.2]
    exact h.last

theorem Spawning.schedule (hreq : req.requester = r) (hfree : m.Free cfg req.destination)
    (hvacant : req.destination.tile ≠ r.tile → m.Vacant cfg req.destination.tile) :
    Outcome (m.masterScheduleThread cfg req)
      (fun m' ↦ ∃ new, m'.launches cfg = m.launches cfg ++ new ∧
        m'.Spawning cfg blocked (launched ++ new) r) fun fault ↦ ¬ fault.IsScheduling := by
  have hplaced := h.place hfree
  have hlaunches : ((m.enqueueThread cfg req).setStatus req.destination .initializing).launches cfg =
      m.launches cfg := by
    rw [enqueueThread_eq hfree.queued]
    rfl
  have hmay : ∃ b, (m.enqueueThread cfg req).mayStart cfg req = .ok b ∧
      (b = true → m.waiterQueue req.destination.tile = []) := by
    unfold mayStart
    by_cases htile : req.requester.tile = req.destination.tile
    · rw [if_pos htile]
      exact ⟨false, rfl, nofun⟩
    · have hstatus : (m.enqueueThread cfg req).status = m.status := by
        rw [enqueueThread_eq hfree.queued]
        rfl
      obtain ⟨b, hb, hiff⟩ := h.consistent.isStartable req.destination.tile
      rw [if_neg htile, isStartable_congr hstatus]
      refine ⟨b, hb, fun hstart ↦ hvacant ?_ fun j _ ↦ hiff.mp hstart j⟩
      exact fun heq ↦ htile (hreq ▸ heq.symm)
  obtain ⟨b, hb, hempty⟩ := hmay
  show Outcome ((m.enqueueThread cfg req).mayStart cfg req >>= _) _ _
  rw [hb]
  refine .require_pos hfree.idle ?_
  cases b with
  | false =>
    refine ⟨[], ?_, ?_⟩
    · rw [hlaunches, append_nil]
    · rw [append_nil]
      exact hplaced
  | true =>
    obtain ⟨hqueue, hinit, hholds, hready⟩ := h.placed_ready hfree (hempty rfl)
    set placed := (m.enqueueThread cfg req).setStatus req.destination .initializing
    show Outcome (placed.masterStartThread cfg req.destination.tile) _ _
    rw [masterStartThread_eq hqueue hinit]
    refine ⟨[req.destination], ?_, hplaced.launch hholds hinit hready ?_⟩
    · rw [launches_launch, hlaunches]
    · exact fun heq ↦ h.ready.busy (heq ▸ hfree.idle)

end

/-- The new thread of a request goes to a core with a queue and to a place with no waiter; the core
is that of the requester, or no blocked thread holds it. -/
def PlacesWell (cfg : Config) (m : Master) (r x : Slot) : Prop :=
  ¬ cfg.Solo x.tile ∧ m.waiterAt x = none ∧ (x.tile ≠ r.tile → m.Vacant cfg x.tile)

theorem Consistent.spawn (h : m.Consistent cfg blocked launched) {req : SpawnRequest}
    (hr : m.status req.requester = .running)
    (hplace : ∀ x, (m.stallThread req.requester).choosePlace cfg req = .ok x →
      (m.stallThread req.requester).PlacesWell cfg req.requester x) :
    m.Safe cfg blocked launched (m.masterSpawnThread cfg req) := by
  have hspawning := h.spawning hr
  set stalled := m.stallThread req.requester with hstalled
  have hchoose : Outcome (stalled.choosePlace cfg req)
      (fun x ↦ stalled.status x = .idle ∧ x.index < cfg.maxThreadsPerCore)
      fun fault ↦ ¬ fault.IsScheduling := choosePlace_idle req
  show Outcome (stalled.choosePlace cfg req >>= _) _ _
  cases hx : stalled.choosePlace cfg req with
  | error fault =>
    rw [hx] at hchoose
    exact hchoose
  | ok x =>
    rw [hx] at hchoose
    obtain ⟨hidle, hbound⟩ := hchoose
    obtain ⟨hsolo, hwaiter, hvacant⟩ := hplace x hx
    -- the id is given out; the table is that of the stalled state
    have htable : (stalled.getNewThreadId x).1.table blocked launched =
        stalled.table blocked launched := table_getNewThreadId stalled x
    have hstatus : (stalled.getNewThreadId x).1.status = stalled.status :=
      status_getNewThreadId stalled x
    have hnamed : (stalled.getNewThreadId x).1.Spawning cfg blocked launched req.requester := by
      refine ⟨⟨htable ▸ hspawning.consistent.inv, hspawning.consistent.home⟩,
        htable ▸ hspawning.holds, ?_, hspawning.last⟩
      obtain ⟨hbusy, hrest, hunblocked, hunlaunched, hunjoining⟩ := hspawning.ready
      exact ⟨hstatus ▸ hbusy, hstatus ▸ hrest, hunblocked, hunlaunched, htable ▸ hunjoining⟩
    set named := (stalled.getNewThreadId x).1
    set placed : ThreadSpawnRequest := ⟨req.func, req.arg, req.requester, x,
      (stalled.getNewThreadId x).2⟩
    have hvacant' : x.tile ≠ req.requester.tile → named.Vacant cfg x.tile := by
      intro htile hfree
      exact hvacant htile fun j hj ↦ hstatus ▸ hfree j hj
    have hwaiter' : named.waiterAt x = none :=
      (congrFun (waiterAt_getNewThreadId stalled x) x).trans hwaiter
    have hreq : placed.requester = req.requester := rfl
    have hschedule := hnamed.schedule hreq ⟨hsolo, hstatus ▸ hidle, hbound, hwaiter'⟩ hvacant'
    show Outcome (named.masterScheduleThread cfg placed >>= _) _ _
    refine .bind hschedule fun m₁ ⟨new, hnew, hm₁⟩ ↦ ?_
    obtain ⟨hresume, hconsistent⟩ := hm₁.resume
    show Outcome (m₁.resumeCore req.requester.tile >>= _) _ _
    rw [hresume]
    refine ⟨new, ?_, hconsistent.inv, hconsistent.home⟩
    rw [launches_netSend _ rfl, launches_setStatus, hnew]
    rfl

end Master

end CarbonSim.Threads
