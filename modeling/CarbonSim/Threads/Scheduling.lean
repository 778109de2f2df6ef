import CarbonSim.Lib.Runs
import CarbonSim.Threads.Migration

/-!
# Scheduling on the master

`SchedSystem` adds to the master the threads that are blocked on a server and the threads that have
been launched but have not reported their start. As long as no thread is given to a core that a blocked
thread holds, and only threads that wait for their turn are migrated, the tables of the master keep
the invariant of `Table`: a core has at most one running thread, which is the front of its queue, and a
wakeup resumes the thread that is blocked.
-/

namespace CarbonSim.Threads

open Master

/-- The master, the threads that are blocked on a mutex, a condition variable, a barrier or a futex, and
those that were handed to their process and have not started. -/
structure SchedSystem where
  master : Master
  blocked : List Slot
  launched : List Slot

namespace SchedSystem

variable (cfg : Config) (σ : SchedSystem) {m : Master}

def start : SchedSystem := ⟨Master.start cfg, [], []⟩

/-- The thread that runs on a core. -/
def runningOn (m : Master) (tile : ℕ) : Option Slot :=
  match m.isCoreRunning cfg tile with
  | .ok (some j) => some ⟨tile, j⟩
  | _ => none

/-- A thread that stalls on a server is blocked until its core is resumed; a thread that was launched
may start. -/
def record (m : Master) : Event → SchedSystem
  | .start x => ⟨m, σ.blocked, σ.launched.filter (· ≠ x)⟩
  | .stall tile => ⟨m, (runningOn cfg σ.master tile).toList ++ σ.blocked, σ.launched⟩
  | .resume tile => ⟨m, σ.blocked.filter (·.tile ≠ tile), σ.launched⟩
  | _ => ⟨m, σ.blocked, σ.launched ++ (m.launches cfg).drop (σ.master.launches cfg).length⟩

def step (e : Event) : Except Fault SchedSystem := do
  let m ← σ.master.processPacket cfg e
  return σ.record cfg m e

/-- The condition on an event, of the state before it. A thread that spawns, joins, yields or exits
runs, a thread that starts was launched, and a core that is resumed has a blocked thread. A new thread
goes to a core with a queue and to a place with no waiter; its core is that of the thread that spawns
it, or no blocked thread holds it. No blocked thread holds a core that a thread moves to, and a thread
that is migrated is not the front of its queue. -/
def Meets : Event → Prop
  | .spawn req =>
    σ.master.status req.requester = .running ∧
    ∀ x ∈ ((σ.master.stallThread req.requester).choosePlace cfg req).toOption,
      (σ.master.stallThread req.requester).PlacesWell cfg req.requester x
  | .start x => x ∈ σ.launched
  | .resume tile => ∃ x ∈ σ.blocked, x.tile = tile
  | .join sender _ => σ.master.status sender = .running
  | .yield x =>
    σ.master.status x = .running ∧ ¬ cfg.Solo x.tile ∧
    ∀ dst ∈ (σ.master.stallThread x).affinityPlace cfg x,
      ¬ cfg.Solo dst.tile ∧ (σ.master.stallThread x).Vacant cfg dst.tile
  | .migrate tid tile =>
    ∀ src ∈ (σ.master.lookupThreadIndex tid).toOption, ∀ dst ∈ σ.master.idlePlace cfg tile,
      σ.master.MigratesWell cfg src dst
  | .exit x => σ.master.status x = .running
  | .stall _ | .setAffinity _ _ _ | .getAffinity _ _ _ => True

instance (m : Master) (tile : ℕ) : Decidable (m.Vacant cfg tile) :=
  inferInstanceAs (Decidable (_ → _))

instance (m : Master) (r x : Slot) : Decidable (m.PlacesWell cfg r x) :=
  inferInstanceAs (Decidable (_ ∧ _ ∧ _))

instance (m : Master) (src dst : Slot) : Decidable (m.MigratesWell cfg src dst) :=
  inferInstanceAs (Decidable (_ ∧ _ ∧ _))

instance (e : Event) : Decidable (σ.Meets cfg e) :=
  match e with
  | .spawn req => inferInstanceAs (Decidable (_ ∧
      ∀ x ∈ ((σ.master.stallThread req.requester).choosePlace cfg req).toOption, _))
  | .start _ => inferInstanceAs (Decidable (_ ∈ _))
  | .resume _ => inferInstanceAs (Decidable (∃ x ∈ σ.blocked, _))
  | .join _ _ => inferInstanceAs (Decidable (_ = _))
  | .yield x => inferInstanceAs (Decidable (_ ∧ _ ∧
      ∀ dst ∈ (σ.master.stallThread x).affinityPlace cfg x, _))
  | .migrate tid tile => inferInstanceAs (Decidable
      (∀ src ∈ (σ.master.lookupThreadIndex tid).toOption, ∀ dst ∈ σ.master.idlePlace cfg tile, _))
  | .exit _ => inferInstanceAs (Decidable (_ = _))
  | .stall _ | .setAffinity _ _ _ | .getAffinity _ _ _ => inferInstanceAs (Decidable True)

/-- The master takes one event after another. -/
def machine : Machine SchedSystem Event Fault := ⟨start cfg, step cfg⟩

/-- The states of the runs whose events all meet the condition. -/
def Reached : Prop := (machine cfg).Reached (Meets cfg) σ

/-! ### One event -/

def Inv : Prop := σ.master.Consistent cfg σ.blocked σ.launched

variable {cfg σ} {σ' : SchedSystem} {x y : Slot}

theorem inv_start (hthreads : 0 < cfg.maxThreadsPerCore) : Inv cfg (start cfg) := by
  have hstatus : ∀ x, (Master.start cfg).status x ≠ .idle →
      x.index = 0 ∧ (x.tile = 0 ∨ cfg.IsSystemTile x.tile) := by
    intro x hx
    by_contra hidle
    exact hx (if_neg hidle)
  have hsolo : ∀ x, (Master.start cfg).status x ≠ .idle → cfg.Solo x.tile ∧ x.index = 0 := by
    intro x hx
    obtain ⟨hindex, htile⟩ := hstatus x hx
    exact ⟨htile.imp_right And.left, hindex⟩
  have hqueue : ∀ c, ¬ cfg.Solo c → ∀ j, (Master.start cfg).status ⟨c, j⟩ ≠ .idle ↔ j ∈ [] :=
    fun c hc j ↦ ⟨fun hbusy ↦ absurd (hsolo _ hbusy).1 hc, nofun⟩
  refine ⟨⟨hqueue, fun _ ↦ List.nodup_nil, fun c _ ↦ ⟨rfl, fun j hj ↦ ?_⟩, fun x hx ↦ ?_, nofun, nofun,
    ?_, nofun, fun x hx ↦ ?_⟩, nofun⟩
  · by_contra hbusy
    exact hj (hsolo _ hbusy).2
  · have hbusy : (Master.start cfg).status x ≠ .idle := by
      have hx' : (Master.start cfg).status x = .running := hx
      rw [hx']
      exact nofun
    exact .inl (hsolo x hbusy)
  · rintro y ⟨z, -, hz⟩
    cases hz
  · rw [(hsolo x hx).2]
    exact hthreads

/-- The threads launched by an event are recorded. -/
theorem inv_launches (h : ∃ new, m.launches cfg = σ.master.launches cfg ++ new ∧
      m.Consistent cfg σ.blocked (σ.launched ++ new)) :
    Inv cfg ⟨m, σ.blocked, σ.launched ++ (m.launches cfg).drop (σ.master.launches cfg).length⟩ := by
  obtain ⟨new, hnew, hm⟩ := h
  unfold Inv
  rw [hnew, List.drop_left]
  exact hm

theorem inv_same (hlaunches : m.launches cfg = σ.master.launches cfg)
    (h : m.Consistent cfg σ.blocked σ.launched) :
    Inv cfg ⟨m, σ.blocked, σ.launched ++ (m.launches cfg).drop (σ.master.launches cfg).length⟩ :=
  inv_launches ⟨[], hlaunches.trans (List.append_nil _).symm, (List.append_nil σ.launched).symm ▸ h⟩

theorem mem_toOption {ε α : Type} {r : Except ε α} {a : α} (h : r = .ok a) : a ∈ r.toOption := by
  rw [h]
  rfl

/-- The running thread of a core blocks. -/
theorem Inv.stall (h : Inv cfg σ) (tile : ℕ) :
    Outcome (σ.master.stallCore cfg tile) (fun m ↦ Inv cfg (σ.record cfg m (.stall tile)))
      fun fault ↦ ¬ fault.IsScheduling := by
  obtain ⟨r, hr, hrunning⟩ := h.isCoreRunning tile
  unfold stallCore
  rw [hr]
  cases r with
  | none => exact id
  | some j =>
    have hon : runningOn cfg σ.master tile = some ⟨tile, j⟩ := by
      unfold runningOn
      rw [hr]
    show Inv cfg ⟨_, (runningOn cfg σ.master tile).toList ++ σ.blocked, σ.launched⟩
    rw [hon]
    exact Consistent.stall h ((hrunning j).mp rfl)

/-- An event keeps the tables consistent, and no assertion of the scheduler fails. -/
theorem Inv.event (h : Inv cfg σ) {e : Event} (hmeets : σ.Meets cfg e) :
    Outcome (σ.master.processPacket cfg e) (fun m ↦ Inv cfg (σ.record cfg m e))
      fun fault ↦ ¬ fault.IsScheduling := by
  cases e with
  | spawn req =>
    refine (Consistent.spawn h hmeets.1 fun x hx ↦ hmeets.2 x (mem_toOption hx)).imp ?_
    exact fun m hm ↦ inv_launches hm
  | start x =>
    obtain ⟨hstart, hm⟩ := Consistent.start h hmeets
    show Outcome (σ.master.masterOnThreadStart x) _ _
    rw [hstart]
    exact hm
  | stall tile => exact h.stall tile
  | resume tile =>
    obtain ⟨x, hx, rfl⟩ := hmeets
    obtain ⟨hresume, hm⟩ := Consistent.resume h hx
    show Outcome (σ.master.resumeCore x.tile) _ _
    rw [hresume]
    exact hm
  | join sender tid =>
    refine (Consistent.join h tid hmeets).imp (fun m hm ↦ ?_)
    exact inv_same hm.1 hm.2
  | yield x =>
    refine (Consistent.yield h hmeets.1 hmeets.2.1 hmeets.2.2).imp ?_
    exact fun m hm ↦ inv_launches hm
  | migrate tid tile =>
    have hwell : ∀ src dst, σ.master.lookupThreadIndex tid = .ok src →
        σ.master.idlePlace cfg tile = some dst → σ.master.MigratesWell cfg src dst :=
      fun src dst hsrc hdst ↦ hmeets src (mem_toOption hsrc) dst hdst
    exact (Consistent.migrateRequest h hwell).imp (fun m hm ↦ inv_launches hm)
  | setAffinity tid cpusetsize set =>
    refine .require_bind (fun _ ↦ ?_) fun _ ↦ id
    refine (lookupThreadIndex_fault σ.master tid).bind fun x _ ↦ ?_
    exact inv_same rfl ⟨h.inv, h.home⟩
  | getAffinity requester tid cpusetsize =>
    refine (lookupThreadIndex_fault σ.master tid).bind fun x _ ↦ ?_
    refine .require_bind (fun _ ↦ ?_) fun _ ↦ id
    exact inv_same (launches_netSend σ.master rfl) ⟨h.inv, h.home⟩
  | exit x =>
    refine (Consistent.exit h hmeets).imp (fun m hm ↦ ?_)
    exact inv_launches hm.1

theorem Reached.inv (hthreads : 0 < cfg.maxThreadsPerCore) (hσ : Reached cfg σ) : Inv cfg σ := by
  refine Machine.Reached.invariant hσ (inv_start hthreads) fun σ e σ' hinv hmeets hstep ↦ ?_
  obtain ⟨m, hm, hrecord⟩ := Outcome.bind_eq_ok hstep
  cases hrecord
  exact (hinv.event hmeets).of_eq_ok hm

/-! ### Whole runs -/

/-- The index of the thread at the front of the queue of a core. -/
def front (m : Master) (tile : ℕ) : Option ℕ := (m.waiterQueue tile).head?.map (·.destination.index)

theorem front_of_holds {blocked launched : List Slot} (hsolo : ¬ cfg.Solo x.tile)
    (h : (m.table blocked launched).Holds cfg.Solo x) : front m x.tile = some x.index := by
  rcases h with ⟨hsolo', -⟩ | ⟨-, hhead⟩
  · exact absurd hsolo' hsolo
  · have hmap : ((m.waiterQueue x.tile).map (·.destination.index)).head? = some x.index := hhead
    rw [List.head?_map] at hmap
    exact hmap

/-- In a run whose events meet the condition: an application core other than core 0 has at most one
running thread, which is the front of its queue, as is a thread that the core was given to start; a
wakeup resumes the thread that is blocked, and an exit the thread that joins; no event that meets the
condition fails an assertion of the scheduler. -/
theorem scheduling_consistent (hthreads : 0 < cfg.maxThreadsPerCore) (hσ : Reached cfg σ) :
    (∀ c, 0 < c → c < cfg.applicationTiles →
      (∀ i j, σ.master.status ⟨c, i⟩ = .running → σ.master.status ⟨c, j⟩ = .running → i = j) ∧
      (∀ i, σ.master.status ⟨c, i⟩ = .running → front σ.master c = some i) ∧
      ∀ i, ⟨c, i⟩ ∈ σ.launched → front σ.master c = some i) ∧
    (∀ x ∈ σ.blocked, σ.master.processPacket cfg (.resume x.tile) =
      .ok (σ.master.setStatus x .running)) ∧
    (∀ x y m, σ.Meets cfg (.exit x) → σ.master.waiterAt x = some y →
      σ.master.processPacket cfg (.exit x) = .ok m → m.status y = .running) ∧
    ∀ e fault, σ.Meets cfg e → σ.master.processPacket cfg e = .error fault →
      ¬ fault.IsScheduling := by
  have hinv := hσ.inv hthreads
  refine ⟨fun c hpos hlt ↦ ?_, fun x hx ↦ (Consistent.resume hinv hx).1, fun x y m hx hy hm ↦ ?_,
    fun e fault hmeets hfault ↦ (hinv.event hmeets).of_eq_error hfault⟩
  · have hsolo : ¬ cfg.Solo c := fun hsolo ↦
      hsolo.elim (Nat.ne_of_gt hpos) fun hle ↦ Nat.lt_irrefl c (Nat.lt_of_lt_of_le hlt hle)
    have hfront : ∀ i, σ.master.status ⟨c, i⟩ = .running → front σ.master c = some i :=
      fun i hi ↦ front_of_holds (x := ⟨c, i⟩) hsolo (hinv.inv.running ⟨c, i⟩ hi)
    refine ⟨fun i j hi hj ↦ ?_, hfront, fun i hi ↦ ?_⟩
    · exact Option.some.inj ((hfront i hi).symm.trans (hfront j hj))
    · exact front_of_holds (x := ⟨c, i⟩) hsolo (hinv.inv.launched ⟨c, i⟩ hi).2
  · exact ((Consistent.exit hinv hx).of_eq_ok hm).2 y hy

/-- Two application tiles with two threads each, in full mode. -/
def twoByTwo : Config := ⟨2, 1, 2, .full, .roundRobin, fun _ ↦ 0⟩

/-- The main thread asks for a thread on tile 1. -/
def spawnOnOne : Event := .spawn ⟨7, 8, ⟨0, 0⟩, some 1⟩

/-- Two threads take turns on core 1; the second one blocks and is resumed. -/
theorem scheduling_consistent_turns :
    ∃ σ, Reached twoByTwo σ ∧ σ.blocked = [⟨1, 1⟩] ∧ front σ.master 1 = some 1 ∧
      σ.master.processPacket twoByTwo (.resume 1) = .ok (σ.master.setStatus ⟨1, 1⟩ .running) := by
  have hrun : Reached twoByTwo _ := Machine.Reached.start.exec
    [spawnOnOne, .start ⟨1, 0⟩, spawnOnOne, .yield ⟨1, 0⟩, .start ⟨1, 1⟩, .stall 1] rfl rfl
  refine ⟨_, hrun, rfl, rfl, ?_⟩
  exact (scheduling_consistent (by decide) hrun).2.1 ⟨1, 1⟩ List.mem_cons_self

/-- The thread of core 1 blocks and another one is spawned there: the core seems free, and the front of
its queue, which is the blocked thread, is to be started. -/
theorem spawn_onto_blocked_core :
    (machine twoByTwo).exec (start twoByTwo)
      [spawnOnOne, .start ⟨1, 0⟩, .stall 1, spawnOnOne] = .error .startWaiting ∧
    Fault.startWaiting.IsScheduling :=
  ⟨rfl, trivial⟩

end SchedSystem

end CarbonSim.Threads
