import CarbonSim.Threads.ThreadScheduler

/-!
# The operations of the master as sequences of updates

Most of what an operation does to the tables is routine: threads are resumed or stalled, queues
change, a thread is launched, a message is sent. `Frame cfg R` says that the relation `R` holds
across every routine update and composes; an operation is then described by the few updates that
are not routine, with `R` before, between and after them. Facts about what the operations leave alone
follow by choosing `R`.
-/

namespace CarbonSim.Threads

open Function

namespace Master

variable {cfg : Config} {s s' : Master}

def threadId (s : Master) (x : Slot) : Option ℕ := (s.threadState x).threadId

/-! ### The states of the threads after an update -/

theorem threadState_setThread (m : Master) (x y : Slot) (t : ThreadState) :
    (m.setThread x t).threadState y = if y = x then t else m.threadState y :=
  update_apply ..

theorem threadState_setThread_self (m : Master) (x : Slot) (t : ThreadState) :
    (m.setThread x t).threadState x = t := update_self ..

theorem threadState_setThread_of_ne (m : Master) {x y : Slot} (t : ThreadState) (hy : y ≠ x) :
    (m.setThread x t).threadState y = m.threadState y := update_of_ne hy ..

/-- A field of the threads after an update. -/
theorem field_setThread {α : Type} (f : ThreadState → α) (m : Master) (x : Slot) (t : ThreadState) :
    f ∘ (m.setThread x t).threadState = update (f ∘ m.threadState) x (f t) := comp_update ..

/-- A field that an update keeps. -/
theorem field_kept {α : Type} (f : ThreadState → α) (m : Master) (x : Slot) {t : ThreadState}
    (ht : f t = f (m.threadState x)) : f ∘ (m.setThread x t).threadState = f ∘ m.threadState :=
  (field_setThread f m x t).trans (update_eq_self_iff.mpr ht)

theorem threadId_getNewThreadId_self (m : Master) (x : Slot) :
    (m.getNewThreadId x).1.threadId x = some (m.tidCounter + 1) := by
  show ((m.setThread x _).threadState x).threadId = _
  rw [threadState_setThread_self]

theorem threadId_getNewThreadId_of_ne (m : Master) {x y : Slot} (hy : y ≠ x) :
    (m.getNewThreadId x).1.threadId y = m.threadId y := by
  show ((m.setThread x _).threadState y).threadId = _
  rw [threadState_setThread_of_ne m _ hy]
  rfl

/-! ### The places that threads move to -/

/-- The place that a thread has after it moved to a tile. -/
def idlePlace (cfg : Config) (s : Master) (tile : ℕ) : Option Slot :=
  (s.getIdleThread cfg tile).map (⟨tile, ·⟩)

/-- The place that the affinity mask of a thread moves it to. -/
def affinityPlace (cfg : Config) (s : Master) (x : Slot) : Option Slot :=
  match s.affinityTile cfg x with
  | .ok tile => if tile = x.tile then none else s.idlePlace cfg tile
  | .error _ => none

theorem firstFreeCore_congr (h : s.threadState = s'.threadState) (tiles : List ℕ) :
    s.firstFreeCore cfg tiles = s'.firstFreeCore cfg tiles := by
  induction tiles with
  | nil => rfl
  | cons tile rest ih =>
    have hrunning : s.isCoreRunning cfg tile = s'.isCoreRunning cfg tile := by
      unfold isCoreRunning status
      rw [h]
    simp only [firstFreeCore, hrunning, ih]

/-- Queues and the next indices do not matter for an affinity. -/
theorem affinityPlace_congr (h : s.threadState = s'.threadState) (hsets : s.cpuSets = s'.cpuSets)
    (x : Slot) : s.affinityPlace cfg x = s'.affinityPlace cfg x := by
  have htile : s.affinityTile cfg x = s'.affinityTile cfg x := by
    simp only [affinityTile, h, hsets, firstFreeCore_congr h]
  unfold affinityPlace idlePlace getIdleThread status
  rw [htile, h]

end Master

open Master

/-! ### Routine updates -/

/-- The replies that say which thread goes on, and the answer to a query. -/
def Packet.IsRoutine : Packet → Prop
  | .exitReply _ _ => True
  | .yieldReply _ _ _ _ _ => True
  | .affinityReply _ _ _ => True
  | _ => False

/-- The relation holds across every routine update and composes. -/
structure Frame (cfg : Config) (R : Master → Master → Prop) : Prop where
  refl : ∀ s, R s s
  trans : ∀ {s s' s''}, R s s' → R s' s'' → R s s''
  resume : ∀ s x, R s (s.setStatus x .running)
  stall : ∀ s x, R s (s.stallThread x)
  queue : ∀ s tile queue, R s (s.setQueue tile queue)
  next : ∀ s tile next, R s (s.setNextTidx tile next)
  launch : ∀ s req, R s (s.launch cfg req)
  send : ∀ s pkt, pkt.IsRoutine → R s (s.netSend pkt)
  affinity : ∀ s x set, R s { s with cpuSets := update s.cpuSets x set }

namespace Frame

variable {cfg : Config} {R : Master → Master → Prop} (h : Frame cfg R) (s : Master)

include h

/-! ### Routine operations -/

theorem resumeThread (x : Slot) : Yields (s.resumeThread x) (R s) :=
  .require_bind (fun _ ↦ h.resume s x) fun _ ↦ trivial

theorem resumeCore (tile : ℕ) : Yields (s.resumeCore tile) (R s) :=
  .fetch_bind (fun j _ ↦ h.resumeThread s ⟨tile, j⟩) fun _ ↦ trivial

theorem stallCore (tile : ℕ) : Yields (s.stallCore cfg tile) (R s) :=
  Outcome.unknown.bind fun _ _ ↦ .fetch_bind (fun j _ ↦ h.stall s ⟨tile, j⟩) fun _ ↦ trivial

theorem masterStartThread (tile : ℕ) :
    Yields (s.masterStartThread cfg tile) (R s) := by
  refine .lookup fun req _ ↦ ?_
  exact .require_bind (fun _ ↦ h.launch s req) fun _ ↦ trivial

/-- A new thread is started, another one resumed. -/
theorem startOrResume (p : Prop) [Decidable p] (tile : ℕ) (x : Slot) :
    Yields (if p then s.masterStartThread cfg tile else s.resumeThread x) (R s) := by
  split_ifs
  · exact h.masterStartThread s tile
  · exact h.resumeThread s x

theorem enqueueThread (req : ThreadSpawnRequest) : R s (s.enqueueThread cfg req) := by
  unfold Master.enqueueThread
  split_ifs
  · exact h.refl s
  · exact h.queue s _ _

theorem dequeueExited (tile : ℕ) : R s (s.dequeueExited cfg tile) := by
  unfold Master.dequeueExited
  split_ifs
  · exact h.refl s
  · exact h.queue s _ _

theorem runFront (tile : ℕ) : Yields (s.runFront cfg tile) (R s) := by
  unfold Master.runFront
  cases (s.waiterQueue tile).head? with
  | none => exact h.refl s
  | some req => exact h.startOrResume s _ _ _

theorem runNext (tile : ℕ) (next : Option ℕ) :
    Yields (s.runNext cfg tile next) (R s) := by
  unfold Master.runNext
  split_ifs
  · exact h.next s tile none
  · cases next with
    | none => exact h.refl s
    | some j => exact h.startOrResume s _ _ _

theorem goOn (dst : Slot) : Yields (s.goOn cfg dst) (R s) :=
  (h.startOrResume _ _ _ _).mono (fun _ hrun ↦ h.trans (h.next s dst.tile _) hrun)

theorem dequeueThread (src : Slot) :
    Yields (s.dequeueThread src) (fun r ↦ R s r.1) :=
  .fetch_bind (fun _ _ ↦ h.queue s _ _) fun _ ↦ trivial

theorem scheduleAfterExit (x : Slot) :
    Yields (s.scheduleAfterExit cfg x) (R s) := by
  refine Outcome.unknown.bind fun running _ ↦ ?_
  refine Yields.check fun _ ↦ ?_
  refine (h.runFront _ x.tile).bind fun s₁ h₁ ↦ ?_
  exact h.trans (h.trans (h.dequeueExited s x.tile) h₁) (h.send s₁ _ trivial)

/-! ### Operations with an update that is not routine -/

/-- The place of a new thread becomes initializing. -/
theorem masterScheduleThread (req : ThreadSpawnRequest) :
    Yields (s.masterScheduleThread cfg req)
      (fun s' ↦ s.status req.destination = .idle ∧ ∃ s₁, R s s₁ ∧ s₁.status = s.status ∧
        R (s₁.setStatus req.destination .initializing) s') := by
  refine Outcome.unknown.bind fun startable _ ↦ ?_
  refine Yields.check fun hidle ↦ ?_
  have hstatus : (s.enqueueThread cfg req).status = s.status := by
    unfold Master.enqueueThread
    split_ifs <;> rfl
  cases startable with
  | false => exact ⟨hidle, _, h.enqueueThread s req, hstatus, h.refl _⟩
  | true =>
    refine (h.masterStartThread _ _).mono (fun s₁ h₁ ↦ ?_)
    exact ⟨hidle, _, h.enqueueThread s req, hstatus, h₁⟩

/-- A place is chosen, given an id and made initializing, and the request is answered. -/
theorem masterSpawnThread (req : SpawnRequest) :
    Yields (s.masterSpawnThread cfg req)
      (fun s' ↦ ∃ x s₁ s₂, (s.stallThread req.requester).choosePlace cfg req = .ok x ∧
        ((s.stallThread req.requester).getNewThreadId x).1.status x = .idle ∧
        R ((s.stallThread req.requester).getNewThreadId x).1 s₁ ∧
        R (s₁.setStatus x .initializing) s₂ ∧
        s' = s₂.netSend (.spawnReply req.requester.tile x)) := by
  refine .after fun x hx ↦ ?_
  refine (h.masterScheduleThread _ _).bind ?_
  rintro s₂ ⟨hidle, s₁, h₁, -, h₂⟩
  refine (h.resumeCore s₂ _).bind fun s₃ h₃ ↦ ?_
  exact ⟨x, s₁, s₃, hx, hidle, h₁, h.trans h₂ h₃, rfl⟩

/-- The exiting thread becomes idle and its joiner is woken. -/
theorem masterOnThreadExit (x : Slot) :
    Yields (s.masterOnThreadExit cfg x) (fun s' ↦ s.status x = .running ∧
        ∃ s₁, (s.setStatus x .idle).wakeUpWaiter x = .ok s₁ ∧ R s₁ s') := by
  refine .check fun _ ↦ ?_
  refine .check fun hrunning ↦ ?_
  refine .after fun s₁ h₁ ↦ ?_
  exact (h.scheduleAfterExit s₁ x).mono (fun s' hs' ↦ ⟨hrunning, s₁, h₁, hs'⟩)

/-- From `s` to `s'` the thread at `src` moved to `dst`: up to routine updates its place in the table
changed, and its state was copied. -/
def Migrates (R : Master → Master → Prop) (s s' : Master) (src dst : Slot) : Prop :=
  ∃ s₁ s₂, R s s₁ ∧ s₁.threadState = s.threadState ∧ src ≠ dst ∧
    s.status src ≠ .idle ∧ s.status dst = .idle ∧
    s₁.setThreadIndex (s.threadState src).threadId dst = .ok s₂ ∧ R (s₂.moveThread src dst) s'

omit h in
theorem dequeueThread_threadState (src : Slot) :
    Yields (s.dequeueThread src) (fun r ↦ r.1.threadState = s.threadState) :=
  .fetch_bind (fun _ _ ↦ rfl) fun _ ↦ trivial

theorem migrateThread (src dst : Slot) :
    Yields (s.migrateThread cfg src dst) (fun s' ↦ Migrates R s s' src dst) := by
  refine .check fun htile ↦ ?_
  refine .check fun _ ↦ ?_
  refine .after ?_
  rintro ⟨s₁, req⟩ hdequeue
  have h₁ : R s s₁ := (h.dequeueThread s src).of_eq_ok hdequeue
  have hstate : s₁.threadState = s.threadState := (dequeueThread_threadState s src).of_eq_ok hdequeue
  refine Outcome.unknown.bind fun startable _ ↦ ?_
  refine Yields.check fun hsrc ↦ ?_
  refine .check fun hdst ↦ ?_
  refine .after fun s₂ h₂ ↦ ?_
  have hne : src ≠ dst := fun hsame ↦ htile (congrArg Slot.tile hsame)
  have hsrc' : s.status src ≠ .idle := by
    unfold status at hsrc ⊢
    rwa [← hstate]
  have hdst' : s.status dst = .idle := by
    unfold status at hdst ⊢
    rwa [← hstate]
  have h₂' : (s₁.setQueue dst.tile
      (s₁.waiterQueue dst.tile ++ [{ req with destination := dst }])).setThreadIndex
      (s.threadState src).threadId dst = .ok s₂ := by
    rw [← hstate]
    exact h₂
  have hmove : ∀ s', R (s₂.moveThread src dst) s' → Migrates R s s' src dst := fun s' hs' ↦
    ⟨_, s₂, h.trans h₁ (h.queue s₁ _ _), hstate, hne, hsrc', hdst', h₂', hs'⟩
  cases startable with
  | false => exact hmove _ (h.refl _)
  | true => exact (h.goOn _ dst).mono hmove

theorem masterMigrateThread (tid tile : ℕ) :
    Yields (s.masterMigrateThread cfg tid tile)
      (fun s' ↦ s.idlePlace cfg tile = none ∧ s' = s ∨
        ∃ src dst, s.lookupThreadIndex tid = .ok src ∧
        s.idlePlace cfg tile = some dst ∧ Migrates R s s' src dst) := by
  refine .check fun _ ↦ ?_
  unfold idlePlace
  cases s.getIdleThread cfg tile with
  | none => exact .inl ⟨rfl, rfl⟩
  | some j =>
    refine .after fun src hsrc ↦ ?_
    exact (h.migrateThread s src ⟨tile, j⟩).mono (fun s' hs' ↦ .inr ⟨src, _, hsrc, rfl, hs'⟩)

theorem masterCheckAffinityAndMigrate (x : Slot) :
    Yields (s.masterCheckAffinityAndMigrate cfg x)
      (fun r ↦ s.affinityPlace cfg x = none ∧ r.1 = s ∨
        ∃ dst, s.affinityPlace cfg x = some dst ∧ Migrates R s r.1 x dst) := by
  unfold Master.masterCheckAffinityAndMigrate affinityPlace idlePlace
  cases s.affinityTile cfg x with
  | error e => trivial
  | ok tile =>
    show Outcome (if tile = x.tile then _ else _) _ _
    by_cases htile : tile = x.tile
    · simp only [if_pos htile]
      exact .inl ⟨trivial, rfl⟩
    · simp only [if_neg htile]
      cases s.getIdleThread cfg tile with
      | none => exact .inl ⟨rfl, rfl⟩
      | some j =>
        exact (h.migrateThread s x ⟨tile, j⟩).bind fun s₁ h₁ ↦ .inr ⟨_, rfl, h₁⟩

omit h in
theorem requeueThread_outcome (tile : ℕ) :
    Yields (s.requeueThread cfg tile) (fun s' ↦ ∃ queue, s' = s.setQueue tile queue) :=
  .require_bind (fun _ ↦ ⟨_, rfl⟩) fun _ ↦ trivial

/-- A yielding thread is stalled and moves if its mask says so. -/
theorem masterYieldThread (x : Slot) :
    Yields (s.masterYieldThread cfg x)
      (fun s' ↦ (s.stallThread x).affinityPlace cfg x = none ∧ R s s' ∨
        ∃ dst s₁ s₂, (s.stallThread x).affinityPlace cfg x = some dst ∧
        R s s₁ ∧ s₁.threadState = (s.stallThread x).threadState ∧
        s₁.tidToCoreMap = s.tidToCoreMap ∧ Migrates R s₁ s₂ x dst ∧ R s₂ s') := by
  refine .check fun _ ↦ ?_
  refine (requeueThread_outcome _ x.tile).bind ?_
  rintro s₁ ⟨queue, rfl⟩
  set next := (((s.stallThread x).setQueue x.tile queue).waiterQueue x.tile).head?.map
    (·.destination.index)
  set s₁ := ((s.stallThread x).setQueue x.tile queue).setNextTidx x.tile next with hs₁
  have h₁ : R s s₁ := h.trans (h.trans (h.stall s x) (h.queue _ _ _)) (h.next _ _ _)
  have hplace : s₁.affinityPlace cfg x = (s.stallThread x).affinityPlace cfg x := by
    apply affinityPlace_congr <;> rfl
  refine (h.masterCheckAffinityAndMigrate s₁ x).bind ?_
  rintro ⟨s₂, tile, index⟩ hmove
  refine (h.runNext s₂ x.tile next).bind fun s₃ h₃ ↦ ?_
  have hend := h.trans h₃ (h.send s₃
    (.yieldReply x (s₃.localNextTidx x.tile) tile index (s₃.localNextTidx tile)) trivial)
  rcases hmove with ⟨hnone, hstay⟩ | ⟨dst, hdst, hmigrates⟩
  · have hsame : s₂ = s₁ := hstay
    rw [hsame] at hend
    exact .inl ⟨hplace ▸ hnone, h.trans h₁ hend⟩
  · exact .inr ⟨dst, s₁, s₂, hplace ▸ hdst, h₁, rfl, rfl, hmigrates, hend⟩

end Frame

end CarbonSim.Threads
