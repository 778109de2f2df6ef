import CarbonSim.Threads.Frame

/-!
# What the master does to joins

The operations of the master are described by what they do to thread ids, waiters, the table of places
and join replies: most keep them all, a new thread gets an id and an entry, a thread that moves takes
its id and waiter along, a join sets a waiter or is answered, an exit answers the waiter.
-/

namespace CarbonSim.Threads

open List Function

namespace Master

/-- The receiver of a join reply. -/
def joinReply? : Packet → Option ℕ
  | .joinReply receiver => some receiver
  | _ => none

/-- The cores that join replies have been sent to, in order. -/
def joinReplies (m : Master) : List ℕ := m.sent.filterMap joinReply?

def waiterAt (m : Master) (x : Slot) : Option Slot := (m.threadState x).waiter

/-- The place that the table gives for a thread id. -/
def placeOf (m : Master) (tid : ℕ) : Option Slot := m.tidToCoreMap[tid]?

/-- Ids, waiters, places and join replies are the same and no thread has become idle. -/
structure Keeps (m m' : Master) : Prop where
  threadId : ∀ x, m'.threadId x = m.threadId x
  waiter : ∀ x, m'.waiterAt x = m.waiterAt x
  table : m'.tidToCoreMap = m.tidToCoreMap
  counter : m'.tidCounter = m.tidCounter
  replies : m'.joinReplies = m.joinReplies
  busy : ∀ x, m.status x ≠ .idle → m'.status x ≠ .idle

namespace Keeps

variable {m m' m'' : Master}

theorem refl (m : Master) : Keeps m m := ⟨fun _ ↦ rfl, fun _ ↦ rfl, rfl, rfl, rfl, fun _ h ↦ h⟩

theorem trans (h : Keeps m m') (h' : Keeps m' m'') : Keeps m m'' :=
  ⟨fun x ↦ (h'.threadId x).trans (h.threadId x), fun x ↦ (h'.waiter x).trans (h.waiter x),
    h'.table.trans h.table, h'.counter.trans h.counter, h'.replies.trans h.replies,
    fun x hx ↦ h'.busy x (h.busy x hx)⟩

end Keeps

variable {cfg : Config} {m m' : Master} {tid : ℕ} {sender x : Slot}

/-! ### The fields of the threads after an update -/

section

variable (m : Master) (x : Slot)

theorem status_getNewThreadId : (m.getNewThreadId x).1.status = m.status :=
  field_kept (·.status) m x (by rfl)

theorem waiterAt_getNewThreadId : (m.getNewThreadId x).1.waiterAt = m.waiterAt :=
  field_kept (·.waiter) m x (by rfl)

variable (status : Status)

theorem threadState_setStatus (y : Slot) : (m.setStatus x status).threadState y =
    if y = x then { m.threadState y with status := status } else m.threadState y := by
  rw [setStatus, threadState_setThread]
  split_ifs with hy
  · rw [hy]
  · rfl

theorem status_setStatus : (m.setStatus x status).status = update m.status x status :=
  field_setThread (·.status) m x _

theorem threadId_setStatus : (m.setStatus x status).threadId = m.threadId :=
  field_kept (·.threadId) m x (by rfl)

theorem waiterAt_setStatus : (m.setStatus x status).waiterAt = m.waiterAt :=
  field_kept (·.waiter) m x (by rfl)

theorem keeps_setStatus (hstatus : status ≠ .idle) : Keeps m (m.setStatus x status) := by
  refine ⟨congrFun (threadId_setStatus m x status), congrFun (waiterAt_setStatus m x status), rfl,
    rfl, rfl, fun y hy ↦ ?_⟩
  rw [status_setStatus, update_apply]
  split_ifs
  · exact hstatus
  · exact hy

/-- The waiter of a place, with everything else as it is. -/
def setWaiter (waiter : Option Slot) : Master :=
  m.setThread x { m.threadState x with waiter := waiter }

variable (waiter : Option Slot)

theorem threadState_setWaiter (y : Slot) : (setWaiter m x waiter).threadState y =
    if y = x then { m.threadState y with waiter := waiter } else m.threadState y := by
  rw [setWaiter, threadState_setThread]
  split_ifs with hy
  · rw [hy]
  · rfl

theorem status_setWaiter : (setWaiter m x waiter).status = m.status := field_kept (·.status) m x (by rfl)

theorem threadId_setWaiter : (setWaiter m x waiter).threadId = m.threadId :=
  field_kept (·.threadId) m x (by rfl)

theorem waiterAt_setWaiter : (setWaiter m x waiter).waiterAt = update m.waiterAt x waiter :=
  field_setThread (·.waiter) m x _

end

theorem keeps_netSend (m : Master) (pkt : Packet) (hpkt : joinReply? pkt = none) :
    Keeps m (m.netSend pkt) := by
  refine ⟨fun _ ↦ rfl, fun _ ↦ rfl, rfl, rfl, ?_, fun _ h ↦ h⟩
  show (m.sent ++ [pkt]).filterMap joinReply? = _
  rw [filterMap_append, filterMap_cons, hpkt]
  exact append_nil _

theorem keeps_launch (cfg : Config) (m : Master) (req : ThreadSpawnRequest) :
    Keeps m (m.launch cfg req) := by
  unfold launch
  cases cfg.simulationMode with
  | full => exact keeps_netSend m _ rfl
  | lite =>
    have hlist : Keeps m { m with threadSpawnList := m.threadSpawnList ++ [req] } :=
      ⟨fun _ ↦ rfl, fun _ ↦ rfl, rfl, rfl, rfl, fun _ h ↦ h⟩
    exact hlist.trans (keeps_netSend _ _ rfl)

theorem keeps_frame (cfg : Config) : Frame cfg Keeps where
  refl := Keeps.refl
  trans h h' := h.trans h'
  resume m x := keeps_setStatus m x .running nofun
  stall m x := by
    have h := keeps_setStatus m x .stalled nofun
    exact ⟨h.threadId, h.waiter, rfl, rfl, rfl, h.busy⟩
  queue m tile queue := ⟨fun _ ↦ rfl, fun _ ↦ rfl, rfl, rfl, rfl, fun _ h ↦ h⟩
  next m tile next := ⟨fun _ ↦ rfl, fun _ ↦ rfl, rfl, rfl, rfl, fun _ h ↦ h⟩
  launch := keeps_launch cfg
  send m pkt hpkt := by
    refine keeps_netSend m pkt ?_
    cases pkt <;> first | rfl | cases hpkt
  affinity m x set := ⟨fun _ ↦ rfl, fun _ ↦ rfl, rfl, rfl, rfl, fun _ h ↦ h⟩

/-! ### A new thread -/

theorem placeOf_getNewThreadId_self (m : Master) (x : Slot) :
    (m.getNewThreadId x).1.placeOf (m.tidCounter + 1) = some x := by
  show (List.set _ (m.tidCounter + 1) x)[m.tidCounter + 1]? = some x
  rw [getElem?_set_self]
  split_ifs with hlen
  · rw [length_append, length_replicate]
    omega
  · exact Nat.lt_of_not_le hlen

theorem placeOf_getNewThreadId_of_le (m : Master) (x : Slot) {y : Slot} (htid : tid ≤ m.tidCounter)
    (hy : m.placeOf tid = some y) : (m.getNewThreadId x).1.placeOf tid = some y := by
  show (List.set _ (m.tidCounter + 1) x)[tid]? = some y
  rw [getElem?_set_ne (Nat.ne_of_gt (Nat.lt_succ_of_le htid))]
  split_ifs with hlen
  · rw [List.getElem?_append_left (List.getElem?_eq_some_iff.mp hy).1]
    exact hy
  · exact hy

/-- What a successful spawn does, as far as joins are concerned. -/
theorem spawn_outcome (m : Master) (req : SpawnRequest) :
    Yields (m.masterSpawnThread cfg req)
      (fun m' ↦ ∃ x, (m.stallThread req.requester).choosePlace cfg req = .ok x ∧
        (m.stallThread req.requester).status x = .idle ∧ m'.status x ≠ .idle ∧
        Keeps ((m.stallThread req.requester).getNewThreadId x).1 m') := by
  refine ((keeps_frame cfg).masterSpawnThread m req).mono ?_
  rintro m' ⟨x, s₁, s₂, hx, hidle, h₁, h₂, rfl⟩
  have hsend := h₂.trans (keeps_netSend s₂ (.spawnReply req.requester.tile x) rfl)
  refine ⟨x, hx, ?_, ?_, (h₁.trans (keeps_setStatus s₁ x .initializing nofun)).trans hsend⟩
  · rwa [status_getNewThreadId] at hidle
  · refine hsend.busy x ?_
    show ((s₁.setThread x _).threadState x).status ≠ _
    rw [threadState_setThread_self]
    exact nofun

/-! ### A thread that moves -/

theorem setThreadIndex_outcome (m : Master) (tid : Option ℕ) (x : Slot) :
    Yields (m.setThreadIndex tid x) (fun m' ↦ ∃ u, tid = some u ∧ u < m.tidToCoreMap.length ∧
        m' = { m with tidToCoreMap := m.tidToCoreMap.set u x }) := by
  refine .lookup fun u hu ↦ ?_
  exact .require_bind (fun hlt ↦ ⟨u, hu, hlt, rfl⟩) fun _ ↦ trivial

/-- The state of a place after a thread moved from `src` to `dst`. -/
theorem threadState_moveThread (m : Master) {src dst : Slot} (hne : src ≠ dst) (x : Slot) :
    (m.moveThread src dst).threadState x = if x = dst then m.threadState src
      else if x = src then { m.threadState src with status := .idle } else m.threadState x := by
  have hsrc : (m.setThread dst (m.threadState src)).threadState src = m.threadState src :=
    threadState_setThread_of_ne m _ hne
  show (((m.setThread dst (m.threadState src)).setThread src _).threadState x) = _
  rw [threadState_setThread]
  by_cases hx : x = src
  · rw [if_pos hx, hx, if_neg hne, if_pos rfl]
    exact congrArg (fun t : ThreadState ↦ { t with status := .idle }) hsrc
  · rw [if_neg hx, if_neg hx, threadState_setThread]

/-! ### A join -/

theorem status_of_isCoreRunning {m : Master} {tile j : ℕ}
    (h : m.isCoreRunning cfg tile = .ok (some j)) : m.status ⟨tile, j⟩ = .running := by
  unfold isCoreRunning at h
  generalize hlist : (List.range cfg.maxThreadsPerCore).filter _ = running at h
  match running, h with
  | [i], h =>
    cases h
    have hmem : j ∈ (List.range cfg.maxThreadsPerCore).filter
        fun i ↦ decide (m.status ⟨tile, i⟩ = .running) := by
      rw [hlist]
      exact mem_singleton_self j
    exact of_decide_eq_true (mem_filter.mp hmem).2

theorem isCoreRunning_congr {m m' : Master} (h : m.status = m'.status) (tile : ℕ) :
    m.isCoreRunning cfg tile = m'.isCoreRunning cfg tile := by
  unfold isCoreRunning
  rw [h]

/-- A join from the running thread of a core finds its place and stalls that thread; if the place is
idle the reply is sent and the waiter taken away again. -/
theorem masterJoinThread_eq {m : Master} (hx : m.placeOf tid = some x)
    (hwaiter : m.waiterAt x = none)
    (hsender : m.isCoreRunning cfg sender.tile = .ok (some sender.index)) :
    m.masterJoinThread cfg sender tid =
      if ((setWaiter m x (some sender)).stallThread sender).status x = .idle then
        ((setWaiter m x (some sender)).stallThread sender).wakeUpWaiter x
      else .ok ((setWaiter m x (some sender)).stallThread sender) := by
  have hrunning : (setWaiter m x (some sender)).isCoreRunning cfg sender.tile =
      .ok (some sender.index) :=
    (isCoreRunning_congr (status_setWaiter m x (some sender)) _).trans hsender
  have hstall : (setWaiter m x (some sender)).stallCore cfg sender.tile =
      .ok ((setWaiter m x (some sender)).stallThread sender) := by
    unfold stallCore
    rw [hrunning]
    rfl
  have hmap : m.tidToCoreMap[tid]? = some x := hx
  have hnone : (m.threadState x).waiter = none := hwaiter
  unfold masterJoinThread
  rw [hmap]
  show (require ((m.threadState x).waiter = none) Fault.multipleJoin >>= _) = _
  rw [require, if_pos hnone]
  show ((setWaiter m x (some sender)).stallCore cfg sender.tile >>= _) = _
  rw [hstall]
  rfl

theorem joinReplies_netSend (m : Master) (pkt : Packet) :
    (m.netSend pkt).joinReplies = m.joinReplies ++ (joinReply? pkt).toList := by
  show (m.sent ++ [pkt]).filterMap joinReply? = _
  cases hpkt : joinReply? pkt with
  | none | some r => simp [joinReplies, hpkt]

/-- What waking the waiter of a place does when there is one and it is not running. -/
theorem wakeUpWaiter_eq {m : Master} {x y : Slot} (hwaiter : m.waiterAt x = some y)
    (hy : m.status y ≠ .running) :
    m.wakeUpWaiter x =
      .ok (setWaiter ((m.setStatus y .running).netSend (.joinReply y.tile)) x none) := by
  have hsome : (m.threadState x).waiter = some y := hwaiter
  unfold wakeUpWaiter
  rw [hsome]
  show (m.resumeThread y >>= _) = _
  unfold resumeThread
  rw [require, if_pos hy]
  rfl

/-- A join of a place that is idle leaves the tables as they are and is answered. -/
theorem join_idle {m : Master} (hx : m.placeOf tid = some x) (hwaiter : m.waiterAt x = none)
    (hsender : m.isCoreRunning cfg sender.tile = .ok (some sender.index))
    (hidle : m.status x = .idle) :
    ∃ m', m.masterJoinThread cfg sender tid = .ok m' ∧ m' = { m with
        lastStalledThread := update m.lastStalledThread sender.tile (some sender.index)
        sent := m.sent ++ [.joinReply sender.tile] } := by
  have hrunning : (m.threadState sender).status = .running := status_of_isCoreRunning hsender
  have hne : x ≠ sender := by
    rintro rfl
    exact absurd (hidle.symm.trans hrunning) nofun
  set stalled := (setWaiter m x (some sender)).stallThread sender
  have hstate : ∀ y, stalled.threadState y =
      if y = sender then { (setWaiter m x (some sender)).threadState y with status := .stalled }
      else (setWaiter m x (some sender)).threadState y :=
    threadState_setStatus (setWaiter m x (some sender)) sender .stalled
  have hidle' : stalled.status x = .idle := by
    show (stalled.threadState x).status = _
    rw [hstate, if_neg hne, threadState_setWaiter, if_pos rfl]
    exact hidle
  have hwaiter' : stalled.waiterAt x = some sender := by
    show (stalled.threadState x).waiter = _
    rw [hstate, if_neg hne, threadState_setWaiter, if_pos rfl]
  have hstalled : stalled.status sender ≠ .running := by
    show (stalled.threadState sender).status ≠ _
    rw [hstate, if_pos rfl]
    exact nofun
  refine ⟨_, (masterJoinThread_eq hx hwaiter hsender).trans
    ((if_pos hidle').trans (wakeUpWaiter_eq hwaiter' hstalled)), ?_⟩
  -- the sender is stalled and resumed, the waiter is set and taken away
  have hsame : (setWaiter ((stalled.setStatus sender .running).netSend (.joinReply sender.tile)) x
      none).threadState = m.threadState := by
    funext y
    rw [threadState_setWaiter]
    show (if y = x then { (stalled.setStatus sender .running).threadState y with waiter := none }
      else (stalled.setStatus sender .running).threadState y) = _
    rw [threadState_setStatus, hstate, threadState_setWaiter]
    by_cases hyx : y = x
    · subst hyx
      have hnone : (m.threadState y).waiter = none := hwaiter
      rw [if_pos rfl, if_neg hne, if_neg hne, if_pos rfl, ← hnone]
    · rw [if_neg hyx, if_neg hyx]
      by_cases hys : y = sender
      · subst hys
        rw [if_pos rfl, if_pos rfl, ← hrunning]
      · rw [if_neg hys, if_neg hys]
  rw [← hsame]
  rfl

/-- A join of a place that is not idle makes the sender its waiter. -/
theorem join_busy {m : Master} (hx : m.placeOf tid = some x) (hwaiter : m.waiterAt x = none)
    (hsender : m.isCoreRunning cfg sender.tile = .ok (some sender.index))
    (hbusy : m.status x ≠ .idle) :
    m.masterJoinThread cfg sender tid = .ok ((setWaiter m x (some sender)).stallThread sender) := by
  have hkeeps : Keeps (setWaiter m x (some sender))
      ((setWaiter m x (some sender)).stallThread sender) := (keeps_frame cfg).stall _ sender
  have hbusy' : ((setWaiter m x (some sender)).stallThread sender).status x ≠ .idle := by
    refine hkeeps.busy x ?_
    rw [status_setWaiter]
    exact hbusy
  exact (masterJoinThread_eq hx hwaiter hsender).trans (if_neg hbusy')

/-! ### An exit -/

/-- From `m` to `m'` the thread at `x` became idle and its waiter was answered. -/
structure Exits (m m' : Master) (x : Slot) : Prop where
  threadId : ∀ y, m'.threadId y = m.threadId y
  waiter : ∀ y, m'.waiterAt y = if y = x then none else m.waiterAt y
  table : m'.tidToCoreMap = m.tidToCoreMap
  counter : m'.tidCounter = m.tidCounter
  replies : m'.joinReplies = m.joinReplies ++ (m.waiterAt x).toList.map Slot.tile
  busy : ∀ y, y ≠ x → m.status y ≠ .idle → m'.status y ≠ .idle

theorem Exits.keeps {m m' m'' : Master} {x : Slot} (h : Exits m m' x) (h' : Keeps m' m'') :
    Exits m m'' x :=
  ⟨fun y ↦ (h'.threadId y).trans (h.threadId y), fun y ↦ (h'.waiter y).trans (h.waiter y),
    h'.table.trans h.table, h'.counter.trans h.counter, h'.replies.trans h.replies,
    fun y hyx hy ↦ h'.busy y (h.busy y hyx hy)⟩

/-- The thread at `x` has become idle, and its waiter is taken away. -/
theorem exits_of_idle {m m' : Master} {x : Slot} (h : Keeps (m.setStatus x .idle) m')
    {s : Master} (hs : s.threadState = (setWaiter m' x none).threadState)
    (htable : s.tidToCoreMap = m'.tidToCoreMap) (hcounter : s.tidCounter = m'.tidCounter)
    (hreplies : s.joinReplies = m'.joinReplies ++ (m.waiterAt x).toList.map Slot.tile) :
    Exits m s x := by
  refine ⟨fun y ↦ ?_, fun y ↦ ?_, htable.trans h.table, hcounter.trans h.counter, ?_, fun y hyx hy ↦ ?_⟩
  · show (s.threadState y).threadId = _
    rw [hs]
    refine (congrFun (threadId_setWaiter m' x none) y).trans ?_
    rw [h.threadId y, threadId_setStatus]
  · show (s.threadState y).waiter = _
    rw [hs]
    refine (congrFun (waiterAt_setWaiter m' x none) y).trans ?_
    rw [update_apply, h.waiter y, waiterAt_setStatus]
  · rw [hreplies, h.replies]
    rfl
  · show (s.threadState y).status ≠ _
    rw [hs]
    refine (congrFun (status_setWaiter m' x none) y).trans_ne (h.busy y ?_)
    rwa [status_setStatus, update_of_ne hyx]

theorem wake_exits {m : Master} {x : Slot}
    (hwaiter : ∀ y ∈ m.waiterAt x, y ≠ x → m.status y ≠ .running) :
    ∃ m', (m.setStatus x .idle).wakeUpWaiter x = .ok m' ∧ Exits m m' x := by
  have hsame := congrFun (waiterAt_setStatus m x .idle) x
  cases hw : m.waiterAt x with
  | none =>
    have hnone : ((m.setStatus x .idle).threadState x).waiter = none := hsame.trans hw
    refine ⟨m.setStatus x .idle, ?_, exits_of_idle (Keeps.refl _) ?_ rfl rfl ?_⟩
    · unfold wakeUpWaiter
      rw [hnone]
    · funext y
      rw [threadState_setWaiter]
      split_ifs with hy
      · subst hy
        rw [← hnone]
      · rfl
    · rw [hw]
      exact (append_nil _).symm
  | some y =>
    have hy : (m.setStatus x .idle).status y ≠ .running := by
      rw [status_setStatus, update_apply]
      split_ifs with hyx
      · exact nofun
      · exact hwaiter y hw hyx
    refine ⟨_, wakeUpWaiter_eq (hsame.trans hw) hy,
      exits_of_idle (keeps_setStatus _ y .running nofun) rfl rfl rfl ?_⟩
    rw [hw]
    exact joinReplies_netSend ((m.setStatus x .idle).setStatus y .running) (.joinReply y.tile)

end Master

end CarbonSim.Threads
