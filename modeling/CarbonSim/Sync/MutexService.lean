import CarbonSim.Sync.Wakeups

/-!
# The service of the mutexes

Along a run in which only the owner of a mutex unlocks it or waits with it, and in which the cores
that wait on a condition variable at the same time passed the same mutex, the server is a monitor.
Its log is read off the messages and the states: the requests, the arrivals at the mutexes, the new
owners and the departures of each message.
-/

namespace CarbonSim.Sync

open List Function Server Monitor

open Monitor (At Place coresAt muxesOf gain)
open Monitor.Log (append_empty append LastAsked)

variable {Core : Type} {s s' : Server Core} {c : Core} {time : ℕ}
  {req : Request} {replies : List (Core × Reply)} {numMutexes numConds : ℕ}
  {trace : List (Event Core)}

/-- The lock or wait request in a message. -/
def Event.asked (e : Event Core) : List (Core × ℕ) :=
  match e.request with
  | .mutexLock m => [(e.core, m)]
  | .condWait _ m => [(e.core, m)]
  | _ => []

/-- The cores that reach a mutex, in order: the sender of a lock request, or the woken waiters. -/
def Event.arrived (e : Event Core) : List (Core × ℕ) :=
  match e.request with
  | .mutexLock m => [(e.core, m)]
  | req => (e.before.woken req).map CondWaiter.pair

/-- The core gives up a mutex. -/
def Event.left (e : Event Core) : List (Core × ℕ) :=
  match e.request with
  | .mutexUnlock m => [(e.core, m)]
  | .condWait _ m => [(e.core, m)]
  | _ => []

/-- The cores that are sent the reply to a lock or wait request. -/
def Event.answered (e : Event Core) : List Core :=
  e.replies.filterMap fun x ↦ match x.2 with
    | .mutexLock _ => some x.1
    | _ => none

theorem coresAt_range (n m : ℕ) (f : ℕ → List Core) :
    coresAt m ((List.range n).flatMap fun m' ↦ (f m').map fun c ↦ (c, m')) =
      if m < n then f m else [] := by
  induction n with
  | zero => simp
  | succ n ih =>
    have hlast : coresAt m ((f n).map fun c ↦ (c, n)) = if n = m then f n else [] := by
      by_cases hm : n = m
      · subst hm
        rw [coresAt, filter_eq_self.mpr (by simp), map_map, if_pos rfl]
        exact map_id _
      · simp [coresAt, hm]
    rw [range_succ, flatMap_append, coresAt_append, ih]
    simp only [flatMap_singleton, hlast]
    by_cases hlt : m < n
    · have hne : n ≠ m := by omega
      simp [hlt, hne, Nat.lt_succ_of_lt hlt]
    · by_cases heq : n = m
      · subst heq
        simp
      · have hnot : ¬ m < n + 1 := by omega
        simp [hlt, heq, hnot]

theorem woken_waiting (s : Server Core) (k : ℕ) (wake : Wake) :
    ∃ rest, s.monitor.waiting k =
      ((s.woken (wake.request k)).map CondWaiter.pair).map Prod.fst ++ rest := by
  obtain ⟨rest, hrest⟩ := woken_initial s k wake
  refine ⟨rest.map CondWaiter.coreId, ?_⟩
  change (s.conds k).waiting.map _ = _
  rw [map_fst_pairs, ← map_append, hrest]

theorem eraseFront_of_same {l : List (CondWaiter Core)}
    (h : ∀ a ∈ l, ∀ b ∈ l, a.mutex = b.mutex) : eraseFront l = l.tail := by
  induction l using eraseFront.induct with
  | case1 => rfl
  | case2 a => rfl
  | case3 a b rest ih =>
    have hab := h a mem_cons_self b (mem_cons_of_mem _ mem_cons_self)
    have hassign : a.assign b = b := by
      unfold CondWaiter.assign StableIterator.assign
      rw [hab]
    rw [eraseFront, hassign, ih fun x hx y hy ↦ h x (mem_cons_of_mem _ hx) y (mem_cons_of_mem _ hy)]
    rfl

theorem nextAll_singleton (s : Monitor.State Core ℕ ℕ) (mv : Monitor.Move Core ℕ ℕ) :
    s.nextAll [mv] = s.next mv := rfl

theorem noteAll_singleton (s : Monitor.State Core ℕ ℕ) (mv : Monitor.Move Core ℕ ℕ) :
    s.noteAll [mv] = s.note mv := append_empty _

/-- A waiter after a message was there before it, or is the sender of a wait. -/
theorem mem_condsAfter {k : ℕ} {w : CondWaiter Core}
    (hsame : ∀ k, ∀ a ∈ (s.conds k).waiting, ∀ b ∈ (s.conds k).waiting, a.mutex = b.mutex)
    (hw : w ∈ (s.condsAfter c time req k).waiting) :
    w ∈ (s.conds k).waiting ∨ ∃ m, req = .condWait k m ∧ w = ⟨c, ⟨m⟩, time⟩ := by
  have hupdate (k' : ℕ) (l : List (CondWaiter Core)) (hw : w ∈ (update s.conds k' ⟨l⟩ k).waiting) :
      w ∈ (s.conds k).waiting ∨ k' = k ∧ w ∈ l := by
    by_cases hk : k = k'
    · subst hk
      rw [update_self] at hw
      exact .inr ⟨rfl, hw⟩
    · rw [update_of_ne hk] at hw
      exact .inl hw
  cases req with
  | mutexLock m | mutexUnlock m => exact .inl hw
  | condWait k' m =>
    rcases hupdate k' _ hw with hold | ⟨rfl, hnew⟩
    · exact .inl hold
    · rcases mem_append.mp hnew with hold | hnew
      · exact .inl hold
      · exact .inr ⟨m, rfl, mem_singleton.mp hnew⟩
  | condSignal k' =>
    rcases hupdate k' _ hw with hold | ⟨rfl, hnew⟩
    · exact .inl hold
    · rw [eraseFront_of_same (hsame k')] at hnew
      exact .inl (mem_of_mem_tail hnew)
  | condBroadcast k' =>
    rcases hupdate k' _ hw with hold | ⟨rfl, hnew⟩
    · exact .inl hold
    · cases hnew

variable [DecidableEq Core]

/-! ### What a message does -/

/-- The cores that become the owner of a mutex. -/
def Event.gained (e : Event Core) : List (Core × ℕ) :=
  (List.range e.before.numMutexes).flatMap fun m ↦
    (gain (e.before.mutexes m).owner (e.after.mutexes m).owner).map fun c ↦ (c, m)

/-- The cores that wait on the condition variable passed the mutex of the message. -/
def Together (s : Server Core) (_c : Core) : Request → Prop
  | .condWait k m => ∀ w ∈ (s.conds k).waiting, w.mutex.offset = m
  | _ => True

/-! ### The log of a message -/

/-- The log of the moves of a message is what is read off the message and the states. -/
structure Server.Logged (s : Server Core) (c : Core) (req : Request) (e : Event Core) : Prop where
  asked : (s.monitor.noteAll (s.moves c req)).asked = e.asked
  arrived : (s.monitor.noteAll (s.moves c req)).arrived = e.arrived
  left : (s.monitor.noteAll (s.moves c req)).left = e.left
  granted : ∀ m, coresAt m (s.monitor.noteAll (s.moves c req)).granted =
    gain (s.monitor.line m).head? ((s.monitor.nextAll (s.moves c req)).line m).head?

theorem logged_wake (s : Server Core) (c : Core) (time k : ℕ) (wake : Wake)
    (replies : List (Core × Reply)) (s' : Server Core) :
    s.Logged c (wake.request k) ⟨s, c, time, wake.request k, replies, s'⟩ := by
  obtain ⟨rest, hrest⟩ := woken_waiting s k wake
  have hwakes := wakes _ hrest
  have hmoves := (moves_request s c k wake).trans (wakeMoves_eq k _)
  constructor
  · rw [hmoves, hwakes.asked]
    cases wake <;> rfl
  · rw [hmoves, hwakes.arrived]
    cases wake <;> rfl
  · rw [hmoves, hwakes.left]
    cases wake <;> rfl
  · intro m
    rw [hmoves]
    exact hwakes.granted m

theorem Server.Sound.legal_leave (h : s.Sound) (hc : At s.monitor c .idle) {m : ℕ}
    (howner : (s.mutexes m).owner = some c) : s.monitor.Legal (.leave c m) := by
  constructor
  · rw [h.head?_line, howner]
  · rw [h.tail_line]
    exact h.notMem_waiting hc m

theorem Server.Sound.logged (h : s.Sound) (hrun : s.threads.status c = .running)
    (hreq : s.Admits c req) (time : ℕ) (replies : List (Core × Reply)) (s' : Server Core) :
    s.Logged c req ⟨s, c, time, req, replies, s'⟩ := by
  have hc := h.idle_of_running hrun
  cases req with
  | mutexLock m =>
    refine ⟨rfl, rfl, rfl, fun m' ↦ ?_⟩
    show coresAt m' ((s.monitor.note (.enter c m)).granted ++ []) = _
    have hlegal : s.monitor.Legal (.enter c m) := hc
    rw [append_nil]
    exact granted_eq_gain hlegal m'
  | mutexUnlock m =>
    refine ⟨rfl, rfl, rfl, fun m' ↦ ?_⟩
    show coresAt m' ((s.monitor.note (.leave c m)).granted ++ []) = _
    rw [append_nil]
    exact granted_eq_gain (h.legal_leave hc hreq.2) m'
  | condWait k m =>
    -- parking changes no line
    refine ⟨rfl, rfl, rfl, fun m' ↦ ?_⟩
    show coresAt m' ((s.monitor.note (.leave c m)).granted ++ []) = _
    rw [append_nil]
    exact granted_eq_gain (h.legal_leave hc hreq.2.2) m'
  | condSignal k => exact logged_wake s c time k .signal replies s'
  | condBroadcast k => exact logged_wake s c time k .broadcast replies s'

/-! ### The invariant of a run -/

/-- The run is a run of the monitor, with the log that is read off the messages, and each waiter
holds the mutex of the last request of its core. -/
structure Traced (trace : List (Event Core)) (s : Server Core) (log : Monitor.Log Core ℕ) :
    Prop where
  run : Monitor.Run LastAsked log s.monitor
  sound : s.Sound
  asked : log.asked = trace.flatMap Event.asked
  arrived : log.arrived = trace.flatMap Event.arrived
  left : log.left = trace.flatMap Event.left
  granted : ∀ m, coresAt m log.granted = coresAt m (trace.flatMap Event.gained)
  muxes : ∀ c, muxesOf c log.granted = muxesOf c (trace.flatMap Event.gained)
  passed : ∀ k, ∀ w ∈ (s.conds k).waiting, log.LastAsked w.coreId w.mutex.offset
  same : ∀ k, ∀ a ∈ (s.conds k).waiting, ∀ b ∈ (s.conds k).waiting, a.mutex = b.mutex
  range : ∀ k, ∀ w ∈ (s.conds k).waiting, w.mutex.offset < s.numMutexes
  lines : ∀ m, s.numMutexes ≤ m → (s.mutexes m).line = []

variable {log : Monitor.Log Core ℕ}

/-- The moves of a message continue the run of the monitor. -/
theorem Traced.moves (h : Traced trace s log) (hrun : s.threads.status c = .running)
    (hreq : s.Admits c req) :
    Monitor.Run LastAsked (log.append (s.monitor.noteAll (s.moves c req)))
      (s.monitor.nextAll (s.moves c req)) := by
  have hc := h.sound.idle_of_running hrun
  have hwake (k : ℕ) (wake : Wake) : Monitor.Run LastAsked
      (log.append (s.monitor.noteAll (s.moves c (wake.request k))))
      (s.monitor.nextAll (s.moves c (wake.request k))) := by
    obtain ⟨rest, hrest⟩ := woken_waiting s k wake
    rw [moves_request, wakeMoves_eq]
    apply h.run.wakes _ _ hrest
    intro log' hlog' x hx
    obtain ⟨w, hw, rfl⟩ := mem_map.mp hx
    unfold LastAsked
    rw [hlog']
    exact h.passed k w ((woken_initial s k wake).mem hw)
  cases req with
  | mutexLock m =>
    simp only [moves, noteAll_singleton, nextAll_singleton]
    exact h.run.step (.enter c m) hc (by simp)
  | mutexUnlock m =>
    simp only [moves, noteAll_singleton, nextAll_singleton]
    exact h.run.step (.leave c m) (h.sound.legal_leave hc hreq.2) (by simp)
  | condWait k m =>
    have hpark := h.run.step (.park c k m) hc (by simp)
    have hleave := hpark.step (.leave c m) (h.sound.legal_leave hc hreq.2.2) (by simp)
    rw [Monitor.Log.append_assoc] at hleave
    simp only [moves, Monitor.State.noteAll, Monitor.State.nextAll, append_empty]
    exact hleave
  | condSignal k => exact hwake k .signal
  | condBroadcast k => exact hwake k .broadcast

section Step

variable (h : Traced trace s log) (hrun : s.threads.status c = .running) (hreq : s.Admits c req)
  (hs' : s.Handled c time req s' replies)

include h hrun hreq hs'

/-- At each mutex, the line and the arrivals are the departures and the line after the message. -/
theorem Traced.line_eq (m : ℕ) :
    (s.mutexes m).line ++ coresAt m (Event.arrived ⟨s, c, time, req, replies, s'⟩) =
      coresAt m (Event.left ⟨s, c, time, req, replies, s'⟩) ++ (s'.mutexes m).line := by
  have hlogged := h.sound.logged hrun hreq time replies s'
  have hbefore := h.run.arrived_eq m
  have hafter := (h.moves hrun hreq).arrived_eq m
  simp only [append, coresAt_append, hlogged.arrived, hlogged.left,
    ← hs'.monitor_eq, hbefore, append_assoc] at hafter
  exact append_cancel_left hafter

omit hrun hs' in
theorem Traced.arrived_lt (x : Core × ℕ)
    (hx : x ∈ Event.arrived ⟨s, c, time, req, replies, s'⟩) : x.2 < s.numMutexes := by
  cases req with
  | mutexLock m =>
    obtain rfl := mem_singleton.mp hx
    exact hreq
  | mutexUnlock m | condWait k m => cases hx
  | condSignal k =>
    obtain ⟨w, hw, rfl⟩ := mem_map.mp hx
    exact h.range k w (mem_of_mem_take hw)
  | condBroadcast k =>
    obtain ⟨w, hw, rfl⟩ := mem_map.mp hx
    exact h.range k w hw

theorem Traced.lines_next (m : ℕ) (hm : s.numMutexes ≤ m) : (s'.mutexes m).line = [] := by
  have hnone : coresAt m (Event.arrived ⟨s, c, time, req, replies, s'⟩) = [] := by
    unfold coresAt
    rw [map_eq_nil_iff, filter_eq_nil_iff]
    intro x hx
    have hlt := h.arrived_lt hreq x hx
    simp only [decide_eq_true_eq]
    omega
  have hline := h.line_eq hrun hreq hs' m
  rw [h.lines m hm, hnone] at hline
  exact (append_eq_nil_iff.mp hline.symm).2

/-- The grants of the monitor are the changes of the owners. -/
theorem Traced.granted_next (m : ℕ) :
    coresAt m (s.monitor.noteAll (s.moves c req)).granted =
      coresAt m (Event.gained ⟨s, c, time, req, replies, s'⟩) := by
  rw [(h.sound.logged hrun hreq time replies s').granted m, ← hs'.monitor_eq,
    h.sound.head?_line, hs'.sound.head?_line]
  unfold Event.gained
  rw [coresAt_range]
  split_ifs with hm
  · rfl
  · have hline := h.lines m (Nat.le_of_not_lt hm)
    have hline' := h.lines_next hrun hreq hs' m (Nat.le_of_not_lt hm)
    rw [← h.sound.head?_line, ← hs'.sound.head?_line]
    show gain (s.mutexes m).line.head? (s'.mutexes m).line.head? = []
    rw [hline, hline']
    rfl

/-- A message answers at most one request of a core. -/
theorem Traced.length_granted_le (d : Core) :
    (muxesOf d (s.monitor.noteAll (s.moves c req)).granted).length ≤ 1 := by
  have hlogged := h.sound.logged hrun hreq time replies s'
  obtain ⟨p, hp⟩ := h.run.asked_eq (fun _ _ _ hlast ↦ hlast) d
  obtain ⟨p', hp'⟩ := (h.moves hrun hreq).asked_eq (fun _ _ _ hlast ↦ hlast) d
  obtain ⟨o, ho, hidle⟩ := hp.exists_pending
  obtain ⟨o', ho', -⟩ := hp'.exists_pending
  -- the requests are the grants and at most one more, before and after
  have hcount : (muxesOf d (s.monitor.noteAll (s.moves c req)).granted).length ≤
      o.toList.length + (muxesOf d (Event.asked ⟨s, c, time, req, replies, s'⟩)).length := by
    have hlength := congrArg List.length ho'
    simp only [append, muxesOf_append, hlogged.asked, ho, length_append] at hlength
    omega
  by_cases hd : d = c
  · -- the sender waits for nothing
    subst hd
    have hnone := hidle.mpr (hp.at_place.eq_idle (h.sound.idle_of_running hrun))
    have hone : (muxesOf d (Event.asked ⟨s, d, time, req, replies, s'⟩)).length ≤ 1 := by
      cases req <;> simp [Event.asked]
    rw [hnone] at hcount
    simp only [Option.toList_none, length_nil] at hcount
    omega
  · have hnone : muxesOf d (Event.asked ⟨s, c, time, req, replies, s'⟩) = [] := by
      cases req <;> simp [Event.asked, Ne.symm hd]
    rw [hnone, length_nil] at hcount
    have ho : o.toList.length ≤ 1 := by cases o <;> simp
    omega

theorem Traced.muxes_next (d : Core) :
    muxesOf d (s.monitor.noteAll (s.moves c req)).granted =
      muxesOf d (Event.gained ⟨s, c, time, req, replies, s'⟩) := by
  have hperm := muxesOf_perm
    (perm_of_coresAt fun m ↦ h.granted_next hrun hreq hs' m) d
  have hlength := h.length_granted_le hrun hreq hs' d
  match hlist : muxesOf d (s.monitor.noteAll (s.moves c req)).granted with
  | [] =>
    rw [hlist] at hperm
    exact hperm.nil_eq
  | [m] =>
    rw [hlist] at hperm
    exact (singleton_perm.mp hperm)
  | m :: m' :: l =>
    rw [hlist] at hlength
    simp at hlength

/-- A message that satisfies the assumptions keeps the invariant. -/
theorem Traced.step (htogether : Together s c req) :
    Traced (trace ++ [⟨s, c, time, req, replies, s'⟩]) s'
      (log.append (s.monitor.noteAll (s.moves c req))) := by
  have hlogged := h.sound.logged hrun hreq time replies s'
  have hidle := h.sound.idle_of_running hrun
  constructor
  · rw [hs'.monitor_eq]
    exact h.moves hrun hreq
  · exact hs'.sound
  · simp [append, h.asked, hlogged.asked]
  · simp [append, h.arrived, hlogged.arrived]
  · simp [append, h.left, hlogged.left]
  · intro m
    simp [append, h.granted m, h.granted_next hrun hreq hs' m]
  · intro d
    simp [append, h.muxes d, h.muxes_next hrun hreq hs' d]
  · intro k w hw
    rw [hs'.conds_eq] at hw
    unfold LastAsked
    simp only [append, muxesOf_append, hlogged.asked]
    rcases mem_condsAfter h.same hw with hold | ⟨m, rfl, rfl⟩
    · -- a core that waits does not send
      have hne : c ≠ w.coreId := by
        intro heq
        have hmem : c ∈ s.monitor.waiting k := by
          rw [heq]
          exact mem_map_of_mem hold
        cases hidle.eq_waiting hmem
      have hnone : muxesOf w.coreId (Event.asked ⟨s, c, time, req, replies, s'⟩) = [] := by
        cases req <;> simp [Event.asked, hne]
      rw [hnone, append_nil]
      exact h.passed k w hold
    · simp [Event.asked]
  · intro k a ha b hb
    rw [hs'.conds_eq] at ha hb
    rcases mem_condsAfter h.same ha with hold | ⟨m, rfl, rfl⟩
    · rcases mem_condsAfter h.same hb with hold' | ⟨m, rfl, rfl⟩
      · exact h.same k a hold b hold'
      · exact congrArg StableIterator.mk (htogether a hold)
    · rcases mem_condsAfter h.same hb with hold' | ⟨m', heq, rfl⟩
      · exact congrArg StableIterator.mk (htogether b hold').symm
      · cases heq
        rfl
  · intro k w hw
    rw [hs'.conds_eq] at hw
    rw [hs'.keeps.numMutexes]
    rcases mem_condsAfter h.same hw with hold | ⟨m, rfl, rfl⟩
    · exact h.range k w hold
    · exact hreq.2.1
  · intro m hm
    rw [hs'.keeps.numMutexes] at hm
    exact h.lines_next hrun hreq hs' m hm

omit h hrun hreq in
theorem answered_eq : Event.answered ⟨s, c, time, req, replies, s'⟩ =
    (s.monitor.noteAll (s.moves c req)).granted.map Prod.fst := by
  have hresponse : (req.response c).filterMap (fun x ↦ match x.2 with
      | .mutexLock _ => some x.1
      | _ => none) = [] := by
    cases req <;> rfl
  unfold Event.answered
  rw [hs'.replies_eq, filterMap_append, hresponse, append_nil, filterMap_map]
  exact congrFun (filterMap_eq_map (f := Prod.fst)) _

theorem Traced.answered_perm : (Event.answered ⟨s, c, time, req, replies, s'⟩).Perm
    ((Event.gained ⟨s, c, time, req, replies, s'⟩).map Prod.fst) := by
  rw [answered_eq hs']
  exact (perm_of_coresAt fun m ↦ h.granted_next hrun hreq hs' m).map _

omit hrun hreq in
theorem Traced.moved (k : ℕ) :
    (req = .condSignal k → (s.conds k).waiting = s.woken req ++ (s'.conds k).waiting ∧
      (s.woken req).length = min 1 (s.conds k).waiting.length) ∧
    (req = .condBroadcast k → (s.conds k).waiting = s.woken req ∧ (s'.conds k).waiting = []) := by
  rw [hs'.conds_eq]
  constructor
  · rintro rfl
    constructor
    · simp only [woken, condsAfter, update_self]
      rw [eraseFront_of_same (h.same k), ← drop_one, take_append_drop]
    · exact length_take
  · rintro rfl
    constructor
    · rfl
    · simp [condsAfter]

end Step

theorem Server.Run.traced (h : Server.Run Together numMutexes numConds trace s) :
    ∃ log, Traced trace s log := by
  induction h with
  | start =>
    refine ⟨.empty, .start, .initial numMutexes numConds, rfl, rfl, rfl,
      fun _ ↦ rfl, fun _ ↦ rfl, ?_, ?_, ?_, fun _ _ ↦ rfl⟩
    all_goals
      intro k w hw
      cases hw
  | step h c time req hrun hreq hok hcall ih =>
    obtain ⟨log, hlog⟩ := ih
    exact ⟨_, hlog.step hrun hreq (hlog.sound.handled hrun hreq hcall) hok⟩

/-! ### The service -/

/-- What the server does for a message. -/
structure Event.Served (e : Event Core) : Prop where
  /-- The replies to lock and wait requests go to the cores that become owners. -/
  replied : e.answered.Perm (e.gained.map Prod.fst)
  /-- The lines of the mutexes change by the arrivals, at the end, and the departures. -/
  lines : ∀ m, (e.before.mutexes m).line ++ coresAt m e.arrived =
    coresAt m e.left ++ (e.after.mutexes m).line
  /-- A signal moves the front waiter if there is one, a broadcast moves all waiters. -/
  moved : ∀ k, (e.request = .condSignal k →
      (e.before.conds k).waiting = e.before.woken e.request ++ (e.after.conds k).waiting ∧
      (e.before.woken e.request).length = min 1 (e.before.conds k).waiting.length) ∧
    (e.request = .condBroadcast k →
      (e.before.conds k).waiting = e.before.woken e.request ∧ (e.after.conds k).waiting = [])

/-- What the server guarantees along a run. -/
structure Service (trace : List (Event Core)) (s : Server Core) : Prop where
  /-- The cores become owners in the order in which they reached the mutex. -/
  order : ∀ m, coresAt m (trace.flatMap Event.arrived) =
    coresAt m (trace.flatMap Event.gained) ++ (s.mutexes m).waiting
  /-- A core becomes the owner after the one before it has left, so there is at most one. -/
  exclusive : ∀ m, coresAt m (trace.flatMap Event.gained) =
    coresAt m (trace.flatMap Event.left) ++ (s.mutexes m).owner.toList
  /-- The requests of a core are the mutexes of which it became the owner, in this order, and at
  most one more: that of the list in which the core is. -/
  answered : ∀ c, ∃ o : Option ℕ,
    muxesOf c (trace.flatMap Event.asked) = muxesOf c (trace.flatMap Event.gained) ++ o.toList ∧
      (o = none ↔ s.threads.status c = .running) ∧
      (∀ m, o = some m → c ∈ (s.mutexes m).waiting ∨
        ∃ k, (c, m) ∈ (s.conds k).waiting.map CondWaiter.pair)
  /-- What each message did. -/
  served : ∀ e ∈ trace, e.Served
  /-- No core is queued on a mutex that has no owner. -/
  owned : ∀ m, (s.mutexes m).owner = none → (s.mutexes m).waiting = []
  /-- The next message does not fail an assertion. -/
  returns : ∀ c time req, s.threads.status c = .running → s.Admits c req →
    ∃ s' replies, s.handle c time req = .ok (s', replies)

theorem Server.Run.served (h : Server.Run Together numMutexes numConds trace s) :
    ∀ e ∈ trace, e.Served := by
  induction h with
  | start => simp
  | step h c time req hrun hreq hok hcall ih =>
    obtain ⟨log, hlog⟩ := h.traced
    have hs' := hlog.sound.handled hrun hreq hcall
    intro e he
    rcases mem_append.mp he with hold | hnew
    · exact ih e hold
    · obtain rfl := mem_singleton.mp hnew
      constructor
      · exact hlog.answered_perm hrun hreq hs'
      · exact hlog.line_eq hrun hreq hs'
      · exact hlog.moved hs'

/-- The place of a core tells what it asked for. -/
theorem Traced.answered (h : Traced trace s log) (c : Core) : ∃ o : Option ℕ,
    muxesOf c (trace.flatMap Event.asked) = muxesOf c (trace.flatMap Event.gained) ++ o.toList ∧
      (o = none ↔ s.threads.status c = .running) ∧
      (∀ m, o = some m → c ∈ (s.mutexes m).waiting ∨
        ∃ k, (c, m) ∈ (s.conds k).waiting.map CondWaiter.pair) := by
  obtain ⟨p, hp⟩ := h.run.asked_eq (fun _ _ _ hlast ↦ hlast) c
  obtain ⟨o, ho, hidle⟩ := hp.exists_pending
  have hmuxes := ho
  rw [h.asked, h.muxes c] at hmuxes
  refine ⟨o, hmuxes, ?_, ?_⟩
  · rw [hidle]
    constructor
    · rintro rfl
      exact h.sound.running_of_idle hp.at_place
    · intro hrun
      exact hp.at_place.eq_idle (h.sound.idle_of_running hrun)
  · rintro m rfl
    have hlast : log.LastAsked c m := by
      unfold LastAsked
      rw [ho]
      exact getLast?_concat ..
    cases p with
    | idle => simp at hidle
    | queued m' =>
      left
      rw [hp.queued m' rfl] at ho
      have hm : m' = m := by simpa using ho
      subst hm
      have hcount := hp.at_place.queued m'
      rw [h.sound.tail_line] at hcount
      apply count_pos_iff.mp
      rw [hcount]
      simp [Place.inLine]
    | waiting k =>
      right
      refine ⟨k, ?_⟩
      have hmem : c ∈ s.monitor.waiting k := by
        apply count_pos_iff.mp
        rw [hp.at_place.waiting k]
        simp [Place.onCond]
      obtain ⟨w, hw, rfl⟩ := mem_map.mp hmem
      have hpassed := h.passed k w hw
      unfold LastAsked at hpassed hlast
      rw [hlast] at hpassed
      rw [Option.some.inj hpassed]
      exact mem_map_of_mem hw

/-- Mutexes and condition variables serve their cores. Assumes: only the owner unlocks or waits, and
the cores that wait on a condition variable at the same time passed the same mutex. -/
theorem mutexes_served (h : Server.Run Together numMutexes numConds trace s) : Service trace s := by
  obtain ⟨log, hlog⟩ := h.traced
  constructor
  · intro m
    have harrived := hlog.run.arrived_eq m
    have hgranted := hlog.run.granted_eq m
    rw [hlog.arrived] at harrived
    rw [hlog.granted, hlog.sound.head?_line] at hgranted
    rw [harrived, hgranted, append_assoc]
    rfl
  · intro m
    have hgranted := hlog.run.granted_eq m
    rw [hlog.granted, hlog.sound.head?_line, hlog.left] at hgranted
    exact hgranted
  · exact hlog.answered
  · exact h.served
  · exact hlog.sound.owned
  · intro c time req hrun hreq
    obtain ⟨s', replies, hcall, -⟩ := hlog.sound.handle hrun hreq time
    exact ⟨s', replies, hcall⟩

instance (s : Server Core) (c : Core) (req : Request) : Decidable (Together s c req) :=
  match req with
  | .condWait k m => inferInstanceAs (Decidable (∀ w ∈ (s.conds k).waiting, w.mutex.offset = m))
  | .mutexLock _ => .isTrue trivial
  | .mutexUnlock _ => .isTrue trivial
  | .condSignal _ => .isTrue trivial
  | .condBroadcast _ => .isTrue trivial

/-- Two cores wait with one mutex and are woken by a broadcast of the third, which holds it. -/
def broadcastToTwo {N : ℕ} [NeZero N] : List (Fin N × ℕ × Request) :=
  [(0, 0, .mutexLock 0), (0, 1, .condWait 0 0), (1, 2, .mutexLock 0), (1, 3, .condWait 0 0),
    (2, 4, .mutexLock 0), (2, 5, .condBroadcast 0), (2, 6, .mutexUnlock 0),
    (0, 7, .mutexUnlock 0)]

/-- The waiters become owners in the order of their waits. -/
theorem mutexes_served_broadcastToTwo : ∃ (trace : List (Event (Fin 3))) (s : Server (Fin 3)),
    Server.Run Together 1 1 trace s ∧ (s.mutexes 0).owner = some 1 ∧ Service trace s := by
  have hsome : ((initial 1 1).exec Together (broadcastToTwo (N := 3))).isSome = true := by decide
  have howner : ((initial 1 1).exec Together (broadcastToTwo (N := 3))).map
      (fun x ↦ (x.2.mutexes 0).owner) = some (some 1) := by decide
  obtain ⟨⟨trace, s⟩, hexec⟩ := Option.isSome_iff_exists.mp hsome
  have hrun : Server.Run Together 1 1 trace s := Server.Run.exec .start hexec
  rw [hexec] at howner
  exact ⟨trace, s, hrun, Option.some.inj howner, mutexes_served hrun⟩

end CarbonSim.Sync
