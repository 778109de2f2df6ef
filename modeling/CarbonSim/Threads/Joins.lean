import CarbonSim.Lib.Runs
import CarbonSim.Threads.JoinEffects

/-!
# Joining threads

A join request names a thread by its id, while the master stores the waiting thread at the place of
the thread: `JoinSystem` records beside the master what a service that knows threads by their id alone
would answer. The two agree as long as the place of a thread that has exited is not taken by another
thread before the last join, at most one thread joins a place at a time, and no thread is placed where
a thread that moved away has left its waiter.
-/

namespace CarbonSim.Threads

open Function Master

/-! ### A join service that knows threads by their id -/

/-- The master, and beside it the threads that have exited, for each thread the joins that have not
been answered, and the cores to answer so far. -/
structure JoinSystem where
  master : Master
  exited : List ℕ
  waiting : ℕ → List Slot
  answers : List ℕ

namespace JoinSystem

variable {cfg : Config} {σ σ' : JoinSystem} {m : Master} {x : Slot} {tid : ℕ}

def start (cfg : Config) : JoinSystem := ⟨Master.start cfg, [], fun _ ↦ [], []⟩

/-- What the service does: a join of a thread that has exited is answered at once, the other joins
when the thread exits. -/
def record (σ : JoinSystem) (m : Master) : Event → JoinSystem
  | .join sender tid =>
    if tid ∈ σ.exited then { σ with master := m, answers := σ.answers ++ [sender.tile] }
    else
      { σ with
        master := m
        waiting := update σ.waiting tid (σ.waiting tid ++ [sender]) }
  | .exit x =>
    match σ.master.threadId x with
    | none => { σ with master := m }
    | some tid =>
      { master := m
        exited := tid :: σ.exited
        waiting := update σ.waiting tid []
        answers := σ.answers ++ (σ.waiting tid).map Slot.tile }
  | _ => { σ with master := m }

def step (cfg : Config) (σ : JoinSystem) (e : Event) : Except Fault JoinSystem := do
  let m ← σ.master.processPacket cfg e
  return σ.record m e

/-- The thread at a place is the one that the table finds there. -/
def InPlace (m : Master) (x : Slot) : Prop := ∀ tid ∈ m.threadId x, m.placeOf tid = some x

/-- The condition on an event, of the state before it. A new thread is placed where no waiter was
left. A join comes from the running thread of a core and names an id that was given out; no other join
waits at the place of that thread, which is idle if the thread has exited. A thread that exits or moves
does so from its place and for the first time, and its joiner is not running. -/
def Meets (cfg : Config) (σ : JoinSystem) : Event → Prop
  | .spawn req =>
    ∀ x ∈ ((σ.master.stallThread req.requester).choosePlace cfg req).toOption,
      σ.master.waiterAt x = none
  | .join sender tid =>
    σ.master.isCoreRunning cfg sender.tile = .ok (some sender.index) ∧
    0 < tid ∧ tid ≤ σ.master.tidCounter ∧
    ∀ x ∈ σ.master.placeOf tid, σ.master.waiterAt x = none ∧
      (tid ∈ σ.exited → σ.master.status x = .idle)
  | .exit x => InPlace σ.master x ∧ (∀ tid ∈ σ.master.threadId x, tid ∉ σ.exited) ∧
      ∀ y ∈ σ.master.waiterAt x, y ≠ x → σ.master.status y ≠ .running
  | .migrate tid _ => ∀ x ∈ σ.master.placeOf tid, InPlace σ.master x
  | .yield x => InPlace σ.master x
  | _ => True

instance (m : Master) (x : Slot) : Decidable (InPlace m x) :=
  inferInstanceAs (Decidable (∀ tid ∈ m.threadId x, m.placeOf tid = some x))

instance (cfg : Config) (σ : JoinSystem) (e : Event) : Decidable (σ.Meets cfg e) :=
  match e with
  | .spawn req => inferInstanceAs (Decidable
      (∀ x ∈ ((σ.master.stallThread req.requester).choosePlace cfg req).toOption,
        σ.master.waiterAt x = none))
  | .join _ _ => inferInstanceAs (Decidable (_ ∧ _ ∧ _ ∧ _))
  | .exit _ => inferInstanceAs (Decidable (_ ∧ _ ∧ _))
  | .migrate tid _ => inferInstanceAs (Decidable (∀ x ∈ σ.master.placeOf tid, InPlace σ.master x))
  | .yield x => inferInstanceAs (Decidable (InPlace σ.master x))
  | .start _ | .stall _ | .resume _ | .setAffinity _ _ _ | .getAffinity _ _ _ =>
    inferInstanceAs (Decidable True)

/-- The master takes one event after another. -/
def machine (cfg : Config) : Machine JoinSystem Event Fault := ⟨start cfg, step cfg⟩

/-- The states of the runs whose events all meet the condition. -/
def Reached (cfg : Config) (σ : JoinSystem) : Prop := (machine cfg).Reached (Meets cfg) σ

/-! ### The invariant -/

/-- An id that was given to a thread which has not exited. -/
def Live (σ : JoinSystem) (tid : ℕ) : Prop :=
  0 < tid ∧ tid ≤ σ.master.tidCounter ∧ tid ∉ σ.exited

/-- A thread that has not exited is at the place that the table gives for it, with its joiner. -/
structure Inv (σ : JoinSystem) : Prop where
  table : ∀ tid, 0 < tid → tid ≤ σ.master.tidCounter → ∃ x, σ.master.placeOf tid = some x
  given : ∀ x, ∀ tid ∈ σ.master.threadId x, 0 < tid ∧ tid ≤ σ.master.tidCounter
  live : ∀ tid, σ.Live tid → ∀ x ∈ σ.master.placeOf tid,
    σ.master.threadId x = some tid ∧ σ.master.status x ≠ .idle ∧
      σ.waiting tid = (σ.master.waiterAt x).toList
  settled : ∀ tid, ¬ σ.Live tid → σ.waiting tid = []
  nobody : ∀ x, σ.master.threadId x = none → σ.master.waiterAt x = none
  known : ∀ tid ∈ σ.exited, tid ≤ σ.master.tidCounter
  answers : σ.master.joinReplies = σ.answers

theorem inv_start (cfg : Config) : Inv (start cfg) where
  table _ hpos hle := absurd hle (Nat.not_le.mpr hpos)
  given _ _ htid := nomatch htid
  live _ hlive := absurd hlive.2.1 (Nat.not_le.mpr hlive.1)
  settled _ _ := rfl
  nobody _ _ := rfl
  known _ htid := absurd htid List.not_mem_nil
  answers := rfl

/-- An update that the joins do not notice. -/
theorem Inv.keeps (h : Inv σ) (hm : Keeps σ.master m) : Inv { σ with master := m } where
  table tid hpos hle := by
    obtain ⟨x, hx⟩ := h.table tid hpos (hm.counter ▸ hle)
    exact ⟨x, by unfold placeOf; rw [hm.table]; exact hx⟩
  given x tid htid := by
    have hgiven := h.given x tid ((hm.threadId x).symm.trans htid)
    exact ⟨hgiven.1, hm.counter.symm ▸ hgiven.2⟩
  live tid hlive x hx := by
    have hlive' : σ.Live tid := ⟨hlive.1, hm.counter ▸ hlive.2.1, hlive.2.2⟩
    have hx' : σ.master.placeOf tid = some x := by
      unfold placeOf
      rw [← hm.table]
      exact hx
    obtain ⟨hid, hbusy, hwaiting⟩ := h.live tid hlive' x hx'
    refine ⟨(hm.threadId x).trans hid, hm.busy x hbusy, ?_⟩
    rw [hm.waiter x]
    exact hwaiting
  settled tid hdead :=
    h.settled tid fun hlive ↦ hdead ⟨hlive.1, hm.counter.symm ▸ hlive.2.1, hlive.2.2⟩
  nobody x hx := (hm.waiter x).trans (h.nobody x ((hm.threadId x).symm.trans hx))
  known tid htid := hm.counter.symm ▸ h.known tid htid
  answers := hm.replies.trans h.answers

/-! ### Spawning -/

/-- A new thread at a place where no waiter was left. -/
theorem Inv.newThread (h : Inv σ) (hidle : σ.master.status x = .idle)
    (hwaiter : σ.master.waiterAt x = none) (hbusy : m.status x ≠ .idle)
    (hm : Keeps (σ.master.getNewThreadId x).1 m) : Inv { σ with master := m } := by
  have hcounter : m.tidCounter = σ.master.tidCounter + 1 := hm.counter
  have hplace : ∀ tid, m.placeOf tid = (σ.master.getNewThreadId x).1.placeOf tid := fun tid ↦ by
    unfold placeOf
    rw [hm.table]
  refine ⟨fun tid hpos hle ↦ ?_, fun y tid htid ↦ ?_, fun tid hlive y hy ↦ ?_, fun tid hdead ↦ ?_,
    fun y hy ↦ ?_, fun tid htid ↦ ?_, hm.replies.trans h.answers⟩
  · rw [hplace]
    rcases Nat.lt_or_eq_of_le (hcounter ▸ hle : tid ≤ σ.master.tidCounter + 1) with hlt | heq
    · obtain ⟨y, hy⟩ := h.table tid hpos (Nat.le_of_lt_succ hlt)
      exact ⟨y, placeOf_getNewThreadId_of_le _ x (Nat.le_of_lt_succ hlt) hy⟩
    · subst heq
      exact ⟨x, placeOf_getNewThreadId_self _ x⟩
  · have htid' : (σ.master.getNewThreadId x).1.threadId y = some tid := (hm.threadId y).symm.trans htid
    rw [hcounter]
    by_cases hyx : y = x
    · subst hyx
      rw [threadId_getNewThreadId_self] at htid'
      cases htid'
      exact ⟨Nat.succ_pos _, Nat.le_refl _⟩
    · rw [threadId_getNewThreadId_of_ne _ hyx] at htid'
      exact ⟨(h.given y tid htid').1, Nat.le_succ_of_le (h.given y tid htid').2⟩
  · have hy' : (σ.master.getNewThreadId x).1.placeOf tid = some y := (hplace tid).symm.trans hy
    rw [hm.threadId y, hm.waiter y, waiterAt_getNewThreadId]
    have hle : tid ≤ σ.master.tidCounter + 1 := hcounter ▸ hlive.2.1
    rcases Nat.lt_or_eq_of_le hle with hlt | heq
    · have hlive' : σ.Live tid := ⟨hlive.1, Nat.le_of_lt_succ hlt, hlive.2.2⟩
      obtain ⟨z, hz⟩ := h.table tid hlive.1 hlive'.2.1
      have hzy : z = y := Option.some.inj
        ((placeOf_getNewThreadId_of_le _ x hlive'.2.1 hz).symm.trans hy')
      subst hzy
      obtain ⟨hid, hzbusy, hwaiting⟩ := h.live tid hlive' z hz
      have hzx : z ≠ x := fun hzx ↦ hzbusy (hzx ▸ hidle)
      refine ⟨(threadId_getNewThreadId_of_ne _ hzx).trans hid, hm.busy z ?_, hwaiting⟩
      rw [status_getNewThreadId]
      exact hzbusy
    · subst heq
      have hxy : x = y := Option.some.inj ((placeOf_getNewThreadId_self _ x).symm.trans hy')
      subst hxy
      refine ⟨threadId_getNewThreadId_self _ x, hbusy, ?_⟩
      rw [hwaiter]
      exact h.settled _ fun hlive ↦ Nat.not_succ_le_self _ hlive.2.1
  · exact h.settled tid fun hlive ↦ hdead ⟨hlive.1, hcounter ▸ Nat.le_succ_of_le hlive.2.1, hlive.2.2⟩
  · have hy' : (σ.master.getNewThreadId x).1.threadId y = none := (hm.threadId y).symm.trans hy
    rw [hm.waiter, waiterAt_getNewThreadId]
    by_cases hyx : y = x
    · subst hyx
      exact hwaiter
    · exact h.nobody y ((threadId_getNewThreadId_of_ne _ hyx).symm.trans hy')
  · rw [hcounter]
    exact Nat.le_succ_of_le (h.known tid htid)

/-! ### Migration -/

/-- A thread moves with its joiner from the place that the table gives for it. -/
theorem Inv.migrates (h : Inv σ) {src dst : Slot} (hplace : InPlace σ.master src)
    (hm : Frame.Migrates Keeps σ.master m src dst) : Inv { σ with master := m } := by
  obtain ⟨s₁, s₂, h₁, hstate, hne, hsrc, hdst, hindex, h₂⟩ := hm
  obtain ⟨u, hu, hlen, rfl⟩ := (setThreadIndex_outcome s₁ _ dst).of_eq_ok hindex
  set moved := Master.moveThread { s₁ with tidToCoreMap := s₁.tidToCoreMap.set u dst } src dst
    with hmoved
  suffices hinv : Inv { σ with master := moved } from hinv.keeps h₂
  have hcounter : moved.tidCounter = σ.master.tidCounter := h₁.counter
  have htable : ∀ tid, moved.placeOf tid = if tid = u then some dst else σ.master.placeOf tid := by
    intro tid
    show (s₁.tidToCoreMap.set u dst)[tid]? = _
    by_cases htid : tid = u
    · subst htid
      rw [if_pos rfl, List.getElem?_set_self hlen]
    · rw [if_neg htid, List.getElem?_set_ne (Ne.symm htid), h₁.table]
      rfl
  have hsame : ∀ y, y ≠ src → y ≠ dst → moved.threadState y = σ.master.threadState y := by
    intro y hysrc hydst
    rw [hmoved, threadState_moveThread _ hne, if_neg hydst, if_neg hysrc]
    exact congrFun hstate y
  have hmovedDst : moved.threadState dst = σ.master.threadState src := by
    rw [hmoved, threadState_moveThread _ hne, if_pos rfl]
    exact congrFun hstate src
  have hmovedSrc : moved.threadState src = { σ.master.threadState src with status := .idle } := by
    rw [hmoved, threadState_moveThread _ hne, if_neg hne, if_pos rfl]
    rw [hstate]
  have hfrom : ∀ y, ∃ z, moved.threadId y = σ.master.threadId z ∧
      moved.waiterAt y = σ.master.waiterAt z := by
    intro y
    by_cases hydst : y = dst
    · exact ⟨src, by simp only [threadId, waiterAt, hydst, hmovedDst, and_self]⟩
    · by_cases hysrc : y = src
      · exact ⟨src, by simp only [threadId, waiterAt, hysrc, hmovedSrc, and_self]⟩
      · exact ⟨y, by simp only [threadId, waiterAt, hsame y hysrc hydst, and_self]⟩
  have hu' : σ.master.threadId src = some u := hu
  refine ⟨fun tid hpos hle ↦ ?_, fun y tid htid ↦ ?_, fun tid hlive y hy ↦ ?_, fun tid hdead ↦ ?_,
    fun y hy ↦ ?_, fun tid htid ↦ hcounter.symm ▸ h.known tid htid, h₁.replies.trans h.answers⟩
  · rw [htable]
    split_ifs
    · exact ⟨dst, rfl⟩
    · exact h.table tid hpos (hcounter ▸ hle)
  · rw [hcounter]
    obtain ⟨z, hid, -⟩ := hfrom y
    exact h.given z tid (hid.symm.trans htid)
  · have hlive' : σ.Live tid := ⟨hlive.1, hcounter ▸ hlive.2.1, hlive.2.2⟩
    have hy' : moved.placeOf tid = some y := hy
    rw [htable] at hy'
    show (moved.threadState y).threadId = some tid ∧ (moved.threadState y).status ≠ .idle ∧
      σ.waiting tid = (moved.threadState y).waiter.toList
    by_cases htid : tid = u
    · subst htid
      rw [if_pos rfl] at hy'
      cases hy'
      rw [hmovedDst]
      exact ⟨hu', hsrc, (h.live tid hlive' src (hplace tid hu')).2.2⟩
    · rw [if_neg htid] at hy'
      obtain ⟨hid, hbusy, hwaiting⟩ := h.live tid hlive' y hy'
      have hysrc : y ≠ src := by
        rintro rfl
        exact htid (Option.some.inj (hid.symm.trans hu'))
      have hydst : y ≠ dst := by
        rintro rfl
        exact hbusy hdst
      rw [hsame y hysrc hydst]
      exact ⟨hid, hbusy, hwaiting⟩
  · exact h.settled tid fun hlive ↦ hdead ⟨hlive.1, hcounter.symm ▸ hlive.2.1, hlive.2.2⟩
  · obtain ⟨z, hid, hwaiter⟩ := hfrom y
    exact hwaiter.trans (h.nobody z (hid.symm.trans hy))

theorem Inv.migrate (h : Inv σ) {tid tile : ℕ} (hmeets : σ.Meets cfg (.migrate tid tile))
    (hm : σ.master.masterMigrateThread cfg tid tile = .ok m) : Inv { σ with master := m } := by
  rcases ((keeps_frame cfg).masterMigrateThread _ tid tile).of_eq_ok hm with
    ⟨-, rfl⟩ | ⟨src, dst, hsrc, -, hmigrates⟩
  · exact h
  · refine h.migrates (hmeets src ?_) hmigrates
    have hlookup : Yields (σ.master.lookupThreadIndex tid)
        (fun x ↦ σ.master.placeOf tid = some x) := by
      refine .check fun _ ↦ ?_
      show Outcome (fetch (σ.master.placeOf tid) Fault.outOfRange) _ _
      cases σ.master.placeOf tid with
      | none => trivial
      | some x => exact rfl
    exact hlookup.of_eq_ok hsrc

theorem Inv.yield (h : Inv σ) (hmeets : σ.Meets cfg (.yield x))
    (hm : σ.master.masterYieldThread cfg x = .ok m) : Inv { σ with master := m } := by
  rcases ((keeps_frame cfg).masterYieldThread _ x).of_eq_ok hm with
    ⟨-, hkeeps⟩ | ⟨dst, s₁, s₂, -, h₁, -, htable, hmigrates, h₂⟩
  · exact h.keeps hkeeps
  · have hplace : InPlace s₁ x := by
      intro tid htid
      unfold placeOf
      rw [htable]
      exact hmeets tid ((h₁.threadId x).symm.trans htid)
    have hmoved : Inv { σ with master := s₂ } := (h.keeps h₁).migrates hplace hmigrates
    exact hmoved.keeps h₂

theorem Inv.spawn (h : Inv σ) {req : SpawnRequest} (hmeets : σ.Meets cfg (.spawn req))
    (hm : σ.master.masterSpawnThread cfg req = .ok m) : Inv { σ with master := m } := by
  obtain ⟨x, hx, hidle, hbusy, hkeeps⟩ := (spawn_outcome _ req).of_eq_ok hm
  have hstall := (keeps_frame cfg).stall σ.master req.requester
  have hwaiter : σ.master.waiterAt x = none := by
    refine hmeets x ?_
    rw [hx]
    rfl
  exact (h.keeps hstall).newThread hidle ((hstall.waiter x).trans hwaiter) hbusy hkeeps

/-! ### Joining -/

/-- A join that is answered at once. -/
theorem Inv.answer (h : Inv σ) (sender : Slot) :
    Inv { σ with
      master := { σ.master with
        lastStalledThread := update σ.master.lastStalledThread sender.tile (some sender.index)
        sent := σ.master.sent ++ [.joinReply sender.tile] }
      answers := σ.answers ++ [sender.tile] } :=
  ⟨h.table, h.given, h.live, h.settled, h.nobody, h.known,
    (joinReplies_netSend σ.master (.joinReply sender.tile)).trans
      (congrArg (· ++ [sender.tile]) h.answers)⟩

/-- A thread that has not exited gets its first joiner. -/
theorem Inv.addWaiter (h : Inv σ) {sender x : Slot} (hlive : σ.Live tid)
    (hx : σ.master.placeOf tid = some x) (hwaiter : σ.master.waiterAt x = none) :
    Inv { σ with
      master := setWaiter σ.master x (some sender)
      waiting := update σ.waiting tid (σ.waiting tid ++ [sender]) } where
  table := h.table
  given y t ht := by
    have ht' : (setWaiter σ.master x (some sender)).threadId y = some t := ht
    rw [threadId_setWaiter] at ht'
    exact h.given y t ht'
  live t ht y hy := by
    obtain ⟨hid, hbusy, hwaiting⟩ := h.live t ht y hy
    show (setWaiter σ.master x (some sender)).threadId y = some t ∧
      (setWaiter σ.master x (some sender)).status y ≠ .idle ∧
      update σ.waiting tid (σ.waiting tid ++ [sender]) t =
        ((setWaiter σ.master x (some sender)).waiterAt y).toList
    rw [threadId_setWaiter, status_setWaiter, waiterAt_setWaiter]
    refine ⟨hid, hbusy, ?_⟩
    by_cases htid : t = tid
    · subst htid
      have hyx : y = x := Option.some.inj ((hy : _ = some y).symm.trans hx)
      subst hyx
      rw [update_self, update_self, hwaiting, hwaiter]
      rfl
    · have hyx : y ≠ x := by
        rintro rfl
        exact htid (Option.some.inj (hid.symm.trans (h.live tid hlive y hx).1))
      rw [update_of_ne htid, update_of_ne hyx]
      exact hwaiting
  settled t ht := by
    have htid : t ≠ tid := by
      rintro rfl
      exact ht hlive
    show update σ.waiting tid _ t = []
    rw [update_of_ne htid]
    exact h.settled t ht
  nobody y hy := by
    have hy' : (setWaiter σ.master x (some sender)).threadId y = none := hy
    rw [threadId_setWaiter] at hy'
    have hyx : y ≠ x := by
      rintro rfl
      exact absurd (hy'.symm.trans (h.live tid hlive y hx).1) nofun
    rw [waiterAt_setWaiter, update_of_ne hyx]
    exact h.nobody y hy'
  known := h.known
  answers := h.answers

theorem Inv.join (h : Inv σ) {sender : Slot} (hmeets : σ.Meets cfg (.join sender tid)) :
    ∃ m, σ.master.masterJoinThread cfg sender tid = .ok m ∧ Inv (σ.record m (.join sender tid)) := by
  obtain ⟨hsender, hpos, hle, hplace⟩ := hmeets
  obtain ⟨x, hx⟩ := h.table tid hpos hle
  obtain ⟨hwaiter, hidle⟩ := hplace x hx
  by_cases hexited : tid ∈ σ.exited
  · obtain ⟨m, hm, rfl⟩ := join_idle hx hwaiter hsender (hidle hexited)
    refine ⟨_, hm, ?_⟩
    show Inv (if tid ∈ σ.exited then _ else _)
    rw [if_pos hexited]
    exact h.answer sender
  · have hlive : σ.Live tid := ⟨hpos, hle, hexited⟩
    refine ⟨_, join_busy hx hwaiter hsender (h.live tid hlive x hx).2.1, ?_⟩
    show Inv (if tid ∈ σ.exited then _ else _)
    rw [if_neg hexited]
    exact (h.addWaiter hlive hx hwaiter).keeps ((keeps_frame cfg).stall _ sender)

/-! ### Exiting -/

/-- A thread at another place than the one that exits. -/
theorem Inv.live_exits (h : Inv σ) (hm : Exits σ.master m x) (hlive : σ.Live tid)
    (htid : σ.master.threadId x ≠ some tid) {y : Slot} (hy : m.placeOf tid = some y) :
    m.threadId y = some tid ∧ m.status y ≠ .idle ∧ σ.waiting tid = (m.waiterAt y).toList := by
  have hy' : σ.master.placeOf tid = some y := by
    unfold placeOf at hy ⊢
    rwa [← hm.table]
  obtain ⟨hid, hbusy, hwaiting⟩ := h.live tid hlive y hy'
  have hyx : y ≠ x := by
    rintro rfl
    exact htid hid
  refine ⟨(hm.threadId y).trans hid, hm.busy y hyx hbusy, ?_⟩
  rw [hm.waiter y, if_neg hyx]
  exact hwaiting

theorem Inv.exits (h : Inv σ) (hmeets : σ.Meets cfg (.exit x)) (hm : Exits σ.master m x) :
    Inv (σ.record m (.exit x)) := by
  obtain ⟨hplace, hfirst, -⟩ := hmeets
  have htable : ∀ tid, 0 < tid → tid ≤ m.tidCounter → ∃ y, m.placeOf tid = some y := by
    intro tid hpos hle
    unfold placeOf
    rw [hm.table]
    exact h.table tid hpos (hm.counter ▸ hle)
  have hgiven : ∀ y, ∀ tid ∈ m.threadId y, 0 < tid ∧ tid ≤ m.tidCounter := by
    intro y tid htid
    rw [hm.counter]
    exact h.given y tid ((hm.threadId y).symm.trans htid)
  have hnobody : ∀ y, m.threadId y = none → m.waiterAt y = none := by
    intro y hy
    rw [hm.waiter y]
    split_ifs
    · rfl
    · exact h.nobody y ((hm.threadId y).symm.trans hy)
  cases hx : σ.master.threadId x with
  | none =>
    have hrecord : σ.record m (.exit x) = { σ with master := m } := by
      show (match σ.master.threadId x with | none => _ | some _ => _) = _
      rw [hx]
    rw [hrecord]
    refine ⟨htable, hgiven, fun tid hlive y hy ↦ ?_, fun tid hdead ↦ ?_, hnobody,
      fun tid htid ↦ hm.counter.symm ▸ h.known tid htid, ?_⟩
    · exact h.live_exits hm ⟨hlive.1, hm.counter ▸ hlive.2.1, hlive.2.2⟩ (hx ▸ nofun) hy
    · exact h.settled tid fun hlive ↦ hdead ⟨hlive.1, hm.counter.symm ▸ hlive.2.1, hlive.2.2⟩
    · have hreplies := hm.replies
      rw [h.nobody x hx] at hreplies
      exact (hreplies.trans (List.append_nil _)).trans h.answers
  | some t =>
    have hrecord : σ.record m (.exit x) =
        { master := m, exited := t :: σ.exited, waiting := update σ.waiting t [],
          answers := σ.answers ++ (σ.waiting t).map Slot.tile } := by
      show (match σ.master.threadId x with | none => _ | some _ => _) = _
      rw [hx]
    have hlive : σ.Live t := ⟨(h.given x t hx).1, (h.given x t hx).2, hfirst t hx⟩
    rw [hrecord]
    refine ⟨htable, hgiven, fun tid hlive' y hy ↦ ?_, fun tid hdead ↦ ?_, hnobody,
      fun tid htid ↦ ?_, ?_⟩
    · have hne : tid ≠ t := fun heq ↦ hlive'.2.2 (heq ▸ List.mem_cons_self)
      have hold : σ.Live tid := ⟨hlive'.1, hm.counter ▸ hlive'.2.1,
        fun hmem ↦ hlive'.2.2 (List.mem_cons_of_mem t hmem)⟩
      have hother : σ.master.threadId x ≠ some tid := fun heq ↦
        hne (Option.some.inj (heq.symm.trans hx))
      show m.threadId y = some tid ∧ m.status y ≠ .idle ∧
        update σ.waiting t [] tid = (m.waiterAt y).toList
      rw [update_of_ne hne]
      exact h.live_exits hm hold hother hy
    · show update σ.waiting t [] tid = []
      by_cases htid : tid = t
      · subst htid
        exact update_self ..
      · rw [update_of_ne htid]
        refine h.settled tid fun hold ↦ hdead ⟨hold.1, hm.counter.symm ▸ hold.2.1, fun hmem ↦ ?_⟩
        rcases List.mem_cons.mp hmem with heq | hmem
        · exact htid heq
        · exact hold.2.2 hmem
    · rw [hm.counter]
      rcases List.mem_cons.mp htid with heq | htid
      · exact heq ▸ hlive.2.1
      · exact h.known tid htid
    · rw [hm.replies, h.answers, (h.live t hlive x (hplace t hx)).2.2]

theorem Inv.exit (h : Inv σ) (hmeets : σ.Meets cfg (.exit x))
    (hm : σ.master.masterOnThreadExit cfg x = .ok m) : Inv (σ.record m (.exit x)) := by
  obtain ⟨-, s₁, hwake, hrest⟩ := ((keeps_frame cfg).masterOnThreadExit _ x).of_eq_ok hm
  obtain ⟨s, hs, hexits⟩ := wake_exits hmeets.2.2
  obtain rfl : s = s₁ := Except.ok.inj (hs.symm.trans hwake)
  exact h.exits hmeets (hexits.keeps hrest)

/-! ### Runs -/

theorem Inv.step (h : Inv σ) {e : Event} (hmeets : σ.Meets cfg e) (hstep : σ.step cfg e = .ok σ') :
    Inv σ' := by
  obtain ⟨m, hm, hrecord⟩ := Outcome.bind_eq_ok hstep
  cases hrecord
  cases e with
  | spawn req => exact h.spawn hmeets hm
  | start x =>
    have hstart : Yields (σ.master.masterOnThreadStart x) (Keeps σ.master) :=
      .require_bind (fun _ ↦ (keeps_frame cfg).resume _ x) fun _ ↦ trivial
    exact h.keeps (hstart.of_eq_ok hm)
  | stall tile => exact h.keeps (((keeps_frame cfg).stallCore _ tile).of_eq_ok hm)
  | resume tile => exact h.keeps (((keeps_frame cfg).resumeCore _ tile).of_eq_ok hm)
  | join sender tid =>
    obtain ⟨m', hm', hinv⟩ := h.join hmeets
    obtain rfl : m = m' := Except.ok.inj (hm.symm.trans hm')
    exact hinv
  | yield x => exact h.yield hmeets hm
  | migrate tid tile => exact h.migrate hmeets hm
  | setAffinity tid cpusetsize set =>
    have hset : Yields (σ.master.masterSchedSetAffinity cfg tid cpusetsize set) (Keeps σ.master) := by
      refine .check fun _ ↦ ?_
      exact Outcome.unknown.bind fun x _ ↦ (keeps_frame cfg).affinity _ _ set
    exact h.keeps (hset.of_eq_ok hm)
  | getAffinity requester tid cpusetsize =>
    have hget : Yields (σ.master.masterSchedGetAffinity cfg requester tid cpusetsize)
        (Keeps σ.master) := by
      refine Outcome.unknown.bind fun x _ ↦ ?_
      exact Outcome.require_bind (fun _ ↦ (keeps_frame cfg).send _ _ trivial) fun _ ↦ trivial
    exact h.keeps (hget.of_eq_ok hm)
  | exit x => exact h.exit hmeets hm

theorem Reached.inv (h : Reached cfg σ) : Inv σ :=
  Machine.Reached.invariant h (inv_start cfg) fun _ _ _ hinv hmeets hstep ↦ hinv.step hmeets hstep

/-- In a run whose events meet the condition, the master has sent the join replies that a service
which knows threads by their id would have sent; no join waits for a thread that has exited; a join
never fails, and neither does waking the joiner of a thread that exits. -/
theorem joins_answered (h : Reached cfg σ) :
    σ.master.joinReplies = σ.answers ∧ (∀ tid ∈ σ.exited, σ.waiting tid = []) ∧
      (∀ sender tid, σ.Meets cfg (.join sender tid) →
        ∃ σ', σ.step cfg (.join sender tid) = .ok σ') ∧
      ∀ x, σ.Meets cfg (.exit x) → ∃ m, (σ.master.setStatus x .idle).wakeUpWaiter x = .ok m := by
  refine ⟨h.inv.answers, fun tid htid ↦ ?_, fun sender tid hmeets ↦ ?_, fun x hmeets ↦ ?_⟩
  · exact h.inv.settled tid fun hlive ↦ hlive.2.2 htid
  · obtain ⟨m, hm, -⟩ := h.inv.join hmeets
    refine ⟨σ.record m (.join sender tid), ?_⟩
    show (σ.master.masterJoinThread cfg sender tid >>= _) = _
    rw [hm]
    rfl
  · obtain ⟨m, hm, -⟩ := wake_exits hmeets.2.2
    exact ⟨m, hm⟩

/-- Two application tiles with one thread each, in full mode. -/
def twoTiles : Config := ⟨2, 1, 1, .full, .roundRobin, fun _ ↦ 0⟩

/-- The main thread asks for a thread on tile 1. -/
def spawnOnTileOne : Event := .spawn ⟨7, 8, ⟨0, 0⟩, some 1⟩

/-- The main thread joins a thread that is running and is answered when that thread exits. -/
theorem joins_answered_once :
    ∃ σ, Reached twoTiles σ ∧ σ.exited = [1] ∧ σ.answers = [0] ∧ σ.master.joinReplies = [0] := by
  have hrun : Reached twoTiles _ := Machine.Reached.start.exec
    [spawnOnTileOne, .start ⟨1, 0⟩, .join ⟨0, 0⟩ 1, .exit ⟨1, 0⟩] rfl rfl
  exact ⟨_, hrun, rfl, rfl, (joins_answered hrun).1⟩

/-- A thread exits, another one takes its place, and the first one is joined: it has exited, but no
reply is sent, since the place is not idle. -/
theorem join_of_reused_place :
    ∃ σ, (machine twoTiles).exec (start twoTiles)
        [spawnOnTileOne, .start ⟨1, 0⟩, .exit ⟨1, 0⟩, spawnOnTileOne, .join ⟨0, 0⟩ 1] = .ok σ ∧
      1 ∈ σ.exited ∧ σ.answers = [0] ∧ σ.master.joinReplies = [] :=
  ⟨_, rfl, by decide, rfl, rfl⟩

end JoinSystem

end CarbonSim.Threads
