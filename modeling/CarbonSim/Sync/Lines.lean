import CarbonSim.Lib.Monitor
import CarbonSim.Sync.SyncServer

/-!
# The server as a monitor

The owner and the queue of a mutex form a line, and each call that the handlers make is a move of
the monitor. In a sound state no call fails: a thread runs if its core is in no list, and is stalled
otherwise.
-/

namespace CarbonSim.Sync

open Function List
open Monitor.State (placeAfter noteAll note admitted)

open Monitor (At Place)

variable {Core : Type} {s : Server Core} {c d : Core} {m k : ℕ}
  {s' : Server Core} {req : Request} {ok : Server Core → Core → Request → Prop} {l : List (CondWaiter Core)}

/-- The cores that own or wait for a mutex, the owner first. -/
def SimMutex.line (m : SimMutex Core) : List Core := m.owner.toList ++ m.waiting

def Server.monitor (s : Server Core) : Monitor.State Core ℕ ℕ :=
  ⟨fun m ↦ (s.mutexes m).line, fun k ↦ (s.conds k).waiting.map CondWaiter.coreId⟩

/-- The thread of a core at the place. -/
structure ThreadAt (t : ThreadTable Core) (c : Core) (p : Place ℕ ℕ) : Prop where
  running : p = .idle → t.status c = .running
  stalled : p ≠ .idle → t.status c = .stalled ∧ t.lastStalled c = true

theorem monitor_setMutex (s : Server Core) (m : ℕ) (x : SimMutex Core) (t : ThreadTable Core) :
    (s.setMutex m x t).monitor = ⟨update s.monitor.line m x.line, s.monitor.waiting⟩ := by
  simp only [Server.monitor, Server.setMutex, Monitor.State.mk.injEq, and_true]
  funext m'
  by_cases hm : m' = m
  · subst hm
    simp only [update_self]
  · simp only [update_of_ne hm]

theorem monitor_setWaiting (s : Server Core) (k : ℕ) (l : List (CondWaiter Core)) :
    (s.setWaiting k l).monitor =
      ⟨s.monitor.line, update s.monitor.waiting k (l.map CondWaiter.coreId)⟩ := by
  simp only [Server.monitor, Server.setWaiting, Monitor.State.mk.injEq, true_and]
  funext k'
  by_cases hk : k' = k
  · subst hk
    simp only [update_self]
  · simp only [update_of_ne hk]

@[simp] theorem setMutex_threads (s : Server Core) (m : ℕ) (x : SimMutex Core)
    (t : ThreadTable Core) : (s.setMutex m x t).threads = t := rfl

theorem owned_setMutex (h : ∀ m, (s.mutexes m).owner = none → (s.mutexes m).waiting = [])
    {x : SimMutex Core} (hx : x.owner = none → x.waiting = []) (t : ThreadTable Core) (m m' : ℕ)
    (hnone : ((s.setMutex m x t).mutexes m').owner = none) :
    ((s.setMutex m x t).mutexes m').waiting = [] := by
  simp only [Server.setMutex] at hnone ⊢
  by_cases hm : m' = m
  · subst hm
    rw [update_self] at hnone ⊢
    exact hx hnone
  · rw [update_of_ne hm] at hnone ⊢
    exact h m' hnone

theorem setWaiting_setWaiting (s : Server Core) (k : ℕ) (l l' : List (CondWaiter Core)) :
    (s.setWaiting k l).setWaiting k l' = s.setWaiting k l' := by
  simp only [Server.setWaiting, update_idem]

@[simp] theorem conds_setWaiting (s : Server Core) (k : ℕ) (l : List (CondWaiter Core)) :
    (s.setWaiting k l).conds = update s.conds k ⟨l⟩ := rfl

/-- Removing the front waiter keeps the cores of the others in order. -/
theorem eraseFront_cores (l : List (CondWaiter Core)) :
    (eraseFront l).map CondWaiter.coreId = l.tail.map CondWaiter.coreId := by
  induction l using eraseFront.induct with
  | case1 => rfl
  | case2 => rfl
  | case3 a b rest ih =>
    rw [eraseFront, map_cons, ih]
    rfl

variable [DecidableEq Core]

structure Server.Sound (s : Server Core) : Prop where
  /-- No core is queued on a mutex that has no owner. -/
  owned : ∀ m, (s.mutexes m).owner = none → (s.mutexes m).waiting = []
  threads : ∀ c, ∃ p, At s.monitor c p ∧ ThreadAt s.threads c p

theorem Server.Sound.head?_line (h : s.Sound) (m : ℕ) :
    (s.monitor.line m).head? = (s.mutexes m).owner := by
  change (s.mutexes m).line.head? = _
  unfold SimMutex.line
  cases howner : (s.mutexes m).owner with
  | none => rw [h.owned m howner]; rfl
  | some c => rfl

theorem Server.Sound.tail_line (h : s.Sound) (m : ℕ) :
    (s.monitor.line m).tail = (s.mutexes m).waiting := by
  change (s.mutexes m).line.tail = _
  unfold SimMutex.line
  cases howner : (s.mutexes m).owner with
  | none => rw [h.owned m howner]; rfl
  | some c => rfl

/-! ### Threads -/

theorem ThreadAt.stall (t : ThreadTable Core) (c : Core) {p : Place ℕ ℕ} (hp : p ≠ .idle) :
    ThreadAt ⟨update t.status c .stalled, update t.lastStalled c true⟩ c p := by
  constructor
  · exact fun hidle ↦ absurd hidle hp
  · simp

theorem ThreadAt.resume (t : ThreadTable Core) (c : Core) :
    ThreadAt ⟨update t.status c .running, t.lastStalled⟩ c (.idle : Place ℕ ℕ) := by
  constructor
  · simp
  · exact fun hne ↦ absurd rfl hne

/-- The thread of another core is as it was. -/
theorem ThreadAt.other {t : ThreadTable Core} {p : Place ℕ ℕ} (h : ThreadAt t d p) (hd : d ≠ c)
    (x : ThreadState) (last : Core → Bool) (hlast : last d = t.lastStalled d) :
    ThreadAt ⟨update t.status c x, last⟩ d p := by
  constructor
  · intro hidle
    simpa only [update_of_ne hd] using h.running hidle
  · intro hne
    simpa only [update_of_ne hd, hlast] using h.stalled hne

/-- A state after a legal move is sound if the threads follow the places. -/
theorem Server.Sound.next (h : s.Sound) (mv : Monitor.Move Core ℕ ℕ)
    (hmv : s.monitor.Legal mv) (heq : s'.monitor = s.monitor.next mv)
    (howned : ∀ m, (s'.mutexes m).owner = none → (s'.mutexes m).waiting = [])
    (hthread : ∀ c p, At s.monitor c p → ThreadAt s.threads c p →
      ThreadAt s'.threads c (s.monitor.placeAfter c p mv)) : s'.Sound where
  owned := howned
  threads c := by
    obtain ⟨p, hat, ht⟩ := h.threads c
    refine ⟨s.monitor.placeAfter c p mv, ?_, hthread c p hat ht⟩
    rw [heq]
    exact hat.next hmv

theorem Server.Sound.running_of_idle (h : s.Sound) (hc : At s.monitor c .idle) :
    s.threads.status c = .running := by
  obtain ⟨p, hat, ht⟩ := h.threads c
  exact ht.running (hat.eq_idle hc)

theorem Server.Sound.idle_of_running (h : s.Sound) (hc : s.threads.status c = .running) :
    At s.monitor c .idle := by
  obtain ⟨p, hat, ht⟩ := h.threads c
  by_cases hp : p = .idle
  · exact hp ▸ hat
  · rw [(ht.stalled hp).1] at hc
    cases hc

/-- A core in a list has a stalled thread. -/
theorem Server.Sound.stalled (h : s.Sound)
    (hc : (∃ m, c ∈ (s.monitor.line m).tail) ∨ ∃ k, c ∈ s.monitor.waiting k) :
    s.threads.status c = .stalled ∧ s.threads.lastStalled c = true := by
  obtain ⟨p, hat, ht⟩ := h.threads c
  apply ht.stalled
  rintro rfl
  obtain ⟨m, hm⟩ | ⟨k, hk⟩ := hc
  · cases hat.eq_queued hm
  · cases hat.eq_waiting hk

/-! ### Calls -/

/-- What a call leaves alone. -/
structure Server.Keeps (s s' : Server Core) : Prop where
  numMutexes : s'.numMutexes = s.numMutexes
  numConds : s'.numConds = s.numConds

/-- A core enters the line of a mutex. Its thread runs on if nobody is before it. -/
theorem lock_spec (howned : ∀ m, (s.mutexes m).owner = none → (s.mutexes m).waiting = [])
    (hrun : s.threads.status c = .running) (m : ℕ) :
    ∃ x t, s.lock ⟨m⟩ c = .ok ((s.monitor.line m).isEmpty, s.setMutex m x t) ∧ x.owner ≠ none ∧
      x.line = s.monitor.line m ++ [c] ∧
      ThreadAt t c (if s.monitor.line m = [] then .idle else .queued m) ∧
      ∀ d p, d ≠ c → ThreadAt s.threads d p → ThreadAt t d p := by
  have hline : s.monitor.line m = (s.mutexes m).owner.toList ++ (s.mutexes m).waiting := rfl
  cases howner : (s.mutexes m).owner with
  | none =>
    replace hline : s.monitor.line m = [] := by rw [hline, howner, howned m howner]; rfl
    refine ⟨⟨(s.mutexes m).waiting, some c⟩, s.threads, ?_, nofun, ?_, ?_, fun _ _ _ ht ↦ ht⟩
    · simp only [Server.lock, SimMutex.lock, howner, hline]
      rfl
    · simp [SimMutex.line, hline, howned m howner]
    · rw [if_pos hline]
      exact ⟨fun _ ↦ hrun, fun hne ↦ absurd rfl hne⟩
  | some o =>
    rw [howner] at hline
    refine ⟨⟨(s.mutexes m).waiting ++ [c], some o⟩,
      ⟨update s.threads.status c .stalled, update s.threads.lastStalled c true⟩, ?_, nofun, ?_, ?_,
      fun d p hd ht ↦ ht.other hd _ _ (update_of_ne hd _ _)⟩
    · simp only [Server.lock, SimMutex.lock, howner, stallThread_eq hrun, hline]
      rfl
    · simp [SimMutex.line, hline]
    · rw [if_neg (by simp [hline])]
      exact .stall s.threads c (by simp)

/-- A core that runs enters the line of a mutex. -/
theorem Server.Sound.lock (h : s.Sound) (hc : At s.monitor c .idle) (m : ℕ) :
    ∃ s', s.lock ⟨m⟩ c = .ok ((s.monitor.line m).isEmpty, s') ∧ s'.Sound ∧
      s'.monitor = s.monitor.next (.enter c m) ∧ s'.conds = s.conds ∧ s.Keeps s' := by
  obtain ⟨x, t, hcall, hx, hline, hself, hother⟩ := lock_spec h.owned (h.running_of_idle hc) m
  have heq : (s.setMutex m x t).monitor = s.monitor.next (.enter c m) := by
    rw [monitor_setMutex, hline]
    rfl
  refine ⟨_, hcall, ?_, heq, rfl, rfl, rfl⟩
  apply h.next (.enter c m) hc heq
  · exact owned_setMutex h.owned (fun hnone ↦ absurd hnone hx) t m
  · intro d p hat ht
    by_cases hd : d = c
    · subst hd
      rw [hat.eq_idle hc]
      simpa only [placeAfter, true_and, ne_eq, ite_not, setMutex_threads] using hself
    · simp only [placeAfter, hd, false_and, if_false, setMutex_threads]
      exact hother d p hd ht

/-- The owner leaves the line, and the thread of the next owner runs. -/
theorem Server.Sound.unlock (h : s.Sound) (hc : (s.mutexes m).owner = some c)
    (hnot : c ∉ (s.mutexes m).waiting) :
    ∃ s', s.unlock ⟨m⟩ c = .ok ((s.mutexes m).waiting.head?, s') ∧ s'.Sound ∧
      s'.monitor = s.monitor.next (.leave c m) ∧ s'.conds = s.conds ∧ s.Keeps s' := by
  have hlegal : s.monitor.Legal (.leave c m) := by
    constructor
    · rw [h.head?_line, hc]
    · rw [h.tail_line]
      exact hnot
  have htail := h.tail_line m
  cases hwait : (s.mutexes m).waiting with
  | nil =>
    have heq : (s.setMutex m ⟨[], none⟩ s.threads).monitor = s.monitor.next (.leave c m) := by
      rw [monitor_setMutex]
      simp [Monitor.State.next, SimMutex.line, htail, hwait]
    have hcall : s.unlock ⟨m⟩ c = .ok (none, s.setMutex m ⟨[], none⟩ s.threads) := by
      simp only [Server.unlock, SimMutex.unlock, require, hc, hwait, if_true]
      rfl
    refine ⟨_, hcall, ?_, heq, rfl, rfl, rfl⟩
    apply h.next _ hlegal heq
    · exact owned_setMutex h.owned (fun _ ↦ rfl) _ m
    · intro d p _ ht
      simpa [placeAfter, htail, hwait] using ht
  | cons next rest =>
    have hmem : next ∈ (s.monitor.line m).tail := by
      rw [htail, hwait]
      exact mem_cons_self
    obtain ⟨hstalled, hlast⟩ := h.stalled (.inl ⟨m, hmem⟩)
    have heq (t : ThreadTable Core) : (s.setMutex m ⟨rest, some next⟩ t).monitor =
        s.monitor.next (.leave c m) := by
      rw [monitor_setMutex]
      simp [Monitor.State.next, SimMutex.line, htail, hwait]
    have hcall : s.unlock ⟨m⟩ c = .ok (some next, s.setMutex m ⟨rest, some next⟩
        ⟨update s.threads.status next .running, s.threads.lastStalled⟩) := by
      simp only [Server.unlock, SimMutex.unlock, require, hc, hwait, if_true,
        resumeThread_eq hstalled hlast]
      rfl
    refine ⟨_, hcall, ?_, heq _, rfl, rfl, rfl⟩
    apply h.next _ hlegal (heq _)
    · exact owned_setMutex h.owned (by simp) _ m
    · intro d p _ ht
      simp only [placeAfter, htail, hwait, head?_cons, setMutex_threads]
      by_cases hd : next = d
      · subst hd
        rw [if_pos rfl]
        exact .resume s.threads next
      · rw [if_neg fun heq ↦ hd (Option.some.inj heq)]
        exact ht.other (Ne.symm hd) _ _ rfl

/-- A core that runs parks on a condition variable. -/
theorem Server.Sound.park (h : s.Sound) (hc : At s.monitor c .idle) (w : CondWaiter Core)
    (hw : w.coreId = c) (m : ℕ) :
    ∃ t, s.threads.stallThread c = .ok t ∧
      (({ s with threads := t } : Server Core).setWaiting k ((s.conds k).waiting ++ [w])).Sound ∧
      (({ s with threads := t } : Server Core).setWaiting k ((s.conds k).waiting ++ [w])).monitor =
        s.monitor.next (.park c k m) := by
  have heq (t : ThreadTable Core) :
      (({ s with threads := t } : Server Core).setWaiting k
        ((s.conds k).waiting ++ [w])).monitor = s.monitor.next (.park c k m) := by
    rw [monitor_setWaiting, map_append, map_singleton, hw]
    rfl
  refine ⟨_, stallThread_eq (h.running_of_idle hc), ?_, heq _⟩
  apply h.next (.park c k m) hc (heq _)
  · exact h.owned
  · intro d p _ ht
    simp only [placeAfter]
    by_cases hd : d = c
    · subst hd
      exact .stall s.threads d (by simp)
    · rw [if_neg hd]
      exact ht.other hd _ _ (update_of_ne hd _ _)

/-- The first core parked on a condition variable enters the line of its mutex. The waiters that
are left are the same cores, in the same order. -/
theorem Server.Sound.wake (h : s.Sound) {w : CondWaiter Core}
    (hwait : (s.conds k).waiting = w :: l) (l' : List (CondWaiter Core))
    (hl : l'.map CondWaiter.coreId = l.map CondWaiter.coreId) :
    ∃ s', (s.setWaiting k l').wake w = .ok ((s.monitor.line w.mutex.offset).isEmpty, s') ∧
      s'.Sound ∧ s'.monitor = s.monitor.next (.wake k w.mutex.offset) ∧
      s'.conds = update s.conds k ⟨l'⟩ ∧ s.Keeps s' := by
  have hcores : s.monitor.waiting k = w.coreId :: l.map CondWaiter.coreId := by
    change (s.conds k).waiting.map _ = _
    rw [hwait, map_cons]
  obtain ⟨hstalled, hlast⟩ := h.stalled (c := w.coreId)
    (.inr ⟨k, by rw [hcores]; exact mem_cons_self⟩)
  -- the state in which the mutex is locked
  let t : ThreadTable Core :=
    ⟨update s.threads.status w.coreId .running, s.threads.lastStalled⟩
  let s₁ : Server Core := { s.setWaiting k l' with threads := t }
  have hresume : (s.setWaiting k l').wake w = s₁.lock w.mutex w.coreId := by
    simp only [Server.wake, Server.resumeThread]
    rw [show (s.setWaiting k l').threads = s.threads from rfl, resumeThread_eq hstalled hlast]
    rfl
  obtain ⟨x, t', hcall, hx, hline, hself, hother⟩ :=
    lock_spec (s := s₁) (c := w.coreId) h.owned (update_self ..) w.mutex.offset
  have heq : (s₁.setMutex w.mutex.offset x t').monitor =
      s.monitor.next (.wake k w.mutex.offset) := by
    rw [monitor_setMutex, Monitor.next_wake hcores, hline]
    change Monitor.State.mk _ (s.setWaiting k l').monitor.waiting = _
    rw [monitor_setWaiting, hl]
    rfl
  rw [hresume]
  refine ⟨_, hcall, ?_, heq, rfl, rfl, rfl⟩
  apply h.next _ (Monitor.legal_wake hcores _) heq
  · exact owned_setMutex (s := s₁) h.owned (fun hnone ↦ absurd hnone hx) _ _
  · intro d p _ ht
    simp only [placeAfter, hcores, head?_cons, setMutex_threads]
    by_cases hd : w.coreId = d
    · subst hd
      rw [if_pos rfl]
      exact hself
    · rw [if_neg fun heq ↦ hd (Option.some.inj heq)]
      exact hother d p (Ne.symm hd) (ht.other (Ne.symm hd) _ _ rfl)

/-! ### The loop of a broadcast -/

/-- Waking a core does not read the lists of the condition variables. -/
theorem wake_setWaiting (s : Server Core) (w : CondWaiter Core) (l : List (CondWaiter Core)) :
    (s.setWaiting k l).wake w = (s.wake w).map fun x ↦ (x.1, x.2.setWaiting k l) := by
  have hthreads : (s.setWaiting k l).threads = s.threads := rfl
  have hmutexes : (s.setWaiting k l).mutexes = s.mutexes := rfl
  simp only [Server.wake, Server.resumeThread, Server.lock, hthreads, bind, Except.bind]
  cases s.threads.resumeThread w.coreId with
  | error e => rfl
  | ok t =>
    simp only [pure, Except.pure, hmutexes]
    cases hlock : (s.mutexes w.mutex.offset).lock t w.coreId with
    | error e => rfl
    | ok x => rfl

theorem wakeEach_cons {w : CondWaiter Core} {rest : List (CondWaiter Core)} {granted : Bool}
    {s₁ s₂ : Server Core} {cores : List Core} (hwake : s.wake w = .ok (granted, s₁))
    (hrest : s₁.wakeEach rest = .ok (cores, s₂)) :
    s.wakeEach (w :: rest) = .ok ((if granted then [w.coreId] else []) ++ cores, s₂) := by
  simp only [Server.wakeEach, hwake, bind, Except.bind, hrest, pure, Except.pure]
  cases granted <;> rfl

/-- The cores of a list that become owners as they enter their lines one after the other. -/
def wakeMoves (k : ℕ) (l : List (CondWaiter Core)) : List (Monitor.Move Core ℕ ℕ) :=
  l.map fun w ↦ .wake k w.mutex.offset

theorem Server.Sound.wakeEach (h : (s.setWaiting k l).Sound) :
    ∃ s', s.wakeEach l =
        .ok (((s.setWaiting k l).monitor.noteAll (wakeMoves k l)).granted.map Prod.fst, s') ∧
      (s'.setWaiting k []).Sound ∧
      (s'.setWaiting k []).monitor = (s.setWaiting k l).monitor.nextAll (wakeMoves k l) ∧
      (s'.setWaiting k []).conds = update s.conds k ⟨[]⟩ ∧ s.Keeps s' := by
  induction l generalizing s with
  | nil => exact ⟨s, rfl, h, rfl, rfl, rfl, rfl⟩
  | cons w rest ih =>
    have hwait : ((s.setWaiting k (w :: rest)).conds k).waiting = w :: rest := by simp
    obtain ⟨s₁, hcall, hsound, hmonitor, hconds, hkeeps⟩ := h.wake hwait rest rfl
    rw [setWaiting_setWaiting, wake_setWaiting] at hcall
    obtain ⟨⟨granted, s₂⟩, hwake, hcall⟩ := Outcome.bind_eq_ok hcall
    obtain ⟨rfl, rfl⟩ := Prod.mk.inj (Except.ok.inj hcall)
    obtain ⟨s', hrest, hsound', hmonitor', hconds', hkeeps'⟩ := ih hsound
    have hcores : (s.setWaiting k (w :: rest)).monitor.waiting k =
        w.coreId :: rest.map CondWaiter.coreId := by
      rw [monitor_setWaiting]
      simp
    refine ⟨s', ?_, hsound', ?_, ?_, ?_⟩
    · rw [wakeEach_cons hwake hrest]
      simp only [wakeMoves, map_cons, noteAll, Monitor.Log.append,
        Monitor.note_wake hcores, ← hmonitor, map_append, admitted]
      cases ((s.setWaiting k (w :: rest)).monitor.line w.mutex.offset).isEmpty <;> rfl
    · rw [hmonitor', hmonitor]
      rfl
    · rw [hconds', ← update_idem (a := k) ⟨rest⟩ ⟨[]⟩ s₂.conds,
        ← conds_setWaiting s₂ k rest, hconds]
      simp
    · exact ⟨hkeeps'.numMutexes.trans hkeeps.numMutexes, hkeeps'.numConds.trans hkeeps.numConds⟩

/-! ### Messages -/

/-- The message names objects that exist, and the core owns the mutex that it gives up. -/
def Server.Admits (s : Server Core) (c : Core) : Request → Prop
  | .mutexLock m => m < s.numMutexes
  | .mutexUnlock m => m < s.numMutexes ∧ (s.mutexes m).owner = some c
  | .condWait k m => k < s.numConds ∧ m < s.numMutexes ∧ (s.mutexes m).owner = some c
  | .condSignal k => k < s.numConds
  | .condBroadcast k => k < s.numConds

instance (s : Server Core) (c : Core) (req : Request) : Decidable (s.Admits c req) :=
  match req with
  | .mutexLock m => inferInstanceAs (Decidable (m < s.numMutexes))
  | .mutexUnlock m => inferInstanceAs (Decidable (m < s.numMutexes ∧ (s.mutexes m).owner = some c))
  | .condWait k m => inferInstanceAs
      (Decidable (k < s.numConds ∧ m < s.numMutexes ∧ (s.mutexes m).owner = some c))
  | .condSignal k => inferInstanceAs (Decidable (k < s.numConds))
  | .condBroadcast k => inferInstanceAs (Decidable (k < s.numConds))

/-- The waiters that a message moves from a condition variable to the mutexes. -/
def Server.woken (s : Server Core) : Request → List (CondWaiter Core)
  | .condSignal k => (s.conds k).waiting.take 1
  | .condBroadcast k => (s.conds k).waiting
  | _ => []

/-- The moves that the handler of a message makes. -/
def Server.moves (s : Server Core) (c : Core) : Request → List (Monitor.Move Core ℕ ℕ)
  | .mutexLock m => [.enter c m]
  | .mutexUnlock m => [.leave c m]
  | .condWait k m => [.park c k m, .leave c m]
  | .condSignal k => wakeMoves k (s.woken (.condSignal k))
  | .condBroadcast k => wakeMoves k (s.woken (.condBroadcast k))

/-- The condition variables after a message. -/
def Server.condsAfter (s : Server Core) (c : Core) (time : ℕ) : Request → ℕ → SimCond Core
  | .condWait k m =>
    update s.conds k ⟨(s.conds k).waiting ++ [⟨c, ⟨m⟩, time⟩]⟩
  | .condSignal k => update s.conds k ⟨eraseFront (s.conds k).waiting⟩
  | .condBroadcast k => update s.conds k ⟨[]⟩
  | _ => s.conds

/-- The reply that does not depend on the state. -/
def Request.response (c : Core) : Request → List (Core × Reply)
  | .mutexUnlock _ => [(c, .mutexUnlock)]
  | .condSignal _ => [(c, .condSignal)]
  | .condBroadcast _ => [(c, .condBroadcast)]
  | _ => []

/-- What the handler of a message does. -/
structure Server.Handled (s : Server Core) (c : Core) (time : ℕ) (req : Request)
    (s' : Server Core) (replies : List (Core × Reply)) : Prop where
  sound : s'.Sound
  monitor_eq : s'.monitor = s.monitor.nextAll (s.moves c req)
  conds_eq : s'.conds = s.condsAfter c time req
  keeps : s.Keeps s'
  replies_eq : replies = (s.monitor.noteAll (s.moves c req)).granted.map
    (fun x ↦ (x.1, Reply.mutexLock time)) ++ req.response c

theorem Server.Sound.mutexLock (h : s.Sound) (hc : At s.monitor c .idle) (hm : m < s.numMutexes)
    (time : ℕ) : ∃ s' replies, s.mutexLock c m time = .ok (s', replies) ∧
      s.Handled c time (.mutexLock m) s' replies := by
  obtain ⟨s', hcall, hsound, hmonitor, hconds, hkeeps⟩ := h.lock hc m
  refine ⟨s', _, ?_, hsound, hmonitor, hconds, hkeeps, rfl⟩
  simp only [Server.mutexLock, require, hm, if_true, hcall, bind, Except.bind, pure, Except.pure]
  simp only [Server.moves, noteAll, Monitor.Log.append, note,
    admitted, Monitor.Log.empty, Request.response, append_nil]
  cases (s.monitor.line m).isEmpty <;> rfl

theorem Server.Sound.notMem_waiting (h : s.Sound) (hc : At s.monitor c .idle) (m : ℕ) :
    c ∉ (s.mutexes m).waiting := by
  intro hmem
  rw [← h.tail_line] at hmem
  cases hc.eq_queued hmem

theorem Server.Sound.mutexUnlock (h : s.Sound) (hc : At s.monitor c .idle)
    (hm : m < s.numMutexes) (howner : (s.mutexes m).owner = some c) (time : ℕ) :
    ∃ s' replies, s.mutexUnlock c m time = .ok (s', replies) ∧
      s.Handled c time (.mutexUnlock m) s' replies := by
  obtain ⟨s', hcall, hsound, hmonitor, hconds, hkeeps⟩ := h.unlock howner (h.notMem_waiting hc m)
  refine ⟨s', _, ?_, hsound, hmonitor, hconds, hkeeps, rfl⟩
  simp only [Server.mutexUnlock, require, hm, if_true, hcall, bind, Except.bind, pure, Except.pure]
  simp [Server.moves, noteAll, Monitor.Log.append, note, notify,
    Monitor.Log.empty, Request.response, h.tail_line]

theorem Server.Sound.condWait (h : s.Sound) (hc : At s.monitor c .idle) (hk : k < s.numConds)
    (hm : m < s.numMutexes) (howner : (s.mutexes m).owner = some c) (time : ℕ) :
    ∃ s' replies, s.condWait c k m time = .ok (s', replies) ∧
      s.Handled c time (.condWait k m) s' replies := by
  obtain ⟨t, hstall, hparked, hpark⟩ := h.park (k := k) hc ⟨c, ⟨m⟩, time⟩ rfl m
  obtain ⟨s', hcall, hsound, hmonitor, hconds, hkeeps⟩ :=
    hparked.unlock (m := m) howner (h.notMem_waiting hc m)
  refine ⟨s', _, ?_, hsound, ?_, hconds, ⟨hkeeps.numMutexes, hkeeps.numConds⟩, rfl⟩
  · have hwait : s.wait k c time ⟨m⟩ = .ok ((s.mutexes m).waiting.head?, s') := by
      simp only [Server.wait, hstall, bind, Except.bind]
      exact hcall
    simp only [Server.condWait, require, hm, hk, if_true, hwait, bind, Except.bind, pure,
      Except.pure]
    simp [Server.moves, noteAll, Monitor.Log.append, note, notify,
      Monitor.Log.empty, Request.response, Monitor.State.next, h.tail_line]
  · rw [hmonitor, hpark]
    rfl

theorem Server.Sound.condSignal (h : s.Sound) (hk : k < s.numConds) (time : ℕ) :
    ∃ s' replies, s.condSignal c k time = .ok (s', replies) ∧
      s.Handled c time (.condSignal k) s' replies := by
  cases hwait : (s.conds k).waiting with
  | nil =>
    have hsignal : s.signal k = .ok (none, s) := by
      simp only [Server.signal, hwait]
    refine ⟨s, _, ?_, h, ?_, ?_, ⟨rfl, rfl⟩, rfl⟩
    · simp only [Server.condSignal, require, hk, if_true, hsignal, bind, Except.bind, pure,
        Except.pure]
      simp [Server.moves, Server.woken, wakeMoves, hwait, noteAll, notify,
        Monitor.Log.empty, Request.response]
    · simp [Server.moves, Server.woken, wakeMoves, hwait, Monitor.State.nextAll]
    · simp only [Server.condsAfter, hwait, eraseFront]
      rw [← hwait]
      exact (update_eq_self k s.conds).symm
  | cons w l =>
    obtain ⟨s', hcall, hsound, hmonitor, hconds, hkeeps⟩ :=
      h.wake hwait (eraseFront (w :: l)) (eraseFront_cores (w :: l))
    have hsignal : s.signal k =
        .ok (if (s.monitor.line w.mutex.offset).isEmpty then some w.coreId else none, s') := by
      simp only [Server.signal, hwait, hcall, bind, Except.bind, pure, Except.pure]
    have hcores : s.monitor.waiting k = w.coreId :: l.map CondWaiter.coreId := by
      change (s.conds k).waiting.map _ = _
      rw [hwait, map_cons]
    have hmoves : s.moves c (.condSignal k) = [.wake k w.mutex.offset] := by
      simp [Server.moves, Server.woken, wakeMoves, hwait]
    refine ⟨s', _, ?_, hsound, ?_, ?_, hkeeps, rfl⟩
    · simp only [Server.condSignal, require, hk, if_true, hsignal, bind, Except.bind, pure,
        Except.pure]
      simp only [hmoves, noteAll, Monitor.Log.append, Monitor.note_wake hcores,
        admitted, Monitor.Log.empty, append_nil]
      cases (s.monitor.line w.mutex.offset).isEmpty <;> rfl
    · rw [hmonitor, hmoves]
      rfl
    · rw [hconds]
      simp only [Server.condsAfter, hwait]

theorem Server.Sound.condBroadcast (h : s.Sound) (hk : k < s.numConds) (time : ℕ) :
    ∃ s' replies, s.condBroadcast c k time = .ok (s', replies) ∧
      s.Handled c time (.condBroadcast k) s' replies := by
  have hself : s.setWaiting k (s.conds k).waiting = s := by
    simp only [Server.setWaiting, update_eq_self]
  obtain ⟨s', hcall, hsound, hmonitor, hconds, hkeeps⟩ :=
    Server.Sound.wakeEach (s := s) (k := k) (l := (s.conds k).waiting) (hself.symm ▸ h)
  rw [hself] at hcall hmonitor
  refine ⟨s'.setWaiting k [], _, ?_, hsound, hmonitor, hconds, ⟨hkeeps.1, hkeeps.2⟩, rfl⟩
  simp only [Server.condBroadcast, Server.broadcast, require, hk, if_true, hcall, bind,
    Except.bind, pure, Except.pure]
  simp [Server.moves, Server.woken, Request.response]

/-- The handler of a message of a core that runs does not fail. -/
theorem Server.Sound.handle (h : s.Sound) (hrun : s.threads.status c = .running)
    (hreq : s.Admits c req) (time : ℕ) :
    ∃ s' replies, s.handle c time req = .ok (s', replies) ∧ s.Handled c time req s' replies := by
  have hc := h.idle_of_running hrun
  cases req with
  | mutexLock m => exact h.mutexLock hc hreq time
  | mutexUnlock m => exact h.mutexUnlock hc hreq.1 hreq.2 time
  | condWait k m => exact h.condWait hc hreq.1 hreq.2.1 hreq.2.2 time
  | condSignal k => exact h.condSignal hreq time
  | condBroadcast k => exact h.condBroadcast hreq time

/-! ### Runs -/

/-- A message that the server has handled. -/
structure Event (Core : Type) where
  before : Server Core
  core : Core
  time : ℕ
  request : Request
  replies : List (Core × Reply)
  after : Server Core

/-- The messages of a run come from cores whose thread runs, and satisfy `ok`. -/
inductive Server.Run (ok : Server Core → Core → Request → Prop) (numMutexes numConds : ℕ) :
    List (Event Core) → Server Core → Prop
  | start : Run ok numMutexes numConds [] (Server.initial numMutexes numConds)
  | step {trace : List (Event Core)} {s s' : Server Core} {replies : List (Core × Reply)}
      (h : Run ok numMutexes numConds trace s) (c : Core) (time : ℕ) (req : Request)
      (hrun : s.threads.status c = .running) (hreq : s.Admits c req) (hok : ok s c req)
      (hcall : s.handle c time req = .ok (s', replies)) :
      Run ok numMutexes numConds (trace ++ [⟨s, c, time, req, replies, s'⟩]) s'

theorem Server.Sound.initial (numMutexes numConds : ℕ) :
    (Server.initial numMutexes numConds : Server Core).Sound where
  owned _ _ := rfl
  threads c := ⟨.idle, Monitor.at_start c, fun _ ↦ rfl, fun hne ↦ absurd rfl hne⟩

/-- Assumes: a sound state. What is known of a handled message. -/
theorem Server.Sound.handled (h : s.Sound) (hrun : s.threads.status c = .running)
    (hreq : s.Admits c req) {time : ℕ} {replies : List (Core × Reply)}
    (hcall : s.handle c time req = .ok (s', replies)) : s.Handled c time req s' replies := by
  obtain ⟨s₁, replies₁, hcall₁, hhandled⟩ := h.handle hrun hreq time
  rw [hcall] at hcall₁
  obtain ⟨rfl, rfl⟩ := Prod.mk.inj (Except.ok.inj hcall₁)
  exact hhandled

theorem Server.Run.sound {numMutexes numConds : ℕ}
    {trace : List (Event Core)} (h : Server.Run ok numMutexes numConds trace s) : s.Sound := by
  induction h with
  | start => exact .initial numMutexes numConds
  | step h c time req hrun hreq hok hcall ih => exact (ih.handled hrun hreq hcall).sound

/-- Run the messages, each from a core whose thread runs, as long as they satisfy `ok`. -/
def Server.exec (s : Server Core) (ok : Server Core → Core → Request → Prop)
    [∀ s c req, Decidable (ok s c req)] :
    List (Core × ℕ × Request) → Option (List (Event Core) × Server Core)
  | [] => some ([], s)
  | (c, time, req) :: rest =>
    if s.threads.status c = .running ∧ s.Admits c req ∧ ok s c req then
      match s.handle c time req with
      | .ok (s', replies) => (s'.exec ok rest).map fun x ↦ (⟨s, c, time, req, replies, s'⟩ :: x.1, x.2)
      | .error _ => none
    else none

theorem exec_cons [∀ s c req, Decidable (ok s c req)]
    {time : ℕ} {rest : List (Core × ℕ × Request)} {trace : List (Event Core)}
    (h : s.exec ok ((c, time, req) :: rest) = some (trace, s')) :
    ∃ s₁ replies trace₁, s.threads.status c = .running ∧ s.Admits c req ∧ ok s c req ∧
      s.handle c time req = .ok (s₁, replies) ∧ s₁.exec ok rest = some (trace₁, s') ∧
      trace = ⟨s, c, time, req, replies, s₁⟩ :: trace₁ := by
  simp only [Server.exec] at h
  split_ifs at h with hok
  split at h
  · rename_i s₁ replies hcall
    obtain ⟨⟨trace₁, s₂⟩, hrest, heq⟩ := Option.map_eq_some_iff.mp h
    obtain ⟨rfl, rfl⟩ := Prod.mk.inj heq
    exact ⟨s₁, replies, trace₁, hok.1, hok.2.1, hok.2.2, hcall, hrest, rfl⟩
  · cases h

theorem Server.Run.exec
    [∀ s c req, Decidable (ok s c req)] {numMutexes numConds : ℕ} {trace trace' : List (Event Core)}
    {msgs : List (Core × ℕ × Request)}
    (h : Server.Run ok numMutexes numConds trace s) (hexec : s.exec ok msgs = some (trace', s')) :
    Server.Run ok numMutexes numConds (trace ++ trace') s' := by
  induction msgs generalizing trace s trace' with
  | nil =>
    obtain ⟨rfl, rfl⟩ := Prod.mk.inj (Option.some.inj hexec)
    rw [append_nil]
    exact h
  | cons x msgs ih =>
    obtain ⟨c, time, req⟩ := x
    obtain ⟨s₁, replies, trace₁, hrun, hreq, hok, hcall, hrest, rfl⟩ := exec_cons hexec
    have hstep := ih (h.step c time req hrun hreq hok hcall) hrest
    rw [append_assoc] at hstep
    exact hstep

end CarbonSim.Sync
