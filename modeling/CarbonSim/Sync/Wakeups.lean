import CarbonSim.Sync.Lines
import Mathlib.Algebra.GroupWithZero.Nat
import Mathlib.Data.List.Nodup

/-!
# Whose mutex a woken core takes

A waiter list that is filled by waits holds the cores with the mutexes they passed. Removing its
front moves the cores up by one place and leaves the mutexes where they are, so the pairs are kept
if and only if all waiters passed the same mutex. In that case, and in no other, every mix of
signals and broadcasts puts each woken core in the line of its own mutex.
-/

namespace CarbonSim.Sync

open List Function Server

open Monitor (At Place coresAt)

variable {Core : Type} {s s' : Server Core} {c : Core} {k m : ℕ}
  {ws : List (Core × ℕ)} {l : List (CondWaiter Core)} {w : CondWaiter Core}

/-! ### The waiter list -/

def CondWaiter.pair (w : CondWaiter Core) : Core × ℕ := (w.coreId, w.mutex.offset)

open CondWaiter (pair)

/-- The pairs of the waiters that are left are those that were behind the front if and only if all
waiters have the same mutex. -/
theorem eraseFront_pairs_iff (l : List (CondWaiter Core)) :
    (eraseFront l).map pair = (l.map pair).tail ↔ ∀ a ∈ l, ∀ b ∈ l, a.mutex = b.mutex := by
  induction l using eraseFront.induct with
  | case1 | case2 a => simp [eraseFront]
  | case3 a b rest ih =>
    have hhead : (a.assign b).pair = b.pair ↔ a.mutex = b.mutex := by
      cases ha : a.mutex
      cases hb : b.mutex
      simp [CondWaiter.assign, pair, StableIterator.assign, ha, hb]
    rw [eraseFront, map_cons, map_cons, tail_cons, map_cons, List.cons.injEq, hhead]
    rw [map_cons, tail_cons] at ih
    rw [ih]
    constructor
    · rintro ⟨hab, hall⟩ x hx y hy
      have hb (z : CondWaiter Core) (hz : z ∈ a :: b :: rest) : z.mutex = b.mutex := by
        rcases mem_cons.mp hz with rfl | hz
        · exact hab
        · exact hall z hz b mem_cons_self
      exact (hb x hx).trans (hb y hy).symm
    · intro hall
      constructor
      · exact hall a mem_cons_self b (mem_cons_of_mem _ mem_cons_self)
      · intro x hx y hy
        exact hall x (mem_cons_of_mem _ hx) y (mem_cons_of_mem _ hy)

/-- The waiter that is in front after a removal has the mutex of the one that was removed. -/
theorem eraseFront_cons_mutex {a b : CondWaiter Core} {rest l : List (CondWaiter Core)}
    (h : eraseFront (a :: l) = b :: rest) : b.mutex = a.mutex := by
  cases l with
  | nil => simp [eraseFront] at h
  | cons x l =>
    rw [eraseFront, List.cons.injEq] at h
    rw [← h.1]
    rfl

/-- The wait on condition variable `k` in a message of core `c`. -/
def Request.waitOn (k : ℕ) (c : Core) : Request → List (Core × ℕ)
  | .condWait k' m => if k' = k then [(c, m)] else []
  | _ => []

/-- The message wakes cores that wait on `k`. -/
def Request.Wakes (k : ℕ) : Request → Prop
  | .condSignal k' => k' = k
  | .condBroadcast k' => k' = k
  | _ => False

inductive Wake
  | signal
  | broadcast
  deriving DecidableEq, Repr

def Wake.request (k : ℕ) : Wake → Request
  | .signal => .condSignal k
  | .broadcast => .condBroadcast k

/-- A wait adds the core and its mutex at the end of the list. -/
theorem condsAfter_pairs (s : Server Core) (c : Core) (time : ℕ) {req : Request}
    (hwakes : ¬ req.Wakes k) :
    (s.condsAfter c time req k).waiting.map pair =
      (s.conds k).waiting.map pair ++ req.waitOn k c := by
  cases req with
  | mutexLock m | mutexUnlock m => simp [condsAfter, Request.waitOn]
  | condWait k' m =>
    by_cases hk : k' = k
    · subst hk
      simp [condsAfter, Request.waitOn, pair]
    · simp [condsAfter, Request.waitOn, update_of_ne (Ne.symm hk), hk]
  | condSignal k' | condBroadcast k' =>
    simp [condsAfter, Request.waitOn, update_of_ne (Ne.symm hwakes)]

theorem wakeMoves_eq (k : ℕ) (l : List (CondWaiter Core)) :
    wakeMoves k l = (l.map pair).map fun x ↦ .wake k x.2 := by
  simp [wakeMoves, pair]

theorem map_fst_pairs (l : List (CondWaiter Core)) :
    (l.map pair).map Prod.fst = l.map CondWaiter.coreId := by
  simp [pair]

theorem moves_request (s : Server Core) (c : Core) (k : ℕ) (wake : Wake) :
    s.moves c (wake.request k) = wakeMoves k (s.woken (wake.request k)) := by
  cases wake <;> rfl

theorem woken_initial (s : Server Core) (k : ℕ) (wake : Wake) :
    s.woken (wake.request k) <+: (s.conds k).waiting := by
  cases wake with
  | signal => exact take_prefix _ _
  | broadcast => exact prefix_rfl

theorem count_pair [DecidableEq Core] {ws : List (Core × ℕ)} (hnodup : (ws.map Prod.fst).Nodup)
    {x : Core × ℕ} (hx : x ∈ ws) (m : ℕ) : ws.count (x.1, m) = if m = x.2 then 1 else 0 := by
  split_ifs with hm
  · subst hm
    exact count_eq_one_of_mem hnodup.of_map hx
  · rw [count_eq_zero]
    intro hmem
    have heq := inj_on_of_nodup_map hnodup hmem hx rfl
    exact hm (congrArg Prod.snd heq)

theorem same_mutex_iff (l : List (CondWaiter Core)) :
    (∀ a ∈ l, ∀ b ∈ l, a.mutex = b.mutex) ↔ ∀ x ∈ l.map pair, ∀ y ∈ l.map pair, x.2 = y.2 := by
  constructor
  · intro hsame x hx y hy
    obtain ⟨a, ha, rfl⟩ := mem_map.mp hx
    obtain ⟨b, hb, rfl⟩ := mem_map.mp hy
    exact congrArg StableIterator.offset (hsame a ha b hb)
  · intro hsame a ha b hb
    have hoffset := hsame _ (mem_map_of_mem ha) _ (mem_map_of_mem hb)
    cases hma : a.mutex
    cases hmb : b.mutex
    simpa [pair, hma, hmb] using hoffset

/-! ### Waits, then signals and broadcasts -/

variable [DecidableEq Core]

/-- Since a moment in which no core waited on `k` the cores and mutexes of the waits on `k` are
`ws`, and there was no signal or broadcast on `k`. -/
inductive Gathers (k : ℕ) : List (Core × ℕ) → Server Core → Prop
  | start {numMutexes numConds : ℕ} {trace : List (Event Core)} {s : Server Core}
      (h : Server.Run (fun _ _ _ ↦ True) numMutexes numConds trace s)
      (hnone : (s.conds k).waiting = []) : Gathers k [] s
  | step {ws : List (Core × ℕ)} {s s' : Server Core} {replies : List (Core × Reply)}
      (h : Gathers k ws s) (c : Core) (time : ℕ) (req : Request)
      (hrun : s.threads.status c = .running) (hreq : s.Admits c req) (hwakes : ¬ req.Wakes k)
      (hcall : s.handle c time req = .ok (s', replies)) :
      Gathers k (ws ++ req.waitOn k c) s'

/-- Between the two states the core has entered the line of the mutex, as its owner or behind it,
and no other line. -/
def Rejoins (s s' : Server Core) (c : Core) (m : ℕ) : Prop :=
  ∀ m', (s'.mutexes m').line.count c = (s.mutexes m').line.count c + if m' = m then 1 else 0

/-- The handlers of the signals and broadcasts return, and each core that one of them wakes rejoins
the mutex that it passed. -/
def OwnMutex (k : ℕ) (ws : List (Core × ℕ)) : Server Core → List (Core × ℕ × Wake) → Prop
  | _, [] => True
  | s, (c, time, wake) :: mix =>
    match s.handle c time (wake.request k) with
    | .error _ => False
    | .ok (s', _) =>
      (∀ x ∈ ws, x.1 ∈ (s.woken (wake.request k)).map CondWaiter.coreId →
        Rejoins s s' x.1 x.2) ∧ OwnMutex k ws s' mix

theorem Gathers.sound (h : Gathers k ws s) : s.Sound := by
  induction h with
  | start h hnone => exact h.sound
  | step h c time req hrun hreq hwakes hcall ih => exact (ih.handled hrun hreq hcall).sound

/-- The waiter list is the list of the waits. -/
theorem Gathers.pairs_eq (h : Gathers k ws s) :
    (s.conds k).waiting.map pair = ws := by
  induction h with
  | start h hnone => rw [hnone]; rfl
  | step h c time req hrun hreq hwakes hcall ih =>
    rw [(h.sound.handled hrun hreq hcall).conds_eq, condsAfter_pairs _ _ _ hwakes, ih]

/-! ### Rejoining -/

/-- The handler of a signal or broadcast, whoever sends it. -/
theorem Server.Sound.handleWake (h : s.Sound) (hk : k < s.numConds) (c : Core) (time : ℕ)
    (wake : Wake) : ∃ s' replies, s.handle c time (wake.request k) = .ok (s', replies) ∧
      s.Handled c time (wake.request k) s' replies := by
  cases wake with
  | signal => exact h.condSignal hk time
  | broadcast => exact h.condBroadcast hk time

/-- No core waits twice on a condition variable. -/
theorem Server.Sound.nodup_waiting (h : s.Sound) (k : ℕ) : (s.monitor.waiting k).Nodup := by
  rw [nodup_iff_count_le_one]
  intro c
  obtain ⟨p, hat, -⟩ := h.threads c
  rw [hat.waiting k]
  cases p with
  | idle | queued m => exact Nat.zero_le 1
  | waiting k' =>
    simp only [Place.onCond]
    split_ifs <;> omega

/-- Each woken core enters the line of the mutex that its waiter holds. -/
theorem Server.Sound.rejoins (h : s.Sound) {wake : Wake} {time : ℕ} {replies : List (Core × Reply)}
    (hs' : s.Handled c time (wake.request k) s' replies)
    (hw : w ∈ s.woken (wake.request k)) : Rejoins s s' w.coreId w.mutex.offset := by
  intro m
  obtain ⟨rest, hrest⟩ := woken_initial s k wake
  have hwaiting : s.monitor.waiting k = ((s.woken (wake.request k)).map pair).map Prod.fst ++
        rest.map CondWaiter.coreId := by
    change (s.conds k).waiting.map _ = _
    rw [map_fst_pairs, ← map_append, hrest]
  have hline : (s'.mutexes m).line = (s.mutexes m).line ++
      coresAt m ((s.woken (wake.request k)).map pair) := by
    change s'.monitor.line m = _
    rw [hs'.monitor_eq, moves_request, wakeMoves_eq, Monitor.line_wakes _ hwaiting]
    rfl
  have hnodup : (((s.woken (wake.request k)).map pair).map Prod.fst).Nodup := by
    have hall := h.nodup_waiting k
    rw [hwaiting] at hall
    exact (nodup_append.mp hall).1
  rw [hline, count_append, Monitor.count_coresAt]
  congr 1
  exact count_pair hnodup (mem_map_of_mem hw) m

theorem Rejoins.unique {m m' : ℕ} (h : Rejoins s s' c m) (h' : Rejoins s s' c m') : m = m' := by
  by_contra hne
  have hm := h m
  rw [h' m, if_pos rfl, if_neg hne] at hm
  omega

/-! ### Mixes of signals and broadcasts -/

/-- If all waiters passed mutex `m`, each woken core rejoins it. -/
theorem Server.Sound.ownMutex (h : s.Sound) (hk : k < s.numConds)
    (hsame : ∀ x ∈ ws, x.2 = m) (hwait : ∀ w ∈ (s.conds k).waiting, w.mutex.offset = m)
    (mix : List (Core × ℕ × Wake)) : OwnMutex k ws s mix := by
  induction mix generalizing s with
  | nil => trivial
  | cons x mix ih =>
    obtain ⟨c, time, wake⟩ := x
    obtain ⟨s', replies, hcall, hs'⟩ := h.handleWake hk c time wake
    unfold OwnMutex
    rw [hcall]
    constructor
    · intro x hx hmem
      obtain ⟨w, hw, hcore⟩ := mem_map.mp hmem
      have hmutex := hwait w ((woken_initial s k wake).mem hw)
      rw [← hcore, hsame x hx, ← hmutex]
      exact h.rejoins hs' hw
    · apply ih hs'.sound (hs'.keeps.numConds ▸ hk)
      -- the waiters that are left are among those that were there
      rw [hs'.conds_eq]
      have hoffset (a b : CondWaiter Core) (ha : a ∈ (s.conds k).waiting)
          (hb : b ∈ (s.conds k).waiting) : a.mutex = b.mutex := by
        cases hma : a.mutex
        cases hmb : b.mutex
        have hab := (hwait a ha).trans (hwait b hb).symm
        rw [hma, hmb] at hab
        exact congrArg StableIterator.mk hab
      intro w hw
      cases wake with
      | signal =>
        simp only [Wake.request, condsAfter, update_self] at hw
        have hpairs := (eraseFront_pairs_iff _).mpr fun a ha b hb ↦ hoffset a b ha hb
        have hmem : w.pair ∈ ((s.conds k).waiting.map pair).tail := by
          rw [← hpairs]
          exact mem_map_of_mem hw
        obtain ⟨w', hw', heq⟩ := mem_map.mp (mem_of_mem_tail hmem)
        rw [← hwait w' hw']
        exact congrArg Prod.snd heq.symm
      | broadcast => simp [Wake.request, condsAfter] at hw

/-- If the front waiter rejoins the mutex that it passed, that is the one its waiter holds. -/
theorem Server.Sound.front_of_ownMutex (h : s.Sound) (hk : k < s.numConds) (c : Core)
    (hown : ∀ mix, OwnMutex k ws s mix)
    (hwait : (s.conds k).waiting = w :: l) {x : Core × ℕ} (hx : x ∈ ws) (hcore : x.1 = w.coreId) :
    x.2 = w.mutex.offset := by
  obtain ⟨s', replies, hcall, hs'⟩ := h.handleWake hk c 0 .signal
  have hsignal := hown [(c, 0, .signal)]
  unfold OwnMutex at hsignal
  rw [hcall] at hsignal
  have hw : w ∈ s.woken (Wake.signal.request k) := by
    simp [Wake.request, woken, hwait]
  have hown' := hsignal.1 x hx (hcore ▸ mem_map_of_mem hw)
  rw [hcore] at hown'
  exact hown'.unique (h.rejoins hs' hw)

/-- If each woken core rejoins the mutex that it passed, that is the mutex of the front waiter. -/
theorem Server.Sound.same_of_ownMutex (h : s.Sound) (hk : k < s.numConds) (c : Core)
    (hown : ∀ mix, OwnMutex k ws s mix)
    (hwait : (s.conds k).waiting = w :: l) :
    ∀ x ∈ ws, x.1 ∈ (w :: l).map CondWaiter.coreId → x.2 = w.mutex.offset := by
  induction hn : l.length generalizing s w l with
  | zero =>
    obtain rfl := length_eq_zero_iff.mp hn
    intro x hx hmem
    rw [map_singleton, mem_singleton] at hmem
    exact h.front_of_ownMutex hk c hown hwait hx hmem
  | succ n ih =>
    intro x hx hmem
    obtain hfront | hrest := mem_cons.mp hmem
    · exact h.front_of_ownMutex hk c hown hwait hx hfront
    · -- a signal brings the next core to the front and leaves the mutex there
      obtain ⟨s', replies, hcall, hs'⟩ := h.handleWake hk c 0 .signal
      have hown' (mix : List (Core × ℕ × Wake)) : OwnMutex k ws s' mix := by
        have hmix := hown ((c, 0, .signal) :: mix)
        unfold OwnMutex at hmix
        rw [hcall] at hmix
        exact hmix.2
      have hwait' : (s'.conds k).waiting = eraseFront (w :: l) := by
        rw [hs'.conds_eq]
        simp [Wake.request, condsAfter, hwait]
      have hcores := eraseFront_cores (w :: l)
      rw [tail_cons] at hcores
      cases herase : eraseFront (w :: l) with
      | nil =>
        rw [herase] at hcores
        rw [← hcores] at hrest
        simp at hrest
      | cons b rest =>
        rw [herase] at hcores hwait'
        have hlength : rest.length = n := by
          have hlen := congrArg List.length hcores
          simp only [length_map, length_cons] at hlen
          omega
        rw [← hcores] at hrest
        rw [ih hs'.sound (hs'.keeps.numConds ▸ hk) hown' hwait' hlength x hx hrest,
          eraseFront_cons_mutex herase]

/-- The waiter list holds each core with the mutex that it passed. Removing the front keeps the
pairs, and all mixes of signals and broadcasts put each woken core in the line of its own mutex, if
and only if all waiters passed the same mutex. Assumes: waits on an existing condition variable. -/
theorem woken_own_mutex_iff (h : Gathers k ws s) (hk : k < s.numConds) :
    (s.conds k).waiting.map pair = ws ∧ ((eraseFront (s.conds k).waiting).map pair = ws.tail ↔
        ∀ x ∈ ws, ∀ y ∈ ws, x.2 = y.2) ∧
      ((∀ mix, OwnMutex k ws s mix) ↔ ∀ x ∈ ws, ∀ y ∈ ws, x.2 = y.2) := by
  have hpairs := h.pairs_eq
  refine ⟨hpairs, ?_, ?_⟩
  · rw [← hpairs, eraseFront_pairs_iff, same_mutex_iff]
  · constructor
    · intro hown x hx y hy
      cases hwait : (s.conds k).waiting with
      | nil =>
        rw [← hpairs, hwait] at hx
        cases hx
      | cons w l =>
        have hmutex (z : Core × ℕ) (hz : z ∈ ws) : z.2 = w.mutex.offset := by
          apply h.sound.same_of_ownMutex hk w.coreId hown hwait z hz
          rw [← hwait, ← map_fst_pairs, hpairs]
          exact mem_map_of_mem hz
        rw [hmutex x hx, hmutex y hy]
    · intro hsame mix
      cases hws : ws with
      | nil =>
        rw [hws, map_eq_nil_iff] at hpairs
        exact h.sound.ownMutex hk (m := 0) (by simp) (by simp [hpairs]) mix
      | cons z rest =>
        have hz : z ∈ ws := hws ▸ mem_cons_self
        rw [← hws]
        apply h.sound.ownMutex hk (m := z.2) (fun x hx ↦ hsame x hx z hz)
        intro w hw
        apply hsame w.pair _ z hz
        rw [← hpairs]
        exact mem_map_of_mem hw

/-! ### Two cores with different mutexes -/

instance (k : ℕ) (req : Request) : Decidable (req.Wakes k) :=
  match req with
  | .condSignal k' => inferInstanceAs (Decidable (k' = k))
  | .condBroadcast k' => inferInstanceAs (Decidable (k' = k))
  | .mutexLock _ => .isFalse id
  | .mutexUnlock _ => .isFalse id
  | .condWait _ _ => .isFalse id

theorem Gathers.exec {msgs : List (Core × ℕ × Request)} {trace : List (Event Core)}
    (h : Gathers k ws s) (hexec : s.exec (fun _ _ req ↦ ¬ req.Wakes k) msgs = some (trace, s')) :
    Gathers k (ws ++ msgs.flatMap fun x ↦ x.2.2.waitOn k x.1) s' := by
  induction msgs generalizing ws s trace with
  | nil =>
    obtain ⟨-, rfl⟩ := Prod.mk.inj (Option.some.inj hexec)
    simpa using h
  | cons x msgs ih =>
    obtain ⟨c, time, req⟩ := x
    obtain ⟨s₁, replies, trace₁, hrun, hreq, hwakes, hcall, hrest, -⟩ := exec_cons hexec
    have hstep := ih (h.step c time req hrun hreq hwakes hcall) hrest
    rw [append_assoc] at hstep
    exact hstep

/-- Cores 0 and 1 lock two mutexes and wait with them on one condition variable. -/
def waitWith {N : ℕ} [NeZero N] (m₀ m₁ : ℕ) : List (Fin N × ℕ × Request) :=
  [(0, 0, .mutexLock m₀), (0, 1, .condWait 0 m₀), (1, 2, .mutexLock m₁), (1, 3, .condWait 0 m₁)]

def waitersWith {N : ℕ} [NeZero N] (m₀ m₁ : ℕ) :
    Option (List (Event (Fin N)) × Server (Fin N)) :=
  (initial 2 1).exec (fun _ _ req ↦ ¬ req.Wakes 0) (waitWith m₀ m₁)

/-- With one mutex for both cores, every mix of signals and broadcasts puts them in its line. -/
theorem woken_own_mutex_iff_sameMutex : ∃ s : Server (Fin 3), Gathers 0 [(0, 0), (1, 0)] s ∧
    0 < s.numConds ∧ ∀ mix, OwnMutex 0 [(0, 0), (1, 0)] s mix := by
  have hconds : (waitersWith (N := 3) 0 0).map (fun x ↦ x.2.numConds) = some 1 := by decide
  obtain ⟨⟨trace, s⟩, hexec, hs⟩ := Option.map_eq_some_iff.mp hconds
  have hgathers : Gathers 0 [(0, 0), (1, 0)] s := Gathers.exec (.start .start rfl) hexec
  have hpos : 0 < s.numConds := by
    rw [show s.numConds = 1 from hs]
    exact Nat.one_pos
  exact ⟨s, hgathers, hpos, (woken_own_mutex_iff hgathers hpos).2.2.mpr (by simp)⟩

/-- With a mutex for each core, two signals put both cores in the line of the first mutex. -/
theorem foreign_mutex_twoSignals : ∃ s s' : Server (Fin 3), ∃ trace,
    Gathers 0 [(0, 0), (1, 1)] s ∧
    s.exec (fun _ _ _ ↦ True) [(2, 4, .condSignal 0), (2, 5, .condSignal 0)] = some (trace, s') ∧
    (s'.mutexes 0).line = [0, 1] ∧ (s'.mutexes 1).line = [] := by
  have hlines : (waitersWith (N := 3) 0 1).bind (fun x ↦
      (x.2.exec (fun _ _ _ ↦ True) [(2, 4, .condSignal 0), (2, 5, .condSignal 0)]).map fun y ↦
        ((y.2.mutexes 0).line, (y.2.mutexes 1).line)) = some ([0, 1], []) := by decide
  obtain ⟨⟨trace, s⟩, hexec, hsignals⟩ := Option.bind_eq_some_iff.mp hlines
  obtain ⟨⟨trace', s'⟩, hexec', heq⟩ := Option.map_eq_some_iff.mp hsignals
  obtain ⟨h₀, h₁⟩ := Prod.mk.inj heq
  exact ⟨s, s', trace', Gathers.exec (.start .start rfl) hexec, hexec', h₀, h₁⟩

end CarbonSim.Sync
