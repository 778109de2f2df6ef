import CarbonSim.Lib.Runs
import CarbonSim.Lib.ThreadPlaces
import Mathlib.Tactic.FinCases

/-!
# The condition variable

`ConditionVariable` has a lock of its own and a futex word that all its waiters share: `wait` clears the
word, gives up the caller's lock and sleeps if the word is still clear, `signal` and `broadcast` set the
word and wake sleepers. A waiter that has given up its lock and not yet made its futex call depends on
the word: it is lost to a wakeup if another waiter clears the word in between. The threads of a run take
turns statement by statement.
-/

namespace CarbonSim.Misc

open Function List

/-- Where a thread is: in none of the functions, or before the statement that the place is named after.
In `wait` the caller's lock is kept. `broadcast` differs from `signal` in the number of sleepers that it
wakes. -/
inductive CondPlace
  | outside
  | enterWait (lock : ℕ)
  | clearFutex (lock : ℕ)
  | leaveWait (lock : ℕ)
  | releaseLock (lock : ℕ)
  | futexWait (lock : ℕ)
  | asleep (lock : ℕ)
  | reacquire (lock : ℕ)
  | enterPost (all : Bool)
  | setFutex (all : Bool)
  | futexWake (all : Bool)
  | leavePost
  deriving DecidableEq, Repr

namespace CondPlace

/-- The places where `m_lock` is held. -/
def holds : CondPlace → Bool
  | .clearFutex _ | .leaveWait _ | .setFutex _ | .futexWake _ | .leavePost => true
  | _ => false

/-- The caller's lock has been given up and the futex call not yet made. -/
def calling : CondPlace → Bool
  | .futexWait _ => true
  | _ => false

def sleeping : CondPlace → Bool
  | .asleep _ => true
  | _ => false

/-- The threads that a call finds inside `wait` without their lock; a `signal` is for those that have not
been woken. -/
def found (all : Bool) : CondPlace → Bool
  | .futexWait _ | .asleep _ => true
  | .reacquire _ => all
  | _ => false

def clearing : CondPlace → Bool
  | .clearFutex _ => true
  | _ => false

def releasing : CondPlace → Bool
  | .releaseLock _ => true
  | _ => false

/-- In `signal` or `broadcast`, before FUTEX_WAKE has returned. -/
def post : CondPlace → Option Bool
  | .enterPost all | .setFutex all | .futexWake all => some all
  | _ => none

/-- In `signal`, before it has set the futex word. -/
def signalling : CondPlace → Bool
  | .enterPost false | .setFutex false => true
  | _ => false

end CondPlace

/-- The members of the condition variable, the locks of its callers, and where each thread is. Beside
them, the number of times that each thread has given up its lock in `wait`; the threads that the call of
each thread found inside `wait`, with that number; and the calls whose FUTEX_WAKE has returned. -/
structure CondState (n : ℕ) where
  futx : ℤ
  mLock : Option (Fin n)
  locks : ℕ → Option (Fin n)
  place : Fin n → CondPlace
  turn : Fin n → ℕ
  record : Fin n → Fin n → Option ℕ
  log : List (Bool × (Fin n → Option ℕ))

/-- A thread takes or gives up a lock, calls a function, goes on by one statement, or is interrupted in
its sleep. FUTEX_WAKE for one sleeper wakes any of them. -/
inductive CondEvent (n : ℕ)
  | acquire (t : Fin n) (lock : ℕ)
  | release (t : Fin n) (lock : ℕ)
  | callWait (t : Fin n) (lock : ℕ)
  | callPost (t : Fin n) (all : Bool)
  | run (t woken : Fin n)
  | interrupt (t : Fin n)
  deriving DecidableEq

namespace CondState

variable {n : ℕ} {p : CondPlace} {all : Bool}

def start (n : ℕ) : CondState n :=
  ⟨0, none, fun _ ↦ none, fun _ ↦ .outside, fun _ ↦ 0, fun _ _ ↦ none, []⟩

variable (s : CondState n)

def goTo (t : Fin n) (p : CondPlace) : CondState n :=
  { s with place := update s.place t p }

def setLock (lock : ℕ) (owner : Option (Fin n)) : CondState n :=
  { s with locks := update s.locks lock owner }

/-- `m_lock.acquire()`. -/
def enter (t : Fin n) (p : CondPlace) : Except Unit (CondState n) := do
  require (s.mLock = none) ()
  return { s.goTo t p with mLock := some t }

/-- `m_lock.release()`. -/
def leave (t : Fin n) (p : CondPlace) : CondState n :=
  { s.goTo t p with mLock := none }

/-- `lock.release()` in `wait`. -/
def giveUp (t : Fin n) (lock : ℕ) : CondState n :=
  { (s.setLock lock none).goTo t (.futexWait lock) with
    turn := update s.turn t (s.turn t + 1) }

/-- The threads that a call finds inside `wait`. -/
def finds (all : Bool) (u : Fin n) : Option ℕ :=
  if (s.place u).found all = true then some (s.turn u) else none

/-- A sleeper returns from FUTEX_WAIT. -/
def rouse : CondPlace → CondPlace
  | .asleep lock => .reacquire lock
  | p => p

/-- The call of a thread has woken whom it wakes. -/
def finish (t : Fin n) (all : Bool) : CondState n :=
  { s.goTo t .leavePost with log := (all, s.record t) :: s.log }

/-- FUTEX_WAKE of all sleepers, or of one if there is one. -/
def wake (t woken : Fin n) (all : Bool) : Except Unit (CondState n) :=
  if all = true then return CondState.finish { s with place := fun u ↦ rouse (s.place u) } t all
  else if ∀ u, (s.place u).sleeping = false then return s.finish t all
  else do
    require ((s.place woken).sleeping = true) ()
    return (s.goTo woken (rouse (s.place woken))).finish t all

/-- The next statement of a thread. -/
def run (t woken : Fin n) : Except Unit (CondState n) :=
  match s.place t with
  | .outside | .asleep _ => .error ()
  | .enterWait lock => s.enter t (.clearFutex lock)
  | .clearFutex lock => return { s.goTo t (.leaveWait lock) with futx := 0 }
  | .leaveWait lock => return s.leave t (.releaseLock lock)
  | .releaseLock lock => return s.giveUp t lock
  | .futexWait lock => return s.goTo t (if s.futx = 0 then .asleep lock else .reacquire lock)
  | .reacquire lock => do
    require (s.locks lock = none) ()
    return (s.setLock lock (some t)).goTo t .outside
  | .enterPost all => s.enter t (.setFutex all)
  | .setFutex all => return { s.goTo t (.futexWake all) with futx := 1 }
  | .futexWake all => s.wake t woken all
  | .leavePost => return s.leave t .outside

def step : CondEvent n → Except Unit (CondState n)
  | .acquire t lock => do
    require (s.place t = .outside ∧ s.locks lock = none) ()
    return s.setLock lock (some t)
  | .release t lock => do
    require (s.place t = .outside ∧ s.locks lock = some t) ()
    return s.setLock lock none
  | .callWait t lock => do
    require (s.place t = .outside ∧ s.locks lock = some t) ()
    return s.goTo t (.enterWait lock)
  | .callPost t all => do
    require (s.place t = .outside) ()
    return { s.goTo t (.enterPost all) with record := update s.record t (s.finds all) }
  | .run t woken => s.run t woken
  | .interrupt t => do
    require ((s.place t).sleeping = true) ()
    return s.goTo t (rouse (s.place t))

/-- No waiter clears the futex word when it has been set and another waiter is about to look at it; and,
if `strict`, none gives up its lock while a `signal` has been called and has not set the word. -/
def Meets (strict : Bool) (s : CondState n) : CondEvent n → Prop
  | .run t _ =>
    ((s.place t).clearing = true → s.futx = 1 → ∀ u, (s.place u).calling = false) ∧
    (strict = true → (s.place t).releasing = true → ∀ u, (s.place u).signalling = false)
  | _ => True

instance decidableMeets (strict : Bool) (s : CondState n) (e : CondEvent n) :
    Decidable (s.Meets strict e) :=
  match e with
  | .run t _ => inferInstanceAs (Decidable (
    ((s.place t).clearing = true → s.futx = 1 → ∀ u, (s.place u).calling = false) ∧
    (strict = true → (s.place t).releasing = true → ∀ u, (s.place u).signalling = false)))
  | .acquire _ _ | .release _ _ | .callWait _ _ | .callPost _ _ | .interrupt _ =>
    inferInstanceAs (Decidable True)

def machine (n : ℕ) : Machine (CondState n) (CondEvent n) Unit where
  start := start n
  step := step

def Reached (strict : Bool) (s : CondState n) : Prop := (machine n).Reached (Meets strict) s

/-- The thread does not sleep, now or later, in the wait in which it gave up its lock for the `k`th
time. -/
def Safe (t : Fin n) (k : ℕ) : Prop :=
  s.turn t = k → (s.place t).sleeping = false ∧ ((s.place t).calling = true → s.futx = 1)

structure Inv (strict : Bool) (s : CondState n) : Prop where
  lock : Exclusive CondPlace.holds s.place s.mLock
  announced : ∀ t all, s.place t = .futexWake all → s.futx = 1
  current : ∀ b t k, s.record b t = some k → k ≤ s.turn t
  past : ∀ x ∈ s.log, ∀ t k, x.2 t = some k → k ≤ s.turn t
  broadcast : ∀ found, (true, found) ∈ s.log → ∀ t k, found t = some k → s.Safe t k
  signal : strict = true → ∀ found, (false, found) ∈ s.log → (∃ t, (found t).isSome = true) →
    ∃ t k, found t = some k ∧ s.Safe t k
  early : strict = true → ∀ b, (s.place b).signalling = true → ∀ t,
    (s.place t).found false = true → s.record b t = some (s.turn t)
  late : strict = true → ∀ b, s.place b = .futexWake false → ∀ t, (s.place t).sleeping = true →
    s.record b t = some (s.turn t)

variable {strict : Bool} {s s' : CondState n} {t : Fin n}

theorem inv_start : Inv strict (start n) where
  lock _ := ⟨fun h ↦ (nomatch h), fun h ↦ (nomatch h)⟩
  announced _ _ h := nomatch h
  current _ _ _ h := nomatch h
  past _ h := absurd h not_mem_nil
  broadcast _ h := absurd h not_mem_nil
  signal _ _ h := absurd h not_mem_nil
  early _ _ h := nomatch h
  late _ _ h := nomatch h

theorem found_of_sleeping (h : p.sleeping = true) : p.found false = true := by
  cases p <;> first | rfl | cases h

theorem found_of_calling (h : p.calling = true) : p.found false = true := by
  cases p <;> first | rfl | cases h

theorem found_false (h : p.found false = true) :
    p.calling = true ∨ p.sleeping = true := by
  cases p <;> first | exact .inl rfl | exact .inr rfl | cases h

/-- The threads at their places, when one has moved. -/
theorem place_goTo (s : CondState n) (t : Fin n) (p : CondPlace) {P : Fin n → CondPlace → Prop}
    (hself : P t p) (hothers : ∀ u, u ≠ t → P u (s.place u)) (u : Fin n) :
    P u (update s.place t p u) := by
  by_cases hu : u = t
  · subst hu
    rw [update_self]
    exact hself
  · rw [update_of_ne hu]
    exact hothers u hu

/-- A kind of place at which a thread arrives only from places of that kind. -/
theorem kind_of_goTo (kind : CondPlace → Bool) {u : Fin n}
    (hu : kind (update s.place t p u) = true)
    (hp : kind p = true → kind (s.place t) = true) : kind (s.place u) = true :=
  place_goTo s t p (P := fun v q ↦ kind q = true → kind (s.place v) = true) hp (fun _ _ h ↦ h) u hu

theorem Inv.announced_goTo (h : Inv strict s) (hp : ∀ all, p ≠ .futexWake all)
    (u : Fin n) (all : Bool) (hu : update s.place t p u = .futexWake all) : s.futx = 1 :=
  place_goTo s t p (P := fun _ q ↦ ∀ all, q = .futexWake all → s.futx = 1)
    (fun all heq ↦ absurd heq (hp all)) (fun u _ ↦ h.announced u) u all hu

/-- What the calls have achieved remains, if the threads that were safe still are. -/
theorem Inv.achieved (h : Inv strict s) (hsafe : ∀ u k, k ≤ s.turn u → s.Safe u k → s'.Safe u k) :
    (∀ found, (true, found) ∈ s.log → ∀ t k, found t = some k → s'.Safe t k) ∧
    (strict = true → ∀ found, (false, found) ∈ s.log → (∃ t, (found t).isSome = true) →
      ∃ t k, found t = some k ∧ s'.Safe t k) := by
  refine ⟨fun found hmem u k hk ↦ ?_, fun hstrict found hmem hsome ↦ ?_⟩
  · exact hsafe u k (h.past _ hmem u k hk) (h.broadcast found hmem u k hk)
  · obtain ⟨u, k, hk, hold⟩ := h.signal hstrict found hmem hsome
    exact ⟨u, k, hk, hsafe u k (h.past _ hmem u k hk) hold⟩

/-- A thread that moves falls asleep only as FUTEX_WAIT lets it, and enters no call. -/
structure Harmless (s : CondState n) (t : Fin n) (p : CondPlace) : Prop where
  wakes : ∀ all, p ≠ .futexWake all
  calling : p.calling = true → (s.place t).calling = true
  sleeping : p.sleeping = true →
    (s.place t).sleeping = true ∨ (s.place t).calling = true ∧ s.futx = 0
  signalling : p.signalling = true → (s.place t).signalling = true

theorem Harmless.safe (h : Harmless s t p) {u : Fin n} {k : ℕ}
    (hsafe : s.Safe u k) : (s.goTo t p).Safe u k := by
  intro hturn
  obtain ⟨hawake, hset⟩ := hsafe hturn
  refine place_goTo s t p (P := fun v q ↦ v = u →
    q.sleeping = false ∧ (q.calling = true → s.futx = 1)) ?_ ?_ u rfl
  · rintro rfl
    refine ⟨Bool.eq_false_iff.mpr fun hsleep ↦ ?_, fun hcall ↦ hset (h.calling hcall)⟩
    rcases h.sleeping hsleep with hold | ⟨hcall, hclear⟩
    · rw [hawake] at hold
      cases hold
    · have hone := hset hcall
      omega
  · rintro v - rfl
    exact ⟨hawake, hset⟩

theorem Harmless.found (h : Harmless s t p) (hfound : p.found false = true) :
    (s.place t).found false = true := by
  rcases found_false hfound with hcall | hsleep
  · exact found_of_calling (h.calling hcall)
  · rcases h.sleeping hsleep with hold | hold
    · exact found_of_sleeping hold
    · exact found_of_calling hold.1

/-- A move that is harmless keeps the invariant, whatever becomes of the locks. -/
theorem Inv.move (h : Inv strict s) {mLock : Option (Fin n)}
    {locks : ℕ → Option (Fin n)} (hlock : Exclusive CondPlace.holds (update s.place t p) mLock)
    (hp : Harmless s t p) : Inv strict { s.goTo t p with mLock := mLock, locks := locks } where
  lock := hlock
  announced := h.announced_goTo hp.wakes
  current := h.current
  past := h.past
  broadcast := (h.achieved fun _ _ _ hold ↦ hp.safe hold).1
  signal := (h.achieved fun _ _ _ hold ↦ hp.safe hold).2
  early hstrict b hb u hu :=
    h.early hstrict b (kind_of_goTo _ hb hp.signalling) u (kind_of_goTo _ hu hp.found)
  late hstrict b hb u hu := by
    have hb' : s.place b = .futexWake false := by
      revert hb
      exact place_goTo s t p (P := fun v q ↦ q = .futexWake false → s.place v = .futexWake false)
        (fun heq ↦ absurd heq (hp.wakes false)) (fun _ _ h ↦ h) b
    have hset := h.announced b false hb'
    have hu' : (s.place u).sleeping = true := by
      refine kind_of_goTo _ hu fun hsleep ↦ ?_
      rcases hp.sleeping hsleep with hold | ⟨-, hclear⟩
      · exact hold
      · omega
    exact h.late hstrict b hb' u hu'

/-- A place outside of the calls and of the sleep is harmless. -/
theorem harmless_of_quiet (hwakes : ∀ all, p ≠ .futexWake all)
    (hcalling : p.calling = false) (hsleeping : p.sleeping = false)
    (hsignalling : p.signalling = true → (s.place t).signalling = true) : Harmless s t p where
  wakes := hwakes
  calling hcall := by
    rw [hcalling] at hcall
    cases hcall
  sleeping hsleep := by
    rw [hsleeping] at hsleep
    cases hsleep
  signalling := hsignalling

section

variable (h : Inv strict s)

include h

/-- While a thread holds `m_lock`, no other thread wakes sleepers. -/
theorem Inv.wakes_alone (hheld : (s.place t).holds = true) {b : Fin n}
    (hb : s.place b = .futexWake all) : b = t :=
  h.lock.alone hheld (by rw [hb]; rfl)

/-- The futex word is cleared when no thread relies on it. -/
theorem Inv.clearFutex {lock : ℕ} (hplace : s.place t = .clearFutex lock)
    (hunused : s.futx = 1 → ∀ u, (s.place u).calling = false) :
    Inv strict { s.goTo t (.leaveWait lock) with futx := 0 } := by
  have hharmless : Harmless s t (.leaveWait lock) :=
    harmless_of_quiet (fun _ ↦ nofun) rfl rfl fun h ↦ (nomatch h)
  have hmove : Inv strict (s.goTo t (.leaveWait lock)) :=
    h.move (h.lock.kept (by rw [hplace]; rfl)) hharmless
  have hnone : ∀ b all, (s.goTo t (.leaveWait lock)).place b ≠ .futexWake all := by
    intro b all hb
    have heq := hmove.wakes_alone (t := t) (by
      show (update s.place t _ t).holds = true
      rw [update_self]
      rfl) hb
    subst heq
    have hself : (s.goTo b (.leaveWait lock)).place b = .leaveWait lock := update_self ..
    rw [hself] at hb
    cases hb
  -- a thread that is about to look at the word does not rely on its being set
  have hsafe : ∀ u k, k ≤ s.turn u → s.Safe u k →
      CondState.Safe { s.goTo t (.leaveWait lock) with futx := 0 } u k := by
    intro u k _ hold hturn
    obtain ⟨hawake, -⟩ := hharmless.safe hold hturn
    refine ⟨hawake, fun hcall ↦ ?_⟩
    have hcall' : (s.place u).calling = true := kind_of_goTo CondPlace.calling hcall fun h ↦ (nomatch h)
    have hclear := hunused ((hold hturn).2 hcall') u
    rw [hclear] at hcall'
    cases hcall'
  obtain ⟨hbroadcast, hsignal⟩ := h.achieved hsafe
  exact ⟨hmove.lock, fun b all hb ↦ absurd hb (hnone b all), h.current, h.past, hbroadcast, hsignal,
    hmove.early, fun _ b hb ↦ absurd hb (hnone b false)⟩

/-- A waiter gives up its lock: a new turn of it begins. -/
theorem Inv.giveUp {lock : ℕ} (hplace : s.place t = .releaseLock lock)
    (hsignal : strict = true → ∀ u, (s.place u).signalling = false) :
    Inv strict (s.giveUp t lock) := by
  have hturn : ∀ u, s.turn u ≤ (s.giveUp t lock).turn u := by
    intro u
    show s.turn u ≤ update s.turn t (s.turn t + 1) u
    rw [update_apply]
    split_ifs with hu
    · rw [hu]
      exact Nat.le_succ _
    · exact Nat.le_refl _
  have hother : ∀ u, u ≠ t → (s.giveUp t lock).place u = s.place u ∧
      (s.giveUp t lock).turn u = s.turn u :=
    fun u hu ↦ ⟨update_of_ne hu .., update_of_ne hu ..⟩
  have hself : (s.giveUp t lock).place t = .futexWait lock := update_self ..
  have hself' : (s.giveUp t lock).turn t = s.turn t + 1 := update_self ..
  have hsafe : ∀ u k, k ≤ s.turn u → s.Safe u k → (s.giveUp t lock).Safe u k := by
    intro u k hle hold heq
    by_cases hu : u = t
    · subst hu
      omega
    · obtain ⟨hp, ht⟩ := hother u hu
      rw [hp]
      exact hold (ht ▸ heq)
  obtain ⟨hbroadcast, hachieved⟩ := h.achieved hsafe
  refine ⟨h.lock.kept (by rw [hplace]; rfl), h.announced_goTo fun _ ↦ nofun, fun b u k hk ↦ ?_,
    fun x hx u k hk ↦ ?_, hbroadcast, hachieved, ?_, ?_⟩
  · exact (h.current b u k hk).trans (hturn u)
  · exact (h.past x hx u k hk).trans (hturn u)
  · intro hstrict b hb
    have hb' : (s.place b).signalling = true := kind_of_goTo CondPlace.signalling hb fun h ↦ (nomatch h)
    rw [hsignal hstrict b] at hb'
    cases hb'
  · intro hstrict b hb u hu
    have hne : ∀ v, (s.giveUp t lock).place v ≠ .futexWait lock → v ≠ t := by
      rintro v hv rfl
      exact hv hself
    obtain ⟨hbp, -⟩ := hother b (hne b (by rw [hb]; exact nofun))
    obtain ⟨hup, hut⟩ := hother u (hne u fun heq ↦ by rw [heq] at hu; cases hu)
    rw [hbp] at hb
    rw [hup] at hu
    rw [hut]
    exact h.late hstrict b hb u hu

/-- A call begins: it finds the threads that are inside `wait`. -/
theorem Inv.callPost (hplace : s.place t = .outside) :
    Inv strict { s.goTo t (.enterPost all) with
      record := update s.record t (s.finds all) } := by
  have hfinds : ∀ u k, s.finds all u = some k → k ≤ s.turn u := by
    intro u k hk
    unfold finds at hk
    split_ifs at hk
    exact Nat.le_of_eq (Option.some.inj hk).symm
  have hsafe : ∀ u k, k ≤ s.turn u → s.Safe u k → (s.goTo t (.enterPost all)).Safe u k := by
    intro u k _ hold hturn
    refine place_goTo s t _ (P := fun v q ↦ v = u →
      q.sleeping = false ∧ (q.calling = true → s.futx = 1)) ?_ ?_ u rfl
    · exact fun _ ↦ ⟨rfl, fun h ↦ (nomatch h)⟩
    · rintro v - rfl
      exact hold hturn
  obtain ⟨hbroadcast, hsignal⟩ := h.achieved hsafe
  refine ⟨h.lock.kept (by rw [hplace]; rfl), h.announced_goTo fun _ ↦ nofun, fun b u k hk ↦ ?_,
    h.past, hbroadcast, hsignal, ?_, ?_⟩
  · change update s.record t (s.finds all) b u = some k at hk
    by_cases hb : b = t
    · rw [hb, update_self] at hk
      exact hfinds u k hk
    · rw [update_of_ne hb] at hk
      exact h.current b u k hk
  · intro hstrict b hb u hu
    have hu' : (s.place u).found false = true :=
      kind_of_goTo (CondPlace.found false) hu fun h ↦ (nomatch h)
    show update s.record t (s.finds all) b u = some (s.turn u)
    by_cases hbt : b = t
    · subst hbt
      have hself : (s.goTo b (.enterPost all)).place b = .enterPost all := update_self ..
      change ((s.goTo b (.enterPost all)).place b).signalling = true at hb
      rw [hself] at hb
      cases all with
      | true => cases hb
      | false =>
        rw [update_self]
        exact if_pos hu'
    · have hbp : (s.goTo t (.enterPost all)).place b = s.place b := update_of_ne hbt ..
      change ((s.goTo t (.enterPost all)).place b).signalling = true at hb
      rw [hbp] at hb
      rw [update_of_ne hbt]
      exact h.early hstrict b hb u hu'
  · intro hstrict b hb u hu
    have hu' : (s.place u).sleeping = true := kind_of_goTo CondPlace.sleeping hu fun h ↦ (nomatch h)
    show update s.record t (s.finds all) b u = some (s.turn u)
    have hbt : b ≠ t := by
      rintro rfl
      have hself : (s.goTo b (.enterPost all)).place b = .enterPost all := update_self ..
      exact nomatch hself.symm.trans hb
    have hbp : (s.goTo t (.enterPost all)).place b = s.place b := update_of_ne hbt ..
    rw [update_of_ne hbt]
    exact h.late hstrict b (hbp.symm.trans hb) u hu'

/-- The futex word is set: from here to the end of FUTEX_WAKE nobody else falls asleep. -/
theorem Inv.setFutex (hplace : s.place t = .setFutex all) :
    Inv strict { s.goTo t (.futexWake all) with futx := 1 } := by
  have hheld : (s.place t).holds = true := by rw [hplace]; rfl
  have hsafe : ∀ u k, k ≤ s.turn u → s.Safe u k →
      CondState.Safe { s.goTo t (.futexWake all) with futx := 1 } u k := by
    intro u k _ hold hturn
    refine ⟨?_, fun _ ↦ rfl⟩
    exact place_goTo s t (.futexWake all) (P := fun v q ↦ v = u → q.sleeping = false)
      (fun _ ↦ rfl) (by rintro v - rfl; exact (hold hturn).1) u rfl
  have hother : ∀ b, b ≠ t → (s.goTo t (.futexWake all)).place b = s.place b :=
    fun b hb ↦ update_of_ne hb ..
  have hself : (s.goTo t (.futexWake all)).place t = .futexWake all := update_self ..
  obtain ⟨hbroadcast, hsignal⟩ := h.achieved hsafe
  refine ⟨h.lock.kept (by rw [hplace]; rfl), fun _ _ _ ↦ rfl, h.current, h.past, hbroadcast, hsignal,
    ?_, ?_⟩
  · intro hstrict b hb u hu
    exact h.early hstrict b (kind_of_goTo CondPlace.signalling hb fun h ↦ (nomatch h)) u
      (kind_of_goTo (CondPlace.found false) hu fun h ↦ (nomatch h))
  · intro hstrict b hb u hu
    have hbt : b = t := by
      by_contra hne
      exact hne (h.wakes_alone hheld ((hother b hne).symm.trans hb))
    subst hbt
    have hall := CondPlace.futexWake.inj (hself.symm.trans hb)
    have hasleep : (s.place u).sleeping = true := kind_of_goTo CondPlace.sleeping hu fun h ↦ (nomatch h)
    exact h.early hstrict b (by rw [hplace, hall]; rfl) u (found_of_sleeping hasleep)

/-- FUTEX_WAKE has returned; what the call owes to the threads that it found is given. -/
theorem Inv.finish (hplace : s.place t = .futexWake all)
    (hall : all = true → ∀ u k, s.record t u = some k → s.Safe u k)
    (hone : strict = true → all = false → (∃ u, (s.record t u).isSome = true) →
      ∃ u k, s.record t u = some k ∧ s.Safe u k) : Inv strict (s.finish t all) := by
  have hharmless : Harmless s t .leavePost :=
    harmless_of_quiet (fun _ ↦ nofun) rfl rfl fun h ↦ (nomatch h)
  have hmove : Inv strict (s.goTo t .leavePost) :=
    h.move (h.lock.kept (by rw [hplace]; rfl)) hharmless
  refine ⟨hmove.lock, hmove.announced, h.current, fun x hx u k hk ↦ ?_, fun found hmem u k hk ↦ ?_, ?_,
    hmove.early, hmove.late⟩
  · rcases mem_cons.mp hx with rfl | hx
    · exact h.current t u k hk
    · exact h.past x hx u k hk
  · rcases mem_cons.mp hmem with heq | hmem
    · obtain ⟨hkind, rfl⟩ := Prod.mk.inj heq
      exact hharmless.safe (hall hkind.symm u k hk)
    · exact hmove.broadcast found hmem u k hk
  · intro hstrict found hmem hsome
    rcases mem_cons.mp hmem with heq | hmem
    · obtain ⟨hkind, rfl⟩ := Prod.mk.inj heq
      obtain ⟨u, k, hk, hsafe⟩ := hone hstrict hkind.symm hsome
      exact ⟨u, k, hk, hharmless.safe hsafe⟩
    · exact hmove.signal hstrict found hmem hsome

end

/-- When nobody sleeps and the futex word is set, nobody will. -/
theorem safe_of_awake (hset : s.futx = 1) (hawake : ∀ u, (s.place u).sleeping = false) (u : Fin n)
    (k : ℕ) : s.Safe u k := fun _ ↦ ⟨hawake u, fun _ ↦ hset⟩

theorem harmless_rouse (s : CondState n) (ht : (s.place t).sleeping = true) :
    Harmless s t (rouse (s.place t)) := by
  cases hp : s.place t <;> rw [hp] at ht <;> cases ht
  exact harmless_of_quiet (fun _ ↦ nofun) rfl rfl fun h ↦ (nomatch h)

theorem holds_rouse (p : CondPlace) : (rouse p).holds = p.holds := by
  cases p <;> rfl

theorem post_rouse (p : CondPlace) : (rouse p).post = p.post := by
  cases p <;> rfl

theorem sleeping_rouse (p : CondPlace) : (rouse p).sleeping = false := by
  cases p <;> rfl

section

variable (h : Inv strict s)

include h

/-- All sleepers return. -/
theorem Inv.rouse_all :
    Inv strict { s with place := fun u ↦ rouse (s.place u) } := by
  have hsafe : ∀ u k, k ≤ s.turn u → s.Safe u k →
      CondState.Safe { s with place := fun u ↦ rouse (s.place u) } u k := by
    intro u k _ hold hturn
    refine ⟨sleeping_rouse _, fun hcall ↦ (hold hturn).2 ?_⟩
    change (rouse (s.place u)).calling = true at hcall
    cases hp : s.place u <;> rw [hp] at hcall <;> first | rfl | cases hcall
  have hwakes : ∀ b all, rouse (s.place b) = .futexWake all → s.place b = .futexWake all := by
    intro b all hb
    cases hp : s.place b <;> rw [hp] at hb <;> first | exact hb | cases hb
  obtain ⟨hbroadcast, hsignal⟩ := h.achieved hsafe
  refine ⟨fun u ↦ ?_, fun b all hb ↦ h.announced b all (hwakes b all hb), h.current, h.past,
    hbroadcast, hsignal, ?_, ?_⟩
  · show (rouse (s.place u)).holds = true ↔ _
    rw [holds_rouse]
    exact h.lock u
  · intro hstrict b hb u hu
    refine h.early hstrict b ?_ u ?_
    · change (rouse (s.place b)).signalling = true at hb
      cases hp : s.place b <;> rw [hp] at hb <;> exact hb
    · change (rouse (s.place u)).found false = true at hu
      cases hp : s.place u <;> rw [hp] at hu <;> first | rfl | cases hu
  · intro _ _ _ u hu
    rw [sleeping_rouse] at hu
    cases hu

theorem Inv.wake (hplace : s.place t = .futexWake all) (woken : Fin n)
    : Yields (s.wake t woken all) (Inv strict) := by
  have hset := h.announced t all hplace
  unfold CondState.wake
  split_ifs with hall hawake
  · have hsafe := safe_of_awake (s := { s with place := fun u ↦ rouse (s.place u) }) hset
      fun u ↦ sleeping_rouse _
    refine h.rouse_all.finish ?_ (fun _ u k _ ↦ hsafe u k) fun _ hfalse ↦ ?_
    · show rouse (s.place t) = _
      rw [hplace]
      rfl
    · rw [hall] at hfalse
      cases hfalse
  · have hsafe := safe_of_awake hset hawake
    refine h.finish hplace (fun _ u k _ ↦ hsafe u k) fun _ _ ⟨u, hu⟩ ↦ ?_
    obtain ⟨k, hk⟩ := Option.isSome_iff_exists.mp hu
    exact ⟨u, k, hk, hsafe u k⟩
  · refine .check fun hsleep ↦ ?_
    have hne : t ≠ woken := by
      rintro rfl
      rw [hplace] at hsleep
      cases hsleep
    have hharmless := harmless_rouse s hsleep
    have hmove : Inv strict (s.goTo woken (rouse (s.place woken))) :=
      h.move (h.lock.kept (holds_rouse _)) hharmless
    refine hmove.finish ?_ (fun htrue ↦ absurd htrue hall) fun hstrict hfalse _ ↦ ?_
    · show update s.place woken _ t = _
      rw [update_of_ne hne, hplace]
    · -- the one that is woken is among those that the signal found
      refine ⟨woken, s.turn woken, h.late hstrict t (by rw [hplace, hfalse]) woken hsleep, fun _ ↦ ?_⟩
      have hself : (s.goTo woken (rouse (s.place woken))).place woken = rouse (s.place woken) :=
        update_self ..
      rw [hself]
      exact ⟨sleeping_rouse _, fun _ ↦ hset⟩

theorem Inv.run {woken : Fin n} (hmeets : s.Meets strict (.run t woken)) :
    Yields (s.run t woken) (Inv strict) := by
  have hquiet : ∀ p : CondPlace, (∀ all, p ≠ .futexWake all) → p.calling = false →
      p.sleeping = false → p.signalling = (s.place t).signalling → Harmless s t p :=
    fun p hwakes hcalling hsleeping hsame ↦
      harmless_of_quiet hwakes hcalling hsleeping fun hp ↦ hsame ▸ hp
  unfold CondState.run
  cases hplace : s.place t with
  | outside | asleep => trivial
  | enterWait lock =>
    refine .check fun hfree ↦ ?_
    exact h.move (h.lock.taken hfree rfl) (hquiet _ (fun _ ↦ nofun) rfl rfl (by rw [hplace]; rfl))
  | clearFutex lock => exact h.clearFutex hplace (hmeets.1 (by rw [hplace]; rfl))
  | leaveWait lock | leavePost =>
    exact h.move (h.lock.given (by rw [hplace]; rfl) rfl)
      (hquiet _ (fun _ ↦ nofun) rfl rfl (by rw [hplace]; rfl))
  | releaseLock lock => exact h.giveUp hplace fun hstrict ↦ hmeets.2 hstrict (by rw [hplace]; rfl)
  | futexWait lock =>
    show Inv strict (s.goTo t (if s.futx = 0 then .asleep lock else .reacquire lock))
    split_ifs with hclear
    · refine h.move (h.lock.kept (by rw [hplace]; rfl)) ⟨fun _ ↦ nofun, fun h ↦ (nomatch h), ?_,
        fun h ↦ (nomatch h)⟩
      exact fun _ ↦ .inr ⟨by rw [hplace]; rfl, hclear⟩
    · exact h.move (h.lock.kept (by rw [hplace]; rfl))
        (hquiet _ (fun _ ↦ nofun) rfl rfl (by rw [hplace]; rfl))
  | reacquire lock =>
    refine .check fun _ ↦ ?_
    exact h.move (h.lock.kept (by rw [hplace]; rfl))
      (hquiet _ (fun _ ↦ nofun) rfl rfl (by rw [hplace]; rfl))
  | enterPost all =>
    refine .check fun hfree ↦ ?_
    refine h.move (h.lock.taken hfree rfl) (hquiet _ (fun _ ↦ nofun) rfl rfl ?_)
    rw [hplace]
    cases all <;> rfl
  | setFutex all => exact h.setFutex hplace
  | futexWake all => exact h.wake hplace woken

/-- The locks of the callers are not part of the invariant. -/
theorem Inv.setLock (lock : ℕ) (owner : Option (Fin n)) :
    Inv strict (s.setLock lock owner) :=
  ⟨h.lock, h.announced, h.current, h.past, h.broadcast, h.signal, h.early, h.late⟩

theorem Inv.step {e : CondEvent n} (hmeets : s.Meets strict e) :
    Yields (s.step e) (Inv strict) := by
  cases e with
  | acquire t lock | release t lock => exact .require_bind (fun _ ↦ h.setLock ..) fun _ ↦ trivial
  | callWait t lock =>
    refine .check fun hcall ↦ ?_
    exact h.move (h.lock.kept (by rw [hcall.1]; rfl))
      (harmless_of_quiet (fun _ ↦ nofun) rfl rfl fun h ↦ (nomatch h))
  | callPost t all => exact .require_bind (fun hplace ↦ h.callPost hplace) fun _ ↦ trivial
  | run t woken => exact h.run hmeets
  | interrupt t =>
    refine .check fun hsleep ↦ ?_
    exact h.move (h.lock.kept (holds_rouse _)) (harmless_rouse s hsleep)

end

theorem Reached.inv (hs : Reached strict s) : Inv strict s :=
  hs.invariant inv_start fun _ _ _ h hmeets hstep ↦ (h.step hmeets).of_eq_ok hstep

/-! ### The log -/

/-- A call of a thread, with the threads that it found, has not woken anybody yet or is in the log.
-/
def Owed (t : Fin n) (all : Bool) (found : Fin n → Option ℕ) (s : CondState n) : Prop :=
  (s.place t).post = some all ∧ s.record t = found ∨ (all, found) ∈ s.log

section

variable {found : Fin n → Option ℕ} (h : s.Owed t all found)

include h

/-- A thread that moves goes on with its call. -/
theorem Owed.move {u : Fin n} (hpost : ∀ b, (s.place u).post = some b → p.post = some b) {futx : ℤ}
    {mLock : Option (Fin n)} {locks : ℕ → Option (Fin n)} {turn : Fin n → ℕ} :
    Owed t all found ⟨futx, mLock, locks, update s.place u p, turn, s.record, s.log⟩ := by
  rcases h with ⟨hplace, hrecord⟩ | hlog
  · refine .inl ⟨?_, hrecord⟩
    refine place_goTo s u p (P := fun v q ↦ v = t → q.post = some all) ?_ ?_ t rfl
    · rintro rfl
      exact hpost all hplace
    · rintro v - rfl
      exact hplace
  · exact .inr hlog

theorem Owed.callPost {u : Fin n} {b : Bool} (hplace : s.place u = .outside) :
    Owed t all found
      { s.goTo u (.enterPost b) with record := update s.record u (s.finds b) } := by
  rcases h with ⟨hpost, hrecord⟩ | hlog
  · have hne : t ≠ u := by
      rintro rfl
      rw [hplace] at hpost
      cases hpost
    refine .inl ⟨?_, ?_⟩
    · show (update s.place u _ t).post = some all
      rw [update_of_ne hne, hpost]
    · show update s.record u _ t = found
      rw [update_of_ne hne, hrecord]
  · exact .inr hlog

theorem Owed.finish {u : Fin n} {b : Bool} (hplace : s.place u = .futexWake b) :
    Owed t all found (s.finish u b) := by
  rcases h with ⟨hpost, hrecord⟩ | hlog
  · by_cases hu : t = u
    · subst hu
      rw [hplace] at hpost
      cases hpost
      exact .inr (hrecord ▸ mem_cons_self)
    · refine .inl ⟨?_, hrecord⟩
      show (update s.place u _ t).post = some all
      rw [update_of_ne hu, hpost]
  · exact .inr (mem_cons_of_mem _ hlog)

theorem Owed.wake {u : Fin n} {b : Bool} (hplace : s.place u = .futexWake b) (woken : Fin n) :
    Yields (s.wake u woken b) (Owed t all found) := by
  unfold CondState.wake
  split_ifs
  · have hroused : Owed t all found { s with place := fun u ↦ rouse (s.place u) } := by
      rcases h with ⟨hpost, hrecord⟩ | hlog
      · exact .inl ⟨(post_rouse _).trans hpost, hrecord⟩
      · exact .inr hlog
    refine hroused.finish ?_
    show rouse (s.place u) = _
    rw [hplace]
    rfl
  · exact h.finish hplace
  · refine .check fun hsleep ↦ ?_
    have hne : u ≠ woken := by
      rintro rfl
      rw [hplace] at hsleep
      cases hsleep
    refine Owed.finish (s := s.goTo woken _) (h.move fun b hb ↦ (post_rouse _).trans hb) ?_
    show update s.place woken _ u = _
    rw [update_of_ne hne, hplace]

theorem Owed.run (u woken : Fin n) : Yields (s.run u woken) (Owed t all found) := by
  unfold CondState.run
  cases hplace : s.place u with
  | outside | asleep => trivial
  | enterWait | reacquire => exact .check fun _ ↦ h.move (by rw [hplace]; exact nofun)
  | clearFutex | leaveWait | releaseLock | futexWait | leavePost =>
    exact h.move (by rw [hplace]; exact nofun)
  | enterPost b => exact .check fun _ ↦ h.move (by rw [hplace]; exact fun _ hb ↦ hb)
  | setFutex b => exact h.move (by rw [hplace]; exact fun _ hb ↦ hb)
  | futexWake b => exact h.wake hplace woken

theorem Owed.step (e : CondEvent n) : Yields (s.step e) (Owed t all found) := by
  cases e with
  | acquire u lock | release u lock => exact .check fun _ ↦ h
  | callWait u lock => exact .check fun hcall ↦ h.move (by rw [hcall.1]; exact nofun)
  | callPost u b => exact .check fun hplace ↦ h.callPost hplace
  | run u woken => exact h.run u woken
  | interrupt u => exact .check fun _ ↦ h.move fun b hb ↦ (post_rouse _).trans hb

end

/-- A `signal` or `broadcast` that has returned is in the log, with the threads that it found when
it was called. -/
theorem log_of_returned {s₁ s₂ : CondState n} (hcall : s.step (.callPost t all) = .ok s₁)
    (es : List (CondEvent n)) (hexec : (machine n).exec s₁ es = .ok s₂)
    (hreturned : s₂.place t = .outside) : (all, s.finds all) ∈ s₂.log := by
  obtain ⟨-, hcalled⟩ := require_bind_eq_ok.mp hcall
  cases hcalled
  have howed : Owed t all (s.finds all)
      { s.goTo t (.enterPost all) with record := update s.record t (s.finds all) } := by
    refine .inl ⟨?_, update_self ..⟩
    show (update s.place t _ t).post = some all
    rw [update_self]
    rfl
  have hend : s₂.Owed t all (s.finds all) :=
    Machine.exec_keeps (fun _ e _ h hstep ↦ (h.step e).of_eq_ok hstep) howed es hexec
  rcases hend with ⟨hpost, -⟩ | hlog
  · rw [hreturned] at hpost
    cases hpost
  · exact hlog

/-- The threads that a broadcast finds inside `wait` are not asleep in that wait once its FUTEX_WAKE has
returned; of those that a signal finds, one is not. -/
theorem condition_wakeups (s : CondState n) :
    (Reached false s → ∀ found, (true, found) ∈ s.log → ∀ t k, found t = some k →
      s.turn t = k → (s.place t).sleeping = false) ∧
    (Reached true s → ∀ found, (false, found) ∈ s.log → (∃ t, (found t).isSome = true) →
      ∃ t k, found t = some k ∧ (s.turn t = k → (s.place t).sleeping = false)) := by
  refine ⟨fun hs found hmem t k hk hturn ↦ ?_, fun hs found hmem hsome ↦ ?_⟩
  · exact (hs.inv.broadcast found hmem t k hk hturn).1
  · obtain ⟨t, k, hk, hsafe⟩ := hs.inv.signal rfl found hmem hsome
    exact ⟨t, k, hk, fun hturn ↦ (hsafe hturn).1⟩

/-- A thread takes the lock, calls `wait` and gives up the lock. -/
def waits (t : Fin 3) : List (CondEvent 3) :=
  [.acquire t 0, .callWait t 0, .run t 0, .run t 0, .run t 0, .run t 0]

/-- Thread 2 calls, sets the word, wakes and returns. -/
def posts (all : Bool) (woken : Fin 3) : List (CondEvent 3) :=
  [.callPost 2 all, .run 2 0, .run 2 0, .run 2 woken, .run 2 0]

theorem condition_wakeups_signalled : ∃ s : CondState 3, Reached true s ∧
    (∃ found, (false, found) ∈ s.log ∧ found 0 = some 1 ∧ found 1 = some 1 ∧
      ∃ t k, found t = some k ∧ (s.turn t = k → (s.place t).sleeping = false)) ∧
    (s.place 0).sleeping = true := by
  have hrun : Reached true _ := Machine.Reached.start.exec
    (waits 0 ++ [.run 0 0] ++ waits 1 ++ [.run 1 0] ++ posts false 1) rfl rfl
  refine ⟨_, hrun, ⟨_, mem_singleton.mpr rfl, rfl, rfl, ?_⟩, rfl⟩
  exact (condition_wakeups _).2 hrun _ (mem_singleton.mpr rfl) ⟨0, rfl⟩

/-- Thread 0 has given up its lock when a broadcast begins and completes; thread 1 waits and clears the
word, and thread 0 falls asleep. And a signal that finds thread 0 wakes thread 1, which came later. -/
theorem wakeup_lost :
    (∃ s, (machine 3).exec (start 3) (waits 0 ++ posts true 0 ++ waits 1 ++ [.run 0 0]) = .ok s ∧
      ∃ found, (true, found) ∈ s.log ∧ found 0 = some 1 ∧ s.turn 0 = 1 ∧
        (s.place 0).sleeping = true) ∧
    ∃ s, (machine 3).exec (start 3) (waits 0 ++ [.callPost 2 false] ++ waits 1 ++
        [.run 0 0, .run 1 0, .run 2 0, .run 2 0, .run 2 1, .run 2 0]) = .ok s ∧
      ∃ found, (false, found) ∈ s.log ∧ (∀ t k, found t = some k → t = 0 ∧ k = 1) ∧
        found 0 = some 1 ∧ s.turn 0 = 1 ∧ (s.place 0).sleeping = true := by
  refine ⟨⟨_, rfl, _, mem_singleton.mpr rfl, rfl, rfl, rfl⟩,
    ⟨_, rfl, _, mem_singleton.mpr rfl, fun t k hk ↦ ?_, rfl, rfl, rfl⟩⟩
  fin_cases t
  · exact ⟨rfl, (Option.some.inj hk).symm⟩
  · cases hk
  · cases hk

end CondState

end CarbonSim.Misc
