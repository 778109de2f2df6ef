import CarbonSim.Lib.Runs
import CarbonSim.Lib.ThreadPlaces
import Mathlib.Algebra.Group.Int.Defs
import Mathlib.Algebra.GroupWithZero.Nat

/-!
# The semaphore

`Semaphore` keeps a count, the number of threads in the loop of `wait` and a futex word, all guarded by
a lock that is not held while a thread sleeps. The threads of a run take turns statement by statement.
A thread that is about to sleep reads the futex word without the lock, so the word may have been set and
set back since it gave up the lock; it can fall asleep only while the count is not positive, or while a
thread that has just made it one is about to wake a sleeper.
-/

namespace CarbonSim.Misc

open Function Census

/-- The value of an `int` expression. -/
def int32 (z : ℤ) : ℤ := Int.bmod z (2 ^ 32)

theorem int32_of_range {z : ℤ} (hlow : -2 ^ 31 ≤ z) (hhigh : z < 2 ^ 31) : int32 z = z :=
  Int.bmod_eq_of_le (by omega) (by omega)

/-- Where a thread is: in none of the functions, or before the statement that the place is named
after. `broadcast` differs from `signal` in the number of sleepers that it wakes. -/
inductive SemPlace
  | outside
  | enterWait
  | test
  | releaseToSleep
  | futexWait
  | asleep
  | reacquire
  | enterPost (all : Bool)
  | increment (all : Bool)
  | setFutex (all : Bool)
  | futexWake (all : Bool)
  | releaseAndReturn
  deriving DecidableEq, Repr

namespace SemPlace

def holds : SemPlace → Bool
  | .test | .releaseToSleep | .increment _ | .setFutex _ | .futexWake _ | .releaseAndReturn => true
  | _ => false

/-- In the body of the loop of `wait`: the threads that `_numWaiting` counts. -/
def waiting : SemPlace → Bool
  | .releaseToSleep | .futexWait | .asleep | .reacquire => true
  | _ => false

def sleeping : SemPlace → Bool
  | .asleep => true
  | _ => false

/-- In `wait`, not asleep, and without having taken its share of the count. -/
def awake : SemPlace → Bool
  | .enterWait | .test | .releaseToSleep | .futexWait | .reacquire => true
  | _ => false

/-- The count has been raised and the futex word not yet set. -/
def setting : SemPlace → Bool
  | .setFutex _ => true
  | _ => false

/-- The count has been raised and no sleeper woken yet. -/
def posting : SemPlace → Bool
  | .setFutex _ | .futexWake _ => true
  | _ => false

attribute [simp] waiting sleeping awake setting posting

end SemPlace

open SemPlace (waiting sleeping posting setting awake holds)

/-- The members of the semaphore, and where each thread is. The numbers of waits completed and of
increments by `signal` and `broadcast` are kept beside. -/
structure SemState (n : ℕ) where
  count : ℤ
  numWaiting : ℤ
  futx : ℤ
  lock : Option (Fin n)
  place : Fin n → SemPlace
  completed : ℕ
  posted : ℕ

/-- A thread calls a function, goes on by one statement, or is interrupted in its sleep. FUTEX_WAKE for
one sleeper wakes any of them. -/
inductive SemEvent (n : ℕ)
  | callWait (t : Fin n)
  | callSignal (t : Fin n)
  | callBroadcast (t : Fin n)
  | run (t woken : Fin n)
  | interrupt (t : Fin n)
  deriving DecidableEq

namespace SemState

variable {n : ℕ} {p : SemPlace} {all : Bool}

/-- `Semaphore(count)`. -/
def start (n : ℕ) (count : ℤ) : SemState n := ⟨count, 0, 0, none, fun _ ↦ .outside, 0, 0⟩

variable (s : SemState n)

def goTo (t : Fin n) (p : SemPlace) : SemState n :=
  { s with place := update s.place t p }

/-- A sleeper returns from FUTEX_WAIT. -/
def rouse : SemPlace → SemPlace
  | .asleep => .reacquire
  | p => p

def acquire (t : Fin n) (p : SemPlace) : Except Unit (SemState n) := do
  require (s.lock = none) ()
  return { s.goTo t p with lock := some t }

def release (t : Fin n) (p : SemPlace) : SemState n :=
  { s.goTo t p with lock := none }

/-- The test of the loop of `wait` and what follows up to the release of the lock. -/
def testCount (t : Fin n) : SemState n :=
  if s.count ≤ 0 then
    { s.goTo t .releaseToSleep with numWaiting := int32 (s.numWaiting + 1), futx := 0 }
  else
    { s.goTo t .releaseAndReturn with count := int32 (s.count - 1), completed := s.completed + 1 }

/-- `_count ++` and the test of `_numWaiting`. -/
def incrementCount (t : Fin n) (all : Bool) : SemState n :=
  { s.goTo t (if 0 < s.numWaiting then .setFutex all else .releaseAndReturn) with
    count := int32 (s.count + 1)
    posted := s.posted + 1 }

/-- FUTEX_WAKE of all sleepers, or of one if there is one. -/
def wake (t woken : Fin n) (all : Bool) : Except Unit (SemState n) :=
  if all = true then
    return SemState.goTo { s with place := fun u ↦ rouse (s.place u) } t .releaseAndReturn
  else if census sleeping s.place = 0 then return s.goTo t .releaseAndReturn
  else do
    require (s.place woken = .asleep) ()
    return (s.goTo woken .reacquire).goTo t .releaseAndReturn

def call (t : Fin n) (p : SemPlace) : Except Unit (SemState n) := do
  require (s.place t = .outside) ()
  return s.goTo t p

/-- The next statement of a thread. -/
def run (t woken : Fin n) : Except Unit (SemState n) :=
  match s.place t with
  | .outside | .asleep => .error ()
  | .enterWait => s.acquire t .test
  | .test => return s.testCount t
  | .releaseToSleep => return s.release t .futexWait
  | .futexWait => return s.goTo t (if s.futx = 0 then .asleep else .reacquire)
  | .reacquire => do
    let s ← s.acquire t .test
    return { s with numWaiting := int32 (s.numWaiting - 1) }
  | .enterPost all => s.acquire t (.increment all)
  | .increment all => return s.incrementCount t all
  | .setFutex all => return { s.goTo t (.futexWake all) with futx := 1 }
  | .futexWake all => s.wake t woken all
  | .releaseAndReturn => return s.release t .outside

def step : SemEvent n → Except Unit (SemState n)
  | .callWait t => s.call t .enterWait
  | .callSignal t => s.call t (.enterPost false)
  | .callBroadcast t => s.call t (.enterPost true)
  | .run t woken => s.run t woken
  | .interrupt t => do
    require (s.place t = .asleep) ()
    return s.goTo t .reacquire

/-- The count is not raised beyond the largest `int`. -/
def Meets : SemEvent n → Prop
  | .run t _ => ∀ all, s.place t = .increment all → s.count + 1 < 2 ^ 31
  | _ => True

instance decidableMeets (e : SemEvent n) : Decidable (s.Meets e) :=
  match e with
  | .run t _ =>
    inferInstanceAs (Decidable (∀ all, s.place t = .increment all → s.count + 1 < 2 ^ 31))
  | .callWait _ | .callSignal _ | .callBroadcast _ | .interrupt _ => inferInstanceAs (Decidable True)

def machine (n : ℕ) (count : ℤ) : Machine (SemState n) (SemEvent n) Unit where
  start := start n count
  step := step

def Reached (count : ℤ) (s : SemState n) : Prop := (machine n count).Reached Meets s

/-- The invariant of a semaphore that was created with a count. -/
structure Inv (initial : ℤ) (s : SemState n) : Prop where
  lock : Exclusive holds s.place s.lock
  numWaiting : s.numWaiting = census waiting s.place
  balance : s.count = initial + s.posted - s.completed
  low : -2 ^ 31 ≤ s.count
  high : s.count < 2 ^ 31
  taken : s.completed = 0 ∨ 0 ≤ s.count
  nonneg : 0 ≤ initial → 0 ≤ s.count
  futx : s.futx = 0 ∨ s.futx = 1
  ready : 0 < s.count → 0 < census waiting s.place →
    s.futx = 1 ∨ s.count = 1 ∧ 0 < census setting s.place
  served : 0 < census sleeping s.place → s.count ≤ census awake s.place + census posting s.place

variable {initial : ℤ} {s s' : SemState n} {t : Fin n}

theorem inv_start (hlow : -2 ^ 31 ≤ initial) (hhigh : initial < 2 ^ 31) :
    Inv initial (start n initial) where
  lock t := ⟨fun h ↦ (nomatch h), fun h ↦ (nomatch h)⟩
  numWaiting := by
    have hnone : ¬ 0 < census waiting (start n initial).place := by
      rw [pos_iff]
      rintro ⟨t, ht⟩
      cases ht
    show (0 : ℤ) = _
    omega
  balance := by
    show initial = initial + (0 : ℕ) - (0 : ℕ)
    omega
  low := hlow
  high := hhigh
  taken := .inl rfl
  nonneg h := h
  futx := .inl rfl
  ready _ hwaiting := by
    obtain ⟨t, ht⟩ := pos_iff.mp hwaiting
    cases ht
  served hsleeping := by
    obtain ⟨t, ht⟩ := pos_iff.mp hsleeping
    cases ht

/-- While a thread that is not about to set the futex word holds the lock, no thread is. -/
theorem Inv.setting_eq_zero (h : Inv initial s) (ht : (s.place t).holds = true)
    (hnot : (s.place t).setting = false) : census setting s.place = 0 := by
  by_contra hne
  obtain ⟨u, hu⟩ := pos_iff.mp (Nat.pos_of_ne_zero hne)
  have hholds : (s.place u).holds = true := by
    cases hp : s.place u <;> rw [hp] at hu <;> first | rfl | cases hu
  rw [h.lock.alone ht hholds, hnot] at hu
  cases hu

/-- What the invariant says of the numbers: the members of the semaphore against those of the waiting,
sleeping, awake, setting and posting threads. -/
def Numbers (initial : ℤ) (s : SemState n) (w sl aw st po : ℕ) : Prop :=
  s.numWaiting = w ∧ s.count = initial + s.posted - s.completed ∧ -2 ^ 31 ≤ s.count ∧
    s.count < 2 ^ 31 ∧ (s.completed = 0 ∨ 0 ≤ s.count) ∧ (0 ≤ initial → 0 ≤ s.count) ∧
    (s.futx = 0 ∨ s.futx = 1) ∧ (0 < s.count → 0 < w → s.futx = 1 ∨ s.count = 1 ∧ 0 < st) ∧
    (0 < sl → s.count ≤ aw + po)

theorem Inv.numbers (h : Inv initial s) : Numbers initial s (census waiting s.place)
    (census sleeping s.place) (census awake s.place) (census setting s.place)
    (census posting s.place) :=
  ⟨h.numWaiting, h.balance, h.low, h.high, h.taken, h.nonneg, h.futx, h.ready, h.served⟩

/-- One thread has moved. What is left to check of the invariant are the lock and the numbers. -/
theorem inv_moved (hplace : s'.place = update s.place t p)
    (hlock : Exclusive holds (update s.place t p) s'.lock)
    (hnumbers : ∀ w sl aw st po : ℕ,
      w + (s.place t).waiting.toNat = census waiting s.place + p.waiting.toNat →
      sl + (s.place t).sleeping.toNat = census sleeping s.place + p.sleeping.toNat →
      aw + (s.place t).awake.toNat = census awake s.place + p.awake.toNat →
      st + (s.place t).setting.toNat = census setting s.place + p.setting.toNat →
      po + (s.place t).posting.toNat = census posting s.place + p.posting.toNat →
      Numbers initial s' w sl aw st po) : Inv initial s' := by
  obtain ⟨hnum, hbalance, hlow, hhigh, htaken, hnonneg, hfutx, hready, hserved⟩ :=
    hnumbers _ _ _ _ _ (move ..) (move ..) (move ..) (move ..)
      (move ..)
  rw [← hplace] at hlock hnum hready hserved
  exact ⟨hlock, hnum, hbalance, hlow, hhigh, htaken, hnonneg, hfutx, hready, hserved⟩

section

variable (h : Inv initial s)

include h

/-- A thread moves between places that differ in nothing but the lock. -/
theorem Inv.goTo {lock : Option (Fin n)}
    (hlock : Exclusive holds (update s.place t p) lock)
    (hwaiting : p.waiting = (s.place t).waiting) (hsleeping : p.sleeping = (s.place t).sleeping)
    (hawake : (s.place t).awake.toNat ≤ p.awake.toNat) (hsetting : p.setting = (s.place t).setting)
    (hposting : p.posting = (s.place t).posting) : Inv initial { s.goTo t p with lock := lock } := by
  refine inv_moved rfl hlock fun w sl aw st po hw hs ha hset hpost ↦ ?_
  rw [hwaiting] at hw
  rw [hsleeping] at hs
  rw [hsetting] at hset
  rw [hposting] at hpost
  have hnumbers := h.numbers
  dsimp only [Numbers, SemState.goTo] at hnumbers ⊢
  omega

theorem Inv.call (hholds : p.holds = false) (hwaiting : p.waiting = false)
    (hsleeping : p.sleeping = false) (hsetting : p.setting = false)
    (hposting : p.posting = false) : Yields (s.call t p) (Inv initial) := by
  refine .check fun hplace ↦ ?_
  refine h.goTo (h.lock.kept ?_) ?_ ?_ ?_ ?_ ?_ <;> rw [hplace]
  · exact hholds
  · exact hwaiting
  · exact hsleeping
  · exact Nat.zero_le _
  · exact hsetting
  · exact hposting

/-- A thread takes the lock on its way into a function. -/
theorem Inv.enter (hholds : p.holds = true)
    (hwaiting : p.waiting = (s.place t).waiting) (hsleeping : p.sleeping = (s.place t).sleeping)
    (hawake : (s.place t).awake.toNat ≤ p.awake.toNat) (hsetting : p.setting = (s.place t).setting)
    (hposting : p.posting = (s.place t).posting) :
    Yields (s.acquire t p) (Inv initial) :=
  .require_bind (fun hfree ↦
    h.goTo (h.lock.taken hfree hholds) hwaiting hsleeping hawake hsetting hposting) fun _ ↦ trivial

/-- A thread that has slept takes the lock again. -/
theorem Inv.reacquire (hn : n < 2 ^ 31) (hplace : s.place t = .reacquire) :
    Yields (do
      let s ← s.acquire t .test
      return { s with numWaiting := int32 (s.numWaiting - 1) } : Except Unit (SemState n))
      (Inv initial) := by
  unfold acquire
  rw [bind_assoc]
  refine .check fun hfree ↦ ?_
  refine inv_moved rfl (h.lock.taken hfree rfl) fun w sl aw st po hw hs ha hset hpost ↦ ?_
  simp [hplace] at hw hs ha hset hpost
  have hnumbers := h.numbers
  dsimp only [Numbers, SemState.goTo] at hnumbers ⊢
  have hle := le_threads waiting s.place
  have hwrap : int32 (s.numWaiting - 1) = s.numWaiting - 1 := int32_of_range (by omega) (by omega)
  omega

/-- A thread in `wait` finds the count not positive, or takes its share of it. -/
theorem Inv.testCount (hn : n < 2 ^ 31) (hplace : s.place t = .test) :
    Inv initial (s.testCount t) := by
  have hnumbers := h.numbers
  unfold Numbers at hnumbers
  unfold SemState.testCount
  split_ifs with hcount
  · refine inv_moved rfl (h.lock.kept (by rw [hplace]; rfl)) ?_
    intro w sl aw st po hw hs ha hset hpost
    simp [hplace] at hw hs ha hset hpost
    have hle := le_threads waiting (update s.place t .releaseToSleep)
    have hmoved := move waiting s.place t .releaseToSleep
    simp [hplace] at hmoved
    have hwrap : int32 (s.numWaiting + 1) = s.numWaiting + 1 := int32_of_range (by omega) (by omega)
    dsimp only [Numbers, SemState.goTo]
    omega
  · refine inv_moved rfl (h.lock.kept (by rw [hplace]; rfl)) ?_
    intro w sl aw st po hw hs ha hset hpost
    simp [hplace] at hw hs ha hset hpost
    have hwrap : int32 (s.count - 1) = s.count - 1 := int32_of_range (by omega) (by omega)
    dsimp only [Numbers, SemState.goTo]
    omega

/-- FUTEX_WAIT: a thread falls asleep only if the count is not positive, or is about to be announced. -/
theorem Inv.futexWait (hplace : s.place t = .futexWait) :
    Inv initial (s.goTo t (if s.futx = 0 then .asleep else .reacquire)) := by
  split_ifs with hfutx
  · refine inv_moved rfl (h.lock.kept (by rw [hplace]; rfl)) ?_
    intro w sl aw st po hw hs ha hset hpost
    simp [hplace] at hw hs ha hset hpost
    have hnumbers := h.numbers
    have hself : 0 < census waiting s.place := pos_iff.mpr ⟨t, by rw [hplace]; rfl⟩
    have hle : census setting s.place ≤ census posting s.place :=
      mono fun p hp ↦ by cases p <;> first | rfl | cases hp
    dsimp only [Numbers, SemState.goTo] at hnumbers ⊢
    omega
  · refine h.goTo (h.lock.kept ?_) ?_ ?_ ?_ ?_ ?_ <;> rw [hplace] <;> rfl

/-- The count is raised. -/
theorem Inv.incrementCount (hplace : s.place t = .increment all)
    (hmax : s.count + 1 < 2 ^ 31) : Inv initial (s.incrementCount t all) := by
  have hholds : (s.place t).holds = true := by rw [hplace]; rfl
  have hnone := h.setting_eq_zero hholds (by rw [hplace]; rfl)
  have hle : census sleeping s.place ≤ census waiting s.place :=
    mono fun p hp ↦ by cases p <;> first | rfl | cases hp
  have hwrap : int32 (s.count + 1) = s.count + 1 := int32_of_range (by have := h.low; omega) hmax
  -- what does not depend on whether a thread waits
  have hrest : ∀ p : SemPlace, p.holds = true → p.waiting = false → p.sleeping = false →
      (0 < census waiting s.place → p.setting = true ∧ p.posting = true) →
      Inv initial { s.goTo t p with count := int32 (s.count + 1), posted := s.posted + 1 } := by
    intro p hp hpw hps hannounced
    refine inv_moved rfl (h.lock.kept (hp.trans hholds.symm)) ?_
    intro w sl aw st po hw hs ha hset hpost
    obtain ⟨kw, ks, ka, kset, kpost⟩ : (s.place t).waiting = false ∧ (s.place t).sleeping = false ∧
        (s.place t).awake = false ∧ (s.place t).setting = false ∧ (s.place t).posting = false := by
      rw [hplace]
      exact ⟨rfl, rfl, rfl, rfl, rfl⟩
    simp only [kw, ks, ka, kset, kpost, hpw, hps, Bool.toNat_false] at hw hs ha hset hpost
    have hraised (hpos : 0 < census waiting s.place) :
        st = 1 ∧ po = census posting s.place + 1 := by
      rw [(hannounced hpos).1, Bool.toNat_true] at hset
      rw [(hannounced hpos).2, Bool.toNat_true] at hpost
      omega
    have hnumbers := h.numbers
    dsimp only [Numbers, SemState.goTo] at hnumbers ⊢
    omega
  unfold SemState.incrementCount
  split_ifs with hwaiting
  · exact hrest (.setFutex all) rfl rfl rfl fun _ ↦ ⟨rfl, rfl⟩
  · exact hrest .releaseAndReturn rfl rfl rfl fun hpos ↦
      absurd hpos (by have := h.numWaiting; omega)

theorem Inv.setFutex (hplace : s.place t = .setFutex all) :
    Inv initial { s.goTo t (.futexWake all) with futx := 1 } := by
  refine inv_moved rfl (h.lock.kept (by rw [hplace]; rfl)) ?_
  intro w sl aw st po hw hs ha hset hpost
  simp [hplace] at hw hs ha hset hpost
  have hnumbers := h.numbers
  dsimp only [Numbers, SemState.goTo] at hnumbers ⊢
  omega

/-- A sleeper returns. -/
theorem Inv.rouse (hplace : s.place t = .asleep) :
    Inv initial (s.goTo t .reacquire) := by
  refine inv_moved rfl (h.lock.kept (by rw [hplace]; rfl)) ?_
  intro w sl aw st po hw hs ha hset hpost
  simp [hplace] at hw hs ha hset hpost
  have hnumbers := h.numbers
  dsimp only [Numbers, SemState.goTo] at hnumbers ⊢
  omega

/-- The end of FUTEX_WAKE, when the sleepers left are few enough. -/
theorem Inv.woken (all : Bool) (hplace : s.place t = .futexWake all)
    (hfew : 0 < census sleeping s.place →
      s.count + 1 ≤ census awake s.place + census posting s.place) :
    Inv initial (s.goTo t .releaseAndReturn) := by
  refine inv_moved rfl (h.lock.kept (by rw [hplace]; rfl)) ?_
  intro w sl aw st po hw hs ha hset hpost
  simp [hplace] at hw hs ha hset hpost
  have hnumbers := h.numbers
  dsimp only [Numbers, SemState.goTo] at hnumbers ⊢
  omega

/-- All sleepers return. -/
theorem Inv.rouse_all :
    Inv initial { s with place := fun u ↦ SemState.rouse (s.place u) } ∧
      census sleeping (fun u ↦ SemState.rouse (s.place u)) = 0 := by
  have hnone : census sleeping (fun u ↦ SemState.rouse (s.place u)) = 0 := by
    by_contra hne
    obtain ⟨u, hu⟩ := pos_iff.mp (Nat.pos_of_ne_zero hne)
    cases hp : s.place u <;> rw [hp] at hu <;> cases hu
  have hkept : ∀ kind : SemPlace → Bool, kind .reacquire = kind .asleep →
      census kind (fun u ↦ SemState.rouse (s.place u)) = census kind s.place := by
    intro kind hsame
    refine congr fun u ↦ ?_
    cases hp : s.place u <;> first | rfl | exact hsame
  have hw := hkept waiting rfl
  have hset := hkept setting rfl
  refine ⟨⟨fun u ↦ ?_, ?_, h.balance, h.low, h.high, h.taken, h.nonneg, h.futx, ?_, ?_⟩, hnone⟩
  · rw [← h.lock u]
    show (SemState.rouse (s.place u)).holds = true ↔ _
    cases s.place u <;> rfl
  · rw [hw]
    exact h.numWaiting
  · rw [hw, hset]
    exact h.ready
  · rw [hnone]
    exact fun hpos ↦ absurd hpos (Nat.lt_irrefl 0)

theorem Inv.wake (hplace : s.place t = .futexWake all) (woken : Fin n)
    : Yields (s.wake t woken all) (Inv initial) := by
  unfold SemState.wake
  split_ifs with hall hnone
  · obtain ⟨hinv, hnone⟩ := h.rouse_all
    refine hinv.woken all ?_ fun hpos ↦ ?_
    · show SemState.rouse (s.place t) = _
      rw [hplace]
      rfl
    · rw [hnone] at hpos
      exact absurd hpos (Nat.lt_irrefl 0)
  · exact h.woken all hplace fun hpos ↦ absurd hpos (by omega)
  · refine .check fun hasleep ↦ ?_
    have hne : t ≠ woken := by
      rintro rfl
      rw [hplace] at hasleep
      cases hasleep
    have ha := move awake s.place woken .reacquire
    have hpost := move posting s.place woken .reacquire
    simp [hasleep] at ha hpost
    have hserved := h.served (Nat.pos_of_ne_zero hnone)
    refine (h.rouse hasleep).woken all ?_ fun _ ↦ ?_
    · show update s.place woken .reacquire t = _
      rw [update_of_ne hne, hplace]
    · show s.count + 1 ≤ census awake (update s.place woken .reacquire) +
        census posting (update s.place woken .reacquire)
      omega

theorem Inv.run (hn : n < 2 ^ 31) {woken : Fin n}
    (hmeets : ∀ all, s.place t = .increment all → s.count + 1 < 2 ^ 31) :
    Yields (s.run t woken) (Inv initial) := by
  unfold SemState.run
  cases hplace : s.place t with
  | outside | asleep => trivial
  | enterWait | enterPost all => apply h.enter <;> first | rfl | (rw [hplace]; rfl)
  | test => exact h.testCount hn hplace
  | releaseToSleep | releaseAndReturn =>
    refine h.goTo (h.lock.given (by rw [hplace]; rfl) rfl) ?_ ?_ ?_ ?_ ?_ <;> rw [hplace] <;> rfl
  | futexWait => exact h.futexWait hplace
  | reacquire => exact h.reacquire hn hplace
  | increment all => exact h.incrementCount hplace (hmeets all hplace)
  | setFutex all => exact h.setFutex hplace
  | futexWake all => exact h.wake hplace woken

theorem Inv.step (hn : n < 2 ^ 31) {e : SemEvent n} (hmeets : s.Meets e) :
    Yields (s.step e) (Inv initial) := by
  cases e with
  | callWait t | callSignal t | callBroadcast t => exact h.call rfl rfl rfl rfl rfl
  | run t woken => exact h.run hn hmeets
  | interrupt t => exact .require_bind (fun hplace ↦ h.rouse hplace) fun _ ↦ trivial

end

theorem Reached.inv (hs : Reached initial s) (hn : n < 2 ^ 31) (hlow : -2 ^ 31 ≤ initial)
    (hhigh : initial < 2 ^ 31) : Inv initial s :=
  hs.invariant (inv_start hlow hhigh) fun _ _ _ h hmeets hstep ↦ (h.step hn hmeets).of_eq_ok hstep

/-- Waits are completed only as the initial count and the increments allow, a count that starts
non-negative stays so, and once the increments have been announced no sleeper is left alone with a
positive count. -/
theorem semaphore_counts (hn : n < 2 ^ 31) (hlow : -2 ^ 31 ≤ initial) (hhigh : initial < 2 ^ 31)
    (hs : Reached initial s) :
    (s.completed : ℤ) ≤ max 0 (initial + s.posted) ∧
    (0 ≤ initial → 0 ≤ s.count ∧ (s.completed : ℤ) ≤ initial + s.posted) ∧
    ((∀ t, (s.place t).posting = false) → 0 < s.count → (∃ t, s.place t = .asleep) →
      ∃ t, (s.place t).awake = true) := by
  have h := hs.inv hn hlow hhigh
  have hbalance := h.balance
  have htaken := h.taken
  refine ⟨by omega, fun hinitial ↦ ?_, fun hpost hcount hsleep ↦ ?_⟩
  · omega
  · obtain ⟨t, ht⟩ := hsleep
    have hserved := h.served (pos_iff.mpr ⟨t, by rw [ht]; rfl⟩)
    have hnone : census posting s.place = 0 := by
      by_contra hne
      obtain ⟨u, hu⟩ := pos_iff.mp (Nat.pos_of_ne_zero hne)
      rw [hpost u] at hu
      cases hu
    exact pos_iff.mp (by omega)

/-- Two threads sleep; a third signals, and one of them has been woken. -/
def signalled {N : ℕ} [NeZero N] : List (SemEvent N) :=
  [.callWait 0, .run 0 0, .run 0 0, .run 0 0, .run 0 0, .callWait 1, .run 1 0, .run 1 0, .run 1 0,
    .run 1 0, .callSignal 2, .run 2 0, .run 2 0, .run 2 0, .run 2 1, .run 2 0]

theorem semaphore_counts_signalled : ∃ s : SemState 3, Reached 0 s ∧ s.count = 1 ∧
    s.place 0 = .asleep ∧ 0 ≤ s.count ∧ ∃ t, (s.place t).awake = true := by
  have hrun : Reached 0 _ := Machine.Reached.start.exec (signalled (N := 3)) rfl rfl
  have hcounts := semaphore_counts (by decide) (by decide) (by decide) hrun
  exact ⟨_, hrun, rfl, rfl, (hcounts.2.1 le_rfl).1, hcounts.2.2 (by decide) (by decide) ⟨0, rfl⟩⟩

/-- A semaphore that starts below zero has completed more waits than that; the largest count is
signalled to the smallest one; and between the increment and FUTEX_WAKE of `signal` the count is
positive while the only thread in `wait` sleeps. -/
theorem semaphore_counts_fail :
    (∃ s : SemState 1, Reached (-1) s ∧ (-1 : ℤ) + s.posted < s.completed) ∧
    (∃ s s' : SemState 1, Reached (2 ^ 31 - 1) s ∧ s.step (.run 0 0) = .ok s' ∧ s'.count < 0) ∧
    ∃ s : SemState 2, Reached 0 s ∧ 0 < s.count ∧ s.place 0 = .asleep ∧
      ∀ t, (s.place t).awake = false := by
  refine ⟨⟨_, Machine.Reached.start, by decide⟩, ?_, ?_⟩
  · have hrun : Reached (2 ^ 31 - 1) _ :=
      Machine.Reached.start.exec [SemEvent.callSignal (0 : Fin 1), .run 0 0] rfl rfl
    exact ⟨_, _, hrun, rfl, by decide⟩
  · have hrun : Reached 0 _ := Machine.Reached.start.exec
      [SemEvent.callWait (0 : Fin 2), .run 0 0, .run 0 0, .run 0 0, .run 0 0, .callSignal 1, .run 1 0,
        .run 1 0] rfl rfl
    exact ⟨_, hrun, by decide, rfl, by decide⟩

end SemState

end CarbonSim.Misc
