import Mathlib.Algebra.Group.Nat.Defs
import Mathlib.Data.List.Range
import CarbonSim.Threads.ThreadManager

/-!
# The server of the lax barrier

A tile whose clock has reached the next barrier time asks the server to go on and waits for its
release. The server releases tiles when no thread runs on a tile that is behind: it advances the barrier
time by one interval after another until the clock of a waiting tile is below it. Times are 64 bits
wide, and so is the loop's only variable.
-/

namespace CarbonSim.ClockSkew

open Function List

open Threads (Master Slot)

/-- The threads of the system and `clock_skew_minimization/lax_barrier/quantum`. -/
structure Params where
  threads : Threads.Config
  interval : ℕ
  interval_pos : 0 < interval

/-- `m_num_application_tiles`. -/
def Params.applicationTiles (p : Params) : ℕ := p.threads.applicationTiles

inductive Fault
  /-- An assertion of the thread manager. -/
  | thread (fault : Threads.Fault)
  /-- A list is indexed past its end. -/
  | outOfRange
  /-- The loop of `barrierRelease` does not end. -/
  | spins
  /-- The event cannot happen in this state. -/
  | disabled
  deriving DecidableEq, Repr

/-- `LaxBarrierSyncServer`. -/
structure Server where
  nextBarrierTime : ℕ
  localClock : ℕ → ℕ
  acquired : ℕ → Bool

namespace Server

variable (p : Params) (m : Master) (s : Server)

def start : Server := ⟨p.interval, fun _ ↦ 0, fun _ ↦ false⟩

/-- The assertions of the server that a thread of a core runs or is initializing only call this:
they compare the truth value `isCoreInitializing` with an invalid thread index, from which it always
differs. -/
def isCoreRunning (tile : ℕ) : Except Fault (Option ℕ) :=
  (m.isCoreRunning p.threads tile).mapError .thread

/-- The loop of `isBarrierReached`, with the flag `single_thread_barrier_reached`. -/
def reachedFrom : List ℕ → Bool → Except Fault Bool
  | [], single => .ok single
  | tile :: rest, single =>
    if s.localClock tile < s.nextBarrierTime then do
      let running ← isCoreRunning p m tile
      if running.isSome then return false else reachedFrom rest single
    else do
      let _ ← isCoreRunning p m tile
      reachedFrom rest true

def isBarrierReached : Except Fault Bool :=
  s.reachedFrom p m (range p.applicationTiles) false

/-- The inner loop of `barrierRelease`: the tiles that wait and are below the new barrier time are
released, in their order. -/
def releasePass : List ℕ → Server → Except Fault (Server × List ℕ)
  | [], s => .ok (s, [])
  | tile :: rest, s =>
    if s.localClock tile < s.nextBarrierTime ∧ s.acquired tile = true then do
      let _ ← isCoreRunning p m tile
      let (s, released) ← releasePass rest
        { s with acquired := update s.acquired tile false }
      return (s, tile :: released)
    else releasePass rest s

/-- `m_next_barrier_time += m_barrier_interval`. -/
def advance : Server :=
  { s with nextBarrierTime := (s.nextBarrierTime + p.interval) % 2 ^ 64 }

/-- The outer loop of `barrierRelease`, with a bound on the rounds. -/
def releaseLoop : ℕ → Server → Except Fault (Server × List ℕ)
  | 0, _ => .error .spins
  | fuel + 1, s => do
    let (s, released) ← releasePass p m (range p.applicationTiles) (s.advance p)
    if released = [] then releaseLoop fuel s else return (s, released)

/-- `barrierRelease`. Until a tile is released only the barrier time changes, which has `2 ^ 64` values:
a loop that has not ended by then never does. -/
def barrierRelease : Except Fault (Server × List ℕ) := releaseLoop p m (2 ^ 64) s

/-- `signal`, with the tiles released. -/
def signal : Except Fault (Server × List ℕ) := do
  let reached ← s.isBarrierReached p m
  if reached then s.barrierRelease p m else return (s, [])

/-- A tile has reached the barrier time. -/
def acquire (tile time : ℕ) : Server :=
  { s with
    localClock := update s.localClock tile time
    acquired := update s.acquired tile true }

/-- `barrierWait`, with the tiles released: at once if the tile is below the barrier time. -/
def barrierWait (tile time : ℕ) : Except Fault (Server × List ℕ) := do
  let _ ← isCoreRunning p m tile
  if time < s.nextBarrierTime then return (s, [tile])
  else do
    require (tile < p.applicationTiles) .outOfRange
    (s.acquire tile time).signal p m

end Server

/-! ### What the server asks of the threads -/

/-- A thread runs on the tile. -/
def Runs (p : Params) (m : Master) (tile : ℕ) : Prop :=
  ∃ j < p.threads.maxThreadsPerCore, m.status ⟨tile, j⟩ = .running

/-- A thread of the tile runs or is about to. -/
def Occupied (p : Params) (m : Master) (tile : ℕ) : Prop :=
  ∃ j < p.threads.maxThreadsPerCore,
    m.status ⟨tile, j⟩ = .running ∨ m.status ⟨tile, j⟩ = .initializing

instance (p : Params) (m : Master) (tile : ℕ) : Decidable (Occupied p m tile) :=
  inferInstanceAs (Decidable (∃ j < _, _))

/-- An assertion of the thread manager. -/
def Fault.IsThread (fault : Fault) : Prop := ∃ f, fault = .thread f

namespace Server

variable {p : Params} {m : Master} {s s' : Server} {tile : ℕ}

theorem isCoreRunning_spec (tile : ℕ) :
    Outcome (isCoreRunning p m tile) (fun r ↦ r.isSome = true ↔ Runs p m tile) Fault.IsThread := by
  have hmem : ∀ j, j ∈ (range p.threads.maxThreadsPerCore).filter
      (m.status ⟨tile, ·⟩ = .running) ↔
        j < p.threads.maxThreadsPerCore ∧ m.status ⟨tile, j⟩ = .running := by
    intro j
    rw [mem_filter, mem_range, decide_eq_true_iff]
  unfold isCoreRunning Master.isCoreRunning
  split
  · next hnil =>
    refine iff_of_false nofun ?_
    rintro ⟨j, hj, hrunning⟩
    have hj' := (hmem j).mpr ⟨hj, hrunning⟩
    rw [hnil] at hj'
    exact not_mem_nil hj'
  · next j hsingle =>
    refine iff_of_true rfl ⟨j, (hmem j).mp ?_⟩
    rw [hsingle]
    exact mem_cons_self
  · exact ⟨_, rfl⟩

/-! ### Whether the barrier is reached -/

/-- The barrier is reached: no thread runs on a tile that is behind, and the thread manager has
found the threads of the other tiles in order. -/
structure Reaches (p : Params) (m : Master) (s : Server) (tiles : List ℕ) : Prop where
  behind : ∀ t ∈ tiles, s.localClock t < s.nextBarrierTime → ¬ Runs p m t
  ahead : ∀ t ∈ tiles, s.nextBarrierTime ≤ s.localClock t → ∃ r, isCoreRunning p m t = .ok r

theorem reachedFrom_spec (tiles : List ℕ) (single : Bool) :
    Outcome (s.reachedFrom p m tiles single) (fun reached ↦ (reached = true → Reaches p m s tiles ∧
          (single = true ∨ ∃ t ∈ tiles, s.nextBarrierTime ≤ s.localClock t)) ∧
        (reached = false → (∃ t ∈ tiles, s.localClock t < s.nextBarrierTime ∧ Runs p m t) ∨
          single = false ∧ ∀ t ∈ tiles, s.localClock t < s.nextBarrierTime)) Fault.IsThread := by
  induction tiles generalizing single with
  | nil => exact ⟨fun h ↦ ⟨⟨nofun, nofun⟩, .inl h⟩, fun h ↦ .inr ⟨h, nofun⟩⟩
  | cons t rest ih =>
    unfold reachedFrom
    by_cases hbehind : s.localClock t < s.nextBarrierTime
    · rw [if_pos hbehind]
      refine (isCoreRunning_spec t).bind fun r hr ↦ ?_
      by_cases hsome : r.isSome = true
      · rw [if_pos hsome]
        exact ⟨nofun, fun _ ↦ .inl ⟨t, mem_cons_self, hbehind, hr.mp hsome⟩⟩
      · rw [if_neg hsome]
        refine (ih single).imp (fun reached ⟨htrue, hfalse⟩ ↦ ⟨fun h ↦ ?_, fun h ↦ ?_⟩)
        · obtain ⟨⟨hbelow, habove⟩, hreached⟩ := htrue h
          refine ⟨⟨?_, ?_⟩, hreached.imp_right fun ⟨u, hu, hclock⟩ ↦
            ⟨u, mem_cons_of_mem t hu, hclock⟩⟩
          · rintro u hu hclock
            rcases mem_cons.mp hu with rfl | hu
            · exact fun hruns ↦ hsome (hr.mpr hruns)
            · exact hbelow u hu hclock
          · rintro u hu hclock
            rcases mem_cons.mp hu with rfl | hu
            · exact absurd hbehind (Nat.not_lt.mpr hclock)
            · exact habove u hu hclock
        · refine (hfalse h).imp (fun ⟨u, hu, hu'⟩ ↦ ⟨u, mem_cons_of_mem t hu, hu'⟩)
            fun ⟨hsingle, hall⟩ ↦ ⟨hsingle, fun u hu ↦ ?_⟩
          rcases mem_cons.mp hu with rfl | hu
          · exact hbehind
          · exact hall u hu
    · rw [if_neg hbehind]
      have hahead : s.nextBarrierTime ≤ s.localClock t := Nat.not_lt.mp hbehind
      have hcalled : Outcome (isCoreRunning p m t) (fun r ↦ isCoreRunning p m t = .ok r)
          Fault.IsThread :=
      Outcome.value.mono_fault fun _ hf ↦ (isCoreRunning_spec t).of_eq_error hf
      refine hcalled.bind fun r hr ↦ ?_
      refine (ih true).imp (fun reached ⟨hyes, hno⟩ ↦ ⟨fun h ↦ ?_, fun h ↦ ?_⟩)
      · obtain ⟨⟨hbelow, habove⟩, -⟩ := hyes h
        refine ⟨⟨?_, ?_⟩, .inr ⟨t, mem_cons_self, hahead⟩⟩
        · intro u hu hclock
          rcases mem_cons.mp hu with rfl | hu
          · exact absurd hclock hbehind
          · exact hbelow u hu hclock
        · intro u hu hclock
          rcases mem_cons.mp hu with rfl | hu
          · exact ⟨r, hr⟩
          · exact habove u hu hclock
      · obtain ⟨u, hu, hu'⟩ | ⟨hsingle, -⟩ := hno h
        · exact .inl ⟨u, mem_cons_of_mem t hu, hu'⟩
        · cases hsingle

/-! ### The release loop -/

/-- The server after a pass over some tiles. -/
def passed (s : Server) (tiles : List ℕ) : Server :=
  { s with acquired := fun t ↦
      s.acquired t && !decide (t ∈ tiles ∧ s.localClock t < s.nextBarrierTime) }

/-- The tiles that a pass releases. -/
def due (s : Server) (tiles : List ℕ) : List ℕ :=
  tiles.filter fun t ↦ decide (s.localClock t < s.nextBarrierTime) && s.acquired t

theorem releasePass_eq (tiles : List ℕ) (hnodup : tiles.Nodup)
    (hcalls : ∀ t ∈ tiles, s.acquired t = true → ∃ r, isCoreRunning p m t = .ok r) :
    releasePass p m tiles s = .ok (s.passed tiles, s.due tiles) := by
  induction tiles generalizing s with
  | nil =>
    have hnone : s.passed [] = s := by
      unfold passed
      simp
    rw [hnone]
    rfl
  | cons t rest ih =>
    obtain ⟨hnotin, hrest⟩ := nodup_cons.mp hnodup
    unfold releasePass
    by_cases hdue : s.localClock t < s.nextBarrierTime ∧ s.acquired t = true
    · obtain ⟨r, hr⟩ := hcalls t mem_cons_self hdue.2
      rw [if_pos hdue, hr]
      -- the flag of the tile is cleared, and the tile does not come again
      have hcleared : ∀ u ∈ rest, update s.acquired t false u = s.acquired u := by
        intro u hu
        have hut : u ≠ t := fun heq ↦ hnotin (heq ▸ hu)
        exact update_of_ne hut ..
      have hih := ih (s := { s with acquired := update s.acquired t false }) hrest
        fun u hu hacq ↦ hcalls u (mem_cons_of_mem t hu) (hcleared u hu ▸ hacq)
      rw [hih]
      refine congrArg Except.ok (Prod.ext ?_ ?_)
      · refine congrArg (Server.mk _ _) (funext fun u ↦ ?_)
        show (update s.acquired t false u && _) = _
        by_cases hut : u = t
        · subst hut
          simp [hdue.1]
        · simp [hut]
      · unfold due
        rw [filter_cons_of_pos (by simp [hdue.1, hdue.2])]
        refine congrArg (t :: ·) (filter_congr fun u hu ↦ ?_)
        exact congrArg (decide (s.localClock u < s.nextBarrierTime) && ·) (hcleared u hu)
    · rw [if_neg hdue, ih hrest fun u hu ↦ hcalls u (mem_cons_of_mem t hu)]
      have hskip : (decide (s.localClock t < s.nextBarrierTime) && s.acquired t) = false := by
        rw [Bool.eq_false_iff]
        intro hboth
        obtain ⟨hclock, hacq⟩ := (Bool.and_eq_true _ _).mp hboth
        exact hdue ⟨of_decide_eq_true hclock, hacq⟩
      refine congrArg Except.ok (Prod.ext ?_ ?_)
      · refine congrArg (Server.mk _ _) (funext fun u ↦ ?_)
        by_cases hut : u = t
        · subst hut
          rcases Bool.and_eq_false_iff.mp hskip with hclock | hacq
          · have hclock' := of_decide_eq_false hclock
            simp [hclock']
          · simp [hacq]
        · simp [hut]
      · unfold due
        rw [filter_cons_of_neg (by simp [hskip])]

/-- The flags of the server say which clocks have reached the barrier time, and the next advance past
such a clock does not wrap around. -/
structure Inv (p : Params) (s : Server) : Prop where
  acquired_iff : ∀ t, s.acquired t = true ↔ t < p.applicationTiles ∧ s.nextBarrierTime ≤ s.localClock t
  noWrap : ∀ t, s.acquired t = true → s.localClock t + p.interval < 2 ^ 64

/-- A round of releases: the barrier time ends one interval above a time that every waiting tile has
reached, and the tiles that are below it go on. -/
structure Round (p : Params) (s s' : Server) (released : List ℕ) : Prop where
  clock : s'.localClock = s.localClock
  acquired : ∀ t, s'.acquired t = true ↔ s.acquired t = true ∧ s'.nextBarrierTime ≤ s.localClock t
  tiles : released = (range p.applicationTiles).filter fun t ↦
    decide (s.localClock t < s'.nextBarrierTime) && s.acquired t
  nonempty : released ≠ []
  inForce : ∃ time, s'.nextBarrierTime = time + p.interval ∧ s.nextBarrierTime ≤ time ∧
    ∀ t, s.acquired t = true → time ≤ s.localClock t

theorem advance_eq (hinv : Inv p s) {t : ℕ} (ht : s.acquired t = true) :
    (s.advance p).nextBarrierTime = s.nextBarrierTime + p.interval := by
  have hreached := ((hinv.acquired_iff t).mp ht).2
  have hwrap := hinv.noWrap t ht
  exact Nat.mod_eq_of_lt (by omega)

/-- A pass that releases no tile only advances the barrier time. -/
theorem inv_advance (hinv : Inv p s) {t : ℕ} (ht : s.acquired t = true)
    (hnone : (s.advance p).due (range p.applicationTiles) = []) :
    (s.advance p).passed (range p.applicationTiles) = s.advance p ∧ Inv p (s.advance p) := by
  have hahead : ∀ u, s.acquired u = true → (s.advance p).nextBarrierTime ≤ s.localClock u := by
    intro u hu
    by_contra hbelow
    have hmem : u ∈ (s.advance p).due (range p.applicationTiles) := by
      refine mem_filter.mpr ⟨mem_range.mpr ((hinv.acquired_iff u).mp hu).1, ?_⟩
      exact (Bool.and_eq_true _ _).mpr ⟨decide_eq_true (Nat.not_le.mp hbelow), hu⟩
    rw [hnone] at hmem
    exact not_mem_nil hmem
  refine ⟨congrArg (Server.mk _ _) (funext fun u ↦ ?_), fun u ↦ ?_, hinv.noWrap⟩
  · show (s.acquired u && !decide (u ∈ range p.applicationTiles ∧
      s.localClock u < (s.advance p).nextBarrierTime)) = s.acquired u
    cases hu : s.acquired u with
    | false => rfl
    | true =>
      have hnot : ¬ (u ∈ range p.applicationTiles ∧
          s.localClock u < (s.advance p).nextBarrierTime) := fun h ↦
        Nat.not_lt.mpr (hahead u hu) h.2
      rw [decide_eq_false hnot]
      rfl
  · constructor
    · intro hu
      exact ⟨((hinv.acquired_iff u).mp hu).1, hahead u hu⟩
    · rintro ⟨hlt, hle⟩
      refine (hinv.acquired_iff u).mpr ⟨hlt, ?_⟩
      rw [advance_eq hinv ht] at hle
      exact Nat.le_of_add_right_le hle

/-- The loop ends, having released a tile. -/
theorem releaseLoop_round (fuel : ℕ) (hinv : Inv p s) {t : ℕ} (ht : s.acquired t = true)
    (hcalls : ∀ u, s.acquired u = true → ∃ r, isCoreRunning p m u = .ok r)
    (hfuel : s.localClock t < s.nextBarrierTime + fuel * p.interval) :
    ∃ s' released, releaseLoop p m fuel s = .ok (s', released) ∧ Round p s s' released := by
  induction fuel generalizing s with
  | zero =>
    rw [Nat.zero_mul] at hfuel
    exact absurd ((hinv.acquired_iff t).mp ht).2 (Nat.not_le.mpr hfuel)
  | succ fuel ih =>
    have hadvance := advance_eq hinv ht
    have hpass := releasePass_eq (p := p) (m := m) (s := s.advance p)
      (range p.applicationTiles) nodup_range fun u _ hu ↦ hcalls u hu
    by_cases hnone : (s.advance p).due (range p.applicationTiles) = []
    · obtain ⟨hsame, hnext⟩ := inv_advance hinv ht hnone
      have hfuel' : (s.advance p).localClock t <
          (s.advance p).nextBarrierTime + fuel * p.interval := by
        rw [hadvance, Nat.add_assoc, Nat.add_comm p.interval, ← Nat.succ_mul]
        exact hfuel
      obtain ⟨s', released, hloop, hround⟩ := ih hnext ht hcalls hfuel'
      refine ⟨s', released, ?_, hround.clock, hround.acquired, hround.tiles, hround.nonempty, ?_⟩
      · show (releasePass p m _ _ >>= _) = _
        rw [hpass, hnone, hsame]
        exact hloop
      · obtain ⟨time, htime, hle, hreached⟩ := hround.inForce
        rw [hadvance] at hle
        exact ⟨time, htime, Nat.le_of_add_right_le hle, hreached⟩
    · refine ⟨(s.advance p).passed (range p.applicationTiles),
        (s.advance p).due (range p.applicationTiles), ?_, rfl, fun u ↦ ?_, rfl, hnone,
        s.nextBarrierTime, hadvance, Nat.le_refl _, fun u hu ↦ ((hinv.acquired_iff u).mp hu).2⟩
      · show (releasePass p m _ _ >>= _) = _
        rw [hpass]
        exact if_neg hnone
      · show (s.acquired u && !decide (u ∈ range p.applicationTiles ∧
          s.localClock u < (s.advance p).nextBarrierTime)) = true ↔ s.acquired u = true ∧
            (s.advance p).nextBarrierTime ≤ s.localClock u
        rw [Bool.and_eq_true, Bool.not_eq_true', decide_eq_false_iff_not, mem_range]
        refine and_congr_right fun hu ↦ ?_
        rw [not_and, Nat.not_lt]
        exact ⟨fun h ↦ h ((hinv.acquired_iff u).mp hu).1, fun h _ ↦ h⟩

theorem Round.inv {released : List ℕ} (hround : Round p s s' released) (hinv : Inv p s) :
    Inv p s' := by
  have hclock := hround.clock
  refine ⟨fun t ↦ ?_, fun t ht ↦ ?_⟩
  · rw [hround.acquired t, hinv.acquired_iff t, hclock]
    obtain ⟨time, htime, hle, -⟩ := hround.inForce
    constructor
    · rintro ⟨⟨hlt, -⟩, hreached⟩
      exact ⟨hlt, hreached⟩
    · rintro ⟨hlt, hreached⟩
      exact ⟨⟨hlt, by omega⟩, hreached⟩
  · rw [hclock]
    exact hinv.noWrap t ((hround.acquired t).mp ht).1

/-- A tile that is released was waiting, and its clock is below the new barrier time. -/
theorem Round.mem {released : List ℕ} (hround : Round p s s' released) {t : ℕ} :
    t ∈ released ↔ t < p.applicationTiles ∧ s.localClock t < s'.nextBarrierTime ∧
      s.acquired t = true := by
  rw [hround.tiles, mem_filter, mem_range, Bool.and_eq_true, decide_eq_true_iff]

/-- Why a signal releases nobody: a thread runs on a tile that is behind, or nobody waits. -/
def Idles (p : Params) (m : Master) (s : Server) : Prop :=
  (∃ t < p.applicationTiles, s.localClock t < s.nextBarrierTime ∧ Runs p m t) ∨
    ∀ t < p.applicationTiles, s.localClock t < s.nextBarrierTime

/-- A signal ends: it releases nobody, or it is a round of releases, when no thread runs on a tile that
is behind. -/
theorem signal_spec (hinv : Inv p s) :
    Outcome (s.signal p m) (fun r ↦ (r = (s, []) ∧ Idles p m s) ∨
        Round p s r.1 r.2 ∧ Reaches p m s (range p.applicationTiles)) Fault.IsThread := by
  refine (reachedFrom_spec (range p.applicationTiles) false).bind ?_
  rintro reached ⟨hyes, hno⟩
  cases reached with
  | false =>
    refine .inl ⟨rfl, (hno rfl).imp ?_ ?_⟩
    · exact fun ⟨t, ht, h⟩ ↦ ⟨t, mem_range.mp ht, h⟩
    · exact fun ⟨_, h⟩ t ht ↦ h t (mem_range.mpr ht)
  | true =>
    obtain ⟨hreaches, hsome⟩ := hyes rfl
    obtain ⟨t, ht, hclock⟩ := hsome.resolve_left nofun
    have hacq : s.acquired t = true := (hinv.acquired_iff t).mpr ⟨mem_range.mp ht, hclock⟩
    have hcalls : ∀ u, s.acquired u = true → ∃ r, isCoreRunning p m u = .ok r := by
      intro u hu
      obtain ⟨hlt, hreached⟩ := (hinv.acquired_iff u).mp hu
      exact hreaches.ahead u (mem_range.mpr hlt) hreached
    have hfuel : s.localClock t < s.nextBarrierTime + 2 ^ 64 * p.interval := by
      have hwrap := hinv.noWrap t hacq
      have hmul : 2 ^ 64 * 1 ≤ 2 ^ 64 * p.interval := Nat.mul_le_mul_left _ p.interval_pos
      omega
    obtain ⟨s', released, hloop, hround⟩ :=
      releaseLoop_round (m := m) (2 ^ 64) hinv hacq hcalls hfuel
    show Outcome (releaseLoop p m (2 ^ 64) s) _ _
    rw [hloop]
    exact .inr ⟨hround, hreaches⟩

theorem Inv.acquire (hinv : Inv p s) {time : ℕ} (htile : tile < p.applicationTiles)
    (htime : s.nextBarrierTime ≤ time) (hwrap : time + p.interval < 2 ^ 64) :
    Inv p (s.acquire tile time) := by
  refine ⟨fun t ↦ ?_, fun t ht ↦ ?_⟩
  · show update s.acquired tile true t = true ↔
      t < p.applicationTiles ∧ s.nextBarrierTime ≤ update s.localClock tile time t
    by_cases h : t = tile
    · subst h
      rw [update_self, update_self]
      exact iff_of_true rfl ⟨htile, htime⟩
    · rw [update_of_ne h, update_of_ne h]
      exact hinv.acquired_iff t
  · have ht' : update s.acquired tile true t = true := ht
    show update s.localClock tile time t + _ < _
    by_cases h : t = tile
    · subst h
      rw [update_self]
      exact hwrap
    · rw [update_of_ne h] at ht' ⊢
      exact hinv.noWrap t ht'

theorem inv_start (p : Params) : Inv p (start p) := by
  refine ⟨fun t ↦ iff_of_false nofun ?_, nofun⟩
  rintro ⟨-, hle⟩
  exact Nat.not_le.mpr p.interval_pos hle

end Server

end CarbonSim.ClockSkew
