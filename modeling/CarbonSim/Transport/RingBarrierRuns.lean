import Mathlib.Algebra.Order.BigOperators.Group.Finset
import CarbonSim.Transport.RingBarrier

/-!
# The barrier of the socket transport holds

What follows from the counts of `RingState.Inv`: no process returns from a barrier before all have
entered it, the processes inside a barrier which all have entered get out of it, and the messages that
are left belong to later barriers.
-/

namespace CarbonSim.Transport

open Function

namespace RingState

variable {R : Ring} {s s' : RingState} {i : ℕ} {k : ℕ}

/-! ### No process returns early -/

theorem sendsIn_le (phase : Phase) : sendsIn phase ≤ 1 := by
  cases phase <;> decide

/-- A process that sends has entered. -/
theorem Inv.returned_add_sendsIn_le (h : Inv R s) (hi : i < R.procs) :
    s.returned i + sendsIn (s.phase i) ≤ s.entered i := by
  rw [h.entered i hi]
  refine Nat.add_le_add_left ?_ _
  cases s.phase i <;> decide

/-- A process has waited for no more messages than the one before it has sent. -/
theorem Inv.waits_succ_le (h : Inv R s) (hi : i + 1 < R.procs) :
    s.returned (i + 1) * 2 + waitsIn (i + 1) (s.phase (i + 1)) ≤
      s.returned i * 2 + sendsIn (s.phase i) := by
  have hle := (h.window i (Nat.lt_of_succ_lt hi)).1
  rw [Ring.next_of_lt hi] at hle
  have hlast : i ≠ R.procs - 1 := by omega
  have htwo : sendsEach R i = 2 := if_neg hlast
  unfold waits sends at hle
  rw [htwo] at hle
  exact hle

theorem Inv.waits_zero_le (h : Inv R s) :
    s.returned 0 + waitsIn 0 (s.phase 0) ≤
      s.returned (R.procs - 1) + sendsIn (s.phase (R.procs - 1)) := by
  have hle := (h.window (R.procs - 1) (Nat.sub_lt R.procs_pos Nat.one_pos)).1
  rw [Ring.next_of_last rfl] at hle
  have hone : sendsEach R (R.procs - 1) = 1 := if_pos rfl
  have hwaits : waitsEach 0 = 1 := rfl
  unfold waits sends at hle
  rw [hone, hwaits, Nat.mul_one, Nat.mul_one] at hle
  exact hle

/-- Later processes have returned from no more barriers. -/
theorem Inv.returned_le_zero (h : Inv R s) (hi : i < R.procs) : s.returned i ≤ s.returned 0 := by
  induction i with
  | zero => exact Nat.le_refl _
  | succ i ih =>
    have hle := h.waits_succ_le hi
    have hsends := sendsIn_le (s.phase i)
    omega

/-- If a process has come as far as the first send of a barrier, so have those before it. -/
theorem Inv.sent_of_succ (h : Inv R s) (hi : i + 1 < R.procs)
    (hk : k ≤ s.returned (i + 1) + sendsIn (s.phase (i + 1))) :
    k ≤ s.returned i + sendsIn (s.phase i) := by
  have hle := h.waits_succ_le hi
  have hwaits : sendsIn (s.phase (i + 1)) ≤ waitsIn (i + 1) (s.phase (i + 1)) := by
    have htwo : waitsEach (i + 1) = 2 := if_neg (Nat.succ_ne_zero i)
    unfold waitsIn
    rw [htwo]
    cases s.phase (i + 1) <;> decide
  have hsends' := sendsIn_le (s.phase (i + 1))
  omega

theorem Inv.entered_of_returned (h : Inv R s) {j : ℕ} (hi : i < R.procs) (hj : j < R.procs)
    (hk : k ≤ s.returned i) : k ≤ s.entered j := by
  have hzero : k ≤ s.returned 0 := Nat.le_trans hk (h.returned_le_zero hi)
  have hlast : k ≤ s.returned (R.procs - 1) + sendsIn (s.phase (R.procs - 1)) :=
    Nat.le_trans (Nat.le_add_right_of_le hzero) h.waits_zero_le
  -- back from the last process
  have hback : ∀ d, d < R.procs → k ≤ s.returned (R.procs - 1 - d) +
      sendsIn (s.phase (R.procs - 1 - d)) := by
    intro d
    induction d with
    | zero => exact fun _ ↦ hlast
    | succ d ih =>
      intro hd
      have hstep : R.procs - 1 - d = R.procs - 1 - (d + 1) + 1 := by omega
      have hprev := ih (Nat.lt_of_succ_lt hd)
      rw [hstep] at hprev
      exact h.sent_of_succ (by omega) hprev
  have hj' : R.procs - 1 - (R.procs - 1 - j) = j := by omega
  have hsent := hback (R.procs - 1 - j) (by omega)
  rw [hj'] at hsent
  exact Nat.le_trans hsent (h.returned_add_sendsIn_le hj)

/-! ### What is left after a barrier -/

theorem sendsEach_eq (hi : i < R.procs) : sendsEach R i = waitsEach (R.next i) := by
  unfold sendsEach waitsEach
  by_cases hlast : i = R.procs - 1
  · rw [if_pos hlast, if_pos (Ring.next_of_last hlast)]
  · have hlt : i + 1 < R.procs := by omega
    rw [if_neg hlast, if_neg]
    rw [Ring.next_of_lt hlt]
    exact Nat.succ_ne_zero i

/-- The messages on their way to a process belong to barriers that it has not returned from, and that
the sender has entered. -/
theorem Inv.link_mem (h : Inv R s) (hi : i < R.procs) {n : ℕ} (hn : n ∈ s.link R i) :
    s.returned (R.next i) < n ∧ n ≤ s.entered i := by
  obtain ⟨k, hwaits, hsends, rfl⟩ := (h.window i hi).mem hn
  have hpos : 0 < sendsEach R i := by
    rw [sendsEach_eq hi]
    exact waitsEach_pos _
  unfold barrierOf
  constructor
  · refine Nat.lt_succ_of_le ((Nat.le_div_iff_mul_le hpos).mpr ?_)
    rw [sendsEach_eq hi]
    exact Nat.le_trans (Nat.le_add_right _ _) hwaits
  · have hle := h.returned_add_sendsIn_le hi
    have hdiv : k / sendsEach R i < s.returned i + sendsIn (s.phase i) := by
      rw [Nat.div_lt_iff_lt_mul hpos, Nat.add_mul]
      refine Nat.lt_of_lt_of_le hsends (Nat.add_le_add_left ?_ _)
      exact Nat.le_mul_of_pos_right _ hpos
    omega

/-! ### Every process returns -/

/-- The events that go on with barriers which have been entered. -/
def RingEvent.IsInternal : RingEvent → Prop
  | .call _ => False
  | .advance _ | .update _ _ => True

/-- A process that has sent or is about to is not held up. -/
theorem advance_ok (hi : i < R.procs) (hsend : s.phase i = .firstSend ∨ s.phase i = .secondSend) :
    ∃ s', s.step R (.advance i) = .ok s' := by
  show ∃ s', s.advance R i = .ok s'
  unfold RingState.advance
  rw [require, if_pos hi]
  rcases hsend with hphase | hphase
  all_goals exact ⟨_, by rw [hphase]; rfl⟩

theorem advance_wait_ok (hi : i < R.procs)
    (hwait : s.phase i = .firstWait ∨ s.phase i = .secondWait) {n : ℕ} {rest : List ℕ}
    (hsem : s.sem i = n :: rest) : ∃ s', s.step R (.advance i) = .ok s' := by
  have hok : s.wait i = .ok (s.setSem i rest) := by
    unfold wait
    rw [hsem]
  show ∃ s', s.advance R i = .ok s'
  unfold RingState.advance
  rw [require, if_pos hi]
  rcases hwait with hphase | hphase
  all_goals exact ⟨_, by rw [hphase]; show (s.wait i >>= _) = _; rw [hok]; rfl⟩

theorem Inv.update_ok (h : Inv R s) {src dst n : ℕ} {rest : List ℕ}
    (hstream : s.stream src dst = n :: rest) : ∃ s', s.step R (.update src dst) = .ok s' := by
  obtain ⟨hsrc, rfl⟩ := h.quiet src dst (hstream ▸ nofun)
  refine ⟨(s.setStream src (R.next src) rest).setSem (R.next src) (s.sem (R.next src) ++ [n]), ?_⟩
  show s.update R src (R.next src) = _
  unfold RingState.update
  rw [hstream]
  exact if_pos (Ring.prev_next hsrc).symm

/-- No internal event can happen. -/
def Stuck (R : Ring) (s : RingState) : Prop :=
  ∀ e, RingEvent.IsInternal e → ∀ s', s.step R e ≠ .ok s'

/-- In a stuck state a process inside a barrier waits, and has waited for all that the process before it
has sent. -/
theorem Inv.waiting_of_stuck (h : Inv R s) (hstuck : Stuck R s) (hi : R.next i < R.procs)
    (hsrc : i < R.procs) (hinside : s.phase (R.next i) ≠ .outside) :
    (s.phase (R.next i) = .firstWait ∨ s.phase (R.next i) = .secondWait) ∧
      s.waits (R.next i) = s.sends R i := by
  have hwait : s.phase (R.next i) = .firstWait ∨ s.phase (R.next i) = .secondWait := by
    by_contra hsend
    have hsend' : s.phase (R.next i) = .firstSend ∨ s.phase (R.next i) = .secondSend := by
      cases hphase : s.phase (R.next i) <;> simp_all
    obtain ⟨s', hs'⟩ := advance_ok hi hsend'
    exact hstuck (.advance (R.next i)) trivial s' hs'
  have hsem : s.sem (R.next i) = [] := by
    cases hsem : s.sem (R.next i) with
    | nil => rfl
    | cons n rest =>
      obtain ⟨s', hs'⟩ := advance_wait_ok hi hwait hsem
      exact absurd hs' (hstuck (.advance (R.next i)) trivial s')
  have hstream : s.stream i (R.next i) = [] := by
    cases hstream : s.stream i (R.next i) with
    | nil => rfl
    | cons n rest =>
      obtain ⟨s', hs'⟩ := h.update_ok hstream
      exact absurd hs' (hstuck (.update i (R.next i)) trivial s')
  have hwindow := h.window i hsrc
  unfold link at hwindow
  rw [hsem, hstream] at hwindow
  exact ⟨hwait, hwindow.eq_of_nil⟩

/-- A process that has entered a barrier and not returned from it is inside. -/
theorem Inv.inside_of_lt (h : Inv R s) (hi : i < R.procs) (hentered : k ≤ s.entered i)
    (hreturned : s.returned i < k) : s.phase i ≠ .outside ∧ s.returned i + 1 = k := by
  have heq := h.entered i hi
  by_cases hphase : s.phase i = .outside
  · rw [if_pos hphase] at heq
    omega
  · rw [if_neg hphase] at heq
    exact ⟨hphase, by omega⟩

/-- In a stuck state whose processes have all entered a barrier, a process returns from it if the one
before it does. -/
theorem Inv.returned_succ_of_stuck (h : Inv R s) (hstuck : Stuck R s)
    (hentered : ∀ j < R.procs, k ≤ s.entered j) (hi : i + 1 < R.procs) (hk : k ≤ s.returned i) :
    k ≤ s.returned (i + 1) := by
  by_contra hlt
  have hlt' : s.returned (i + 1) < k := Nat.not_le.mp hlt
  obtain ⟨hinside, -⟩ := h.inside_of_lt hi (hentered _ hi) hlt'
  have hnext : R.next i = i + 1 := Ring.next_of_lt hi
  obtain ⟨hwait, hequal⟩ := h.waiting_of_stuck hstuck (hnext ▸ hi) (Nat.lt_of_succ_lt hi)
    (hnext ▸ hinside)
  rw [hnext] at hwait hequal
  have htwo : waitsEach (i + 1) = 2 := if_neg (Nat.succ_ne_zero i)
  have hlast : i ≠ R.procs - 1 := by omega
  have hsends : sendsEach R i = 2 := if_neg hlast
  have hwaitsIn : waitsIn (i + 1) (s.phase (i + 1)) ≤ 1 := by
    rcases hwait with hphase | hphase <;> rw [hphase] <;> simp only [waitsIn, htwo] <;> decide
  unfold waits sends at hequal
  rw [htwo, hsends] at hequal
  omega

/-- In a stuck state whose processes are all in the same barrier, a process is before its first wait if
the next one is. -/
theorem Inv.firstWait_of_stuck (h : Inv R s) (hstuck : Stuck R s) {r : ℕ}
    (hreturned : ∀ j < R.procs, s.returned j = r) (hinside : ∀ j < R.procs, s.phase j ≠ .outside)
    (hi : i < R.procs) (hnext : s.waits (R.next i) = r * waitsEach (R.next i)) :
    s.phase i = .firstWait := by
  have hequal := (h.waiting_of_stuck hstuck (Ring.next_lt i) hi (hinside _ (Ring.next_lt i))).2
  have hsends : s.sends R i = r * sendsEach R i + sendsIn (s.phase i) := by
    unfold sends
    rw [hreturned i hi]
  rw [hnext, hsends, sendsEach_eq hi] at hequal
  have hzero : sendsIn (s.phase i) = 0 := by omega
  -- the process waits, and has sent nothing in this barrier
  have hprev : R.next (R.prev i) = i := Ring.next_prev hi
  have hwait := (h.waiting_of_stuck hstuck (hprev.symm ▸ hi) (Ring.prev_lt i)
    (hprev.symm ▸ hinside i hi)).1
  rw [hprev] at hwait
  rcases hwait with hphase | hphase
  · exact hphase
  · rw [hphase] at hzero
    cases hzero

theorem Inv.not_stuck (h : Inv R s) (hentered : ∀ j < R.procs, k ≤ s.entered j)
    (hi : i < R.procs) (hreturned : s.returned i < k) : ¬ Stuck R s := by
  intro hstuck
  have hzero : s.returned 0 < k := by
    by_contra hge
    have hall : ∀ j < R.procs, k ≤ s.returned j := by
      intro j
      induction j with
      | zero => exact fun _ ↦ Nat.not_lt.mp hge
      | succ j ih =>
        exact fun hj ↦ h.returned_succ_of_stuck hstuck hentered hj (ih (Nat.lt_of_succ_lt hj))
    exact Nat.not_lt.mpr (hall i hi) hreturned
  have hall : ∀ j < R.procs, s.phase j ≠ .outside ∧ s.returned j + 1 = k := fun j hj ↦
    h.inside_of_lt hj (hentered j hj) (Nat.lt_of_le_of_lt (h.returned_le_zero hj) hzero)
  have hinside : ∀ j < R.procs, s.phase j ≠ .outside := fun j hj ↦ (hall j hj).1
  have hsame : ∀ j < R.procs, s.returned j = k - 1 := fun j hj ↦ by
    have hk := (hall j hj).2
    omega
  -- nobody has waited in this barrier: process 0 has not, hence the last one has not, and so on back
  have hback : ∀ d, d < R.procs → s.phase (R.procs - 1 - d) = .firstWait := by
    intro d
    induction d with
    | zero =>
      intro hd
      have hlt : R.procs - 1 < R.procs := Nat.sub_lt R.procs_pos Nat.one_pos
      have hnext : R.next (R.procs - 1) = 0 := Ring.next_of_last rfl
      have hwait := (h.waiting_of_stuck hstuck (Ring.next_lt _) hlt (hinside _ (Ring.next_lt _))).1
      rw [hnext] at hwait
      refine h.firstWait_of_stuck hstuck hsame hinside hlt ?_
      rw [Nat.sub_zero, hnext, waits_eq (hwait.resolve_left h.first), hsame 0 R.procs_pos]
      rfl
    | succ d ih =>
      intro hd
      have hlt : R.procs - 1 - (d + 1) + 1 < R.procs := by omega
      have hstep : R.procs - 1 - d = R.procs - 1 - (d + 1) + 1 := by omega
      have hphase := ih (Nat.lt_of_succ_lt hd)
      rw [hstep] at hphase
      refine h.firstWait_of_stuck hstuck hsame hinside (Nat.lt_of_succ_lt hlt) ?_
      rw [Ring.next_of_lt hlt, waits_eq hphase, hsame _ hlt]
      rfl
  have hlast := hback (R.procs - 1) (Nat.sub_lt R.procs_pos Nat.one_pos)
  rw [Nat.sub_self] at hlast
  exact h.first hlast

/-- The steps that a process has left in its barrier, and the messages that it has on their way. -/
def work : Phase → ℕ
  | .outside => 0
  | .secondSend => 1
  | .secondWait => 2
  | .firstSend => 3
  | .firstWait => 4

def load (R : Ring) (s : RingState) (i : ℕ) : ℕ :=
  2 * work (s.phase i) + (s.stream i (R.next i)).length

/-- The steps that the processes can take without a new call. -/
def rank (R : Ring) (s : RingState) : ℕ := ∑ i ∈ Finset.range R.procs, s.load R i

theorem rank_lt (hi : i < R.procs) (hlt : s'.load R i < s.load R i)
    (hothers : ∀ j, j ≠ i → s'.load R j = s.load R j) : s'.rank R < s.rank R := by
  refine Finset.sum_lt_sum (fun j _ ↦ ?_) ⟨i, Finset.mem_range.mpr hi, hlt⟩
  by_cases hj : j = i
  · rw [hj]
    exact Nat.le_of_lt hlt
  · exact Nat.le_of_eq (hothers j hj)

theorem load_of_ne {j : ℕ} (hj : j ≠ i) (hphase : s'.phase j = s.phase j)
    (hstream : s'.stream = s.stream ∨ s'.stream = (send R s i).stream) :
    s'.load R j = s.load R j := by
  have hsame : s'.stream j = s.stream j := by
    rcases hstream with hstream | hstream
    · rw [hstream]
    · rw [hstream]
      exact update_of_ne hj ..
  unfold load
  rw [hphase, hsame]

/-- A step that waits takes work off. -/
theorem load_waited (hphase : work (s'.phase i) < work (s.phase i)) (hstream : s'.stream = s.stream) :
    s'.load R i < s.load R i := by
  unfold load
  rw [hstream]
  omega

/-- A step that sends takes off more than the message adds. -/
theorem load_sent (hphase : work (s'.phase i) < work (s.phase i))
    (hstream : s'.stream = (send R s i).stream) : s'.load R i < s.load R i := by
  have hself : s'.stream i (R.next i) = s.stream i (R.next i) ++ [s.entered i] := by
    rw [hstream]
    show Function.update s.stream i _ i (R.next i) = _
    rw [update_self, update_self]
  unfold load
  rw [hself, List.length_append, List.length_singleton]
  omega

theorem rank_advance (s : RingState) (i : ℕ) :
    Yields (s.advance R i) (fun s' ↦ s'.rank R < s.rank R) := by
  refine .check fun hi ↦ ?_
  cases hphase : s.phase i with
  | outside => trivial
  | firstWait =>
    refine ((wait_spec s i).mono_fault fun _ _ ↦ trivial).bind ?_
    rintro s₁ ⟨n, rest, -, rfl⟩
    refine rank_lt hi (load_waited ?_ rfl) fun j hj ↦ load_of_ne hj (others_setPhase _ _ hj) (.inl rfl)
    rw [phase_setPhase, hphase]
    decide
  | firstSend =>
    refine rank_lt hi (load_sent ?_ rfl) fun j hj ↦ load_of_ne hj (others_setPhase _ _ hj) (.inr rfl)
    rw [phase_setPhase, hphase]
    decide
  | secondWait =>
    refine ((wait_spec s i).mono_fault fun _ _ ↦ trivial).bind ?_
    rintro s₁ ⟨n, rest, -, rfl⟩
    by_cases hlast : i = R.procs - 1
    · rw [if_neg (not_not.mpr hlast)]
      refine rank_lt hi (load_waited ?_ rfl) fun j hj ↦
        load_of_ne hj (others_setPhase _ _ hj) (.inl rfl)
      rw [phase_leave, hphase]
      decide
    · rw [if_pos hlast]
      refine rank_lt hi (load_waited ?_ rfl) fun j hj ↦
        load_of_ne hj (others_setPhase _ _ hj) (.inl rfl)
      rw [phase_setPhase, hphase]
      decide
  | secondSend =>
    refine rank_lt hi (load_sent ?_ rfl) fun j hj ↦ load_of_ne hj (others_setPhase _ _ hj) (.inr rfl)
    rw [phase_leave, hphase]
    decide

theorem Inv.rank_update (h : Inv R s) (src dst : ℕ) :
    Yields (s.update R src dst) (fun s' ↦ s'.rank R < s.rank R) := by
  unfold RingState.update
  split
  · trivial
  · next n rest hstream =>
    obtain ⟨hsrc, rfl⟩ := h.quiet src dst (hstream ▸ nofun)
    rw [if_pos (Ring.prev_next hsrc).symm]
    refine rank_lt hsrc ?_ fun j hj ↦ ?_
    · show 2 * work (s.phase src) + (Function.update s.stream src
        (Function.update (s.stream src) (R.next src) rest) src (R.next src)).length <
          2 * work (s.phase src) + (s.stream src (R.next src)).length
      rw [update_self, update_self, hstream]
      exact Nat.lt_succ_self _
    · show 2 * work (s.phase j) + (Function.update s.stream src
        (Function.update (s.stream src) (R.next src) rest) j (R.next j)).length = _
      rw [update_of_ne hj]
      rfl

/-! ### Whole runs -/

/-- In every run of a ring of processes: none returns from a barrier before all have entered it; while
all have entered a barrier and one has not returned from it, some event other than a new call can happen,
and every such event lowers a rank; after all have returned from a barrier, the messages that are
counted or on their way belong to later barriers that their sender has entered; no barrier message comes
from an unexpected process. -/
theorem ring_barrier (hs : Reached R s) :
    (∀ k i j, i < R.procs → j < R.procs → k ≤ s.returned i → k ≤ s.entered j) ∧
    (∀ k, (∀ j < R.procs, k ≤ s.entered j) → (∃ i < R.procs, s.returned i < k) →
      ∃ e s', RingEvent.IsInternal e ∧ s.step R e = .ok s') ∧
    (∀ e s', RingEvent.IsInternal e → s.step R e = .ok s' → s'.rank R < s.rank R) ∧
    (∀ k, (∀ j < R.procs, k ≤ s.returned j) → ∀ i < R.procs,
      ∀ n ∈ s.sem (R.next i) ++ s.stream i (R.next i), k < n ∧ n ≤ s.entered i) ∧
    ∀ e, s.step R e ≠ .error .unexpectedProcess := by
  have hinv := hs.inv
  refine ⟨fun k i j hi hj hk ↦ hinv.entered_of_returned hi hj hk, fun k hentered hback ↦ ?_,
    fun e s' hinternal hs' ↦ ?_, fun k hall i hi n hn ↦ ?_, fun e hfault ↦ ?_⟩
  · obtain ⟨i, hi, hreturned⟩ := hback
    by_contra hnone
    refine hinv.not_stuck hentered hi hreturned fun e hinternal s' hs' ↦ ?_
    exact hnone ⟨e, s', hinternal, hs'⟩
  · cases e with
    | call i => exact absurd hinternal id
    | advance i => exact (rank_advance s i).of_eq_ok hs'
    | update src dst => exact (hinv.rank_update src dst).of_eq_ok hs'
  · obtain ⟨hlt, hle⟩ := hinv.link_mem hi hn
    exact ⟨Nat.lt_of_le_of_lt (hall _ (Ring.next_lt i)) hlt, hle⟩
  · cases e with
    | call i => exact absurd ((hinv.call i).of_eq_error hfault) nofun
    | advance i => exact absurd ((hinv.advance i).of_eq_error hfault) nofun
    | update src dst => exact absurd ((hinv.update src dst).of_eq_error hfault) nofun

/-- Three processes. -/
def three : Ring := ⟨3, by decide⟩

/-- All call `barrier`, and the message goes once around: process 0 returns. -/
def onceAround : List RingEvent :=
  [.call 0, .call 1, .call 2, .advance 0, .update 0 1, .advance 1, .advance 1, .update 1 2, .advance 2,
    .advance 2, .update 2 0, .advance 0, .advance 0]

theorem ring_barrier_three :
    ∃ s, Reached three s ∧ s.returned 0 = 1 ∧ s.returned 2 = 0 ∧ (∀ j < 3, 1 ≤ s.entered j) ∧
      ∃ e s', RingEvent.IsInternal e ∧ s.step three e = .ok s' := by
  have hrun : Reached three _ := Machine.Reached.start.exec onceAround rfl rfl
  have hring := ring_barrier hrun
  have hentered : ∀ j < 3, 1 ≤ _ := fun j hj ↦ hring.1 1 0 j (by decide) hj (Nat.le_refl 1)
  exact ⟨_, hrun, rfl, rfl, hentered, hring.2.1 1 hentered ⟨2, by decide, by decide⟩⟩

end RingState

end CarbonSim.Transport
