import Mathlib.Data.List.Range
import CarbonSim.Lib.Runs

/-!
# The barrier of the socket transport

The processes form a ring. A barrier is two trips of a message around it: the first one passes a process
once it has called `barrier`, the second one lets it return. Each process counts the messages that its
update thread has taken from the sockets in one semaphore, whatever trip or barrier they belong to.

Beside each message the model keeps the number of the call that sent it, which the code does not see:
a semaphore is the list of the numbers of the messages that it counts.
-/

namespace CarbonSim.Transport

open Function List

/-- The ring, with at least one process. -/
structure Ring where
  procs : ℕ
  procs_pos : 0 < procs

namespace Ring

variable (R : Ring)

/-- `(m_proc_index + 1) % m_num_procs`. -/
def next (i : ℕ) : ℕ := (i + 1) % R.procs

/-- `(m_proc_index + m_num_procs - 1) % m_num_procs`. -/
def prev (i : ℕ) : ℕ := (i + R.procs - 1) % R.procs

variable {R} {i j : ℕ}

theorem next_of_last (hi : i = R.procs - 1) : R.next i = 0 := by
  unfold next
  rw [hi, Nat.sub_add_cancel R.procs_pos, Nat.mod_self]

theorem next_of_lt (hi : i + 1 < R.procs) : R.next i = i + 1 := Nat.mod_eq_of_lt hi

theorem next_lt (i : ℕ) : R.next i < R.procs := Nat.mod_lt _ R.procs_pos

theorem prev_next (hi : i < R.procs) : R.prev (R.next i) = i := by
  unfold prev
  rcases Nat.lt_or_ge (i + 1) R.procs with hlt | hge
  · rw [next_of_lt hlt]
    have hsub : i + 1 + R.procs - 1 = i + R.procs := by omega
    rw [hsub, Nat.add_mod_right, Nat.mod_eq_of_lt hi]
  · have hlast : i = R.procs - 1 := by omega
    rw [next_of_last hlast, Nat.zero_add, hlast]
    exact Nat.mod_eq_of_lt (by omega)

theorem prev_lt (i : ℕ) : R.prev i < R.procs := Nat.mod_lt _ R.procs_pos

theorem next_prev (hi : i < R.procs) : R.next (R.prev i) = i := by
  unfold prev
  rcases Nat.eq_zero_or_pos i with rfl | hpos
  · have hlast : (0 + R.procs - 1) % R.procs = R.procs - 1 := by
      rw [Nat.zero_add]
      exact Nat.mod_eq_of_lt (Nat.sub_lt R.procs_pos Nat.one_pos)
    exact next_of_last hlast
  · have hsub : i + R.procs - 1 = i - 1 + R.procs := by omega
    rw [hsub, Nat.add_mod_right, Nat.mod_eq_of_lt (by omega), next_of_lt (by omega)]
    omega

theorem next_inj (hi : i < R.procs) (hj : j < R.procs) (h : R.next i = R.next j) : i = j := by
  rw [← prev_next hi, h, prev_next hj]

end Ring

/-- Where a process is in `barrier`: outside, before the first wait, before the first send, before the
second wait, before the second send. -/
inductive Phase
  | outside
  | firstWait
  | firstSend
  | secondWait
  | secondSend
  deriving DecidableEq, Repr

/-- The processes with the numbers of calls made and finished, their semaphores and the streams of the
sockets between them. -/
structure RingState where
  phase : ℕ → Phase
  entered : ℕ → ℕ
  returned : ℕ → ℕ
  sem : ℕ → List ℕ
  stream : ℕ → ℕ → List ℕ

inductive RingEvent
  /-- A process calls `barrier`. -/
  | call (i : ℕ)
  /-- A process takes its next step in `barrier`. -/
  | advance (i : ℕ)
  /-- The update thread of a process takes a message from the socket of another one. -/
  | update (src dst : ℕ)
  deriving DecidableEq, Repr

inductive RingFault
  /-- The event cannot happen in this state. -/
  | disabled
  /-- "Barrier update from unexpected process". -/
  | unexpectedProcess
  deriving DecidableEq, Repr

namespace RingState

variable (R : Ring) (s : RingState)

def start : RingState := ⟨fun _ ↦ .outside, fun _ ↦ 0, fun _ ↦ 0, fun _ ↦ [], fun _ _ ↦ []⟩

def setPhase (i : ℕ) (phase : Phase) : RingState :=
  { s with phase := update s.phase i phase }

/-- The process leaves `barrier`. -/
def leave (i : ℕ) : RingState :=
  { s.setPhase i .outside with returned := update s.returned i (s.returned i + 1) }

def setStream (src dst : ℕ) (messages : List ℕ) : RingState :=
  { s with stream := update s.stream src (update (s.stream src) dst messages) }

def setSem (i : ℕ) (messages : List ℕ) : RingState :=
  { s with sem := update s.sem i messages }

/-- `sock.send`: the message goes to the next process. -/
def send (i : ℕ) : RingState :=
  s.setStream i (R.next i) (s.stream i (R.next i) ++ [s.entered i])

/-- `m_barrier_sem.wait()`: it ends when the count is positive. -/
def wait (i : ℕ) : Except RingFault RingState :=
  match s.sem i with
  | [] => .error .disabled
  | _ :: rest => .ok (s.setSem i rest)

def call (i : ℕ) : Except RingFault RingState := do
  require (i < R.procs ∧ s.phase i = .outside) .disabled
  return { s with entered := update s.entered i (s.entered i + 1) }.setPhase i
    (if i ≠ 0 then .firstWait else .firstSend)

/-- `barrier`, one wait or send at a time. -/
def advance (i : ℕ) : Except RingFault RingState := do
  require (i < R.procs) .disabled
  match s.phase i with
  | .outside => .error .disabled
  | .firstWait => do
    let s ← s.wait i
    return s.setPhase i .firstSend
  | .firstSend => return (send R s i).setPhase i .secondWait
  | .secondWait => do
    let s ← s.wait i
    return if i ≠ R.procs - 1 then s.setPhase i .secondSend else s.leave i
  | .secondSend => return (send R s i).leave i

/-- The part of `updateBufferLists` for a barrier message. -/
def update (src dst : ℕ) : Except RingFault RingState :=
  match s.stream src dst with
  | [] => .error .disabled
  | n :: rest =>
    if src = R.prev dst then .ok ((s.setStream src dst rest).setSem dst (s.sem dst ++ [n]))
    else .error .unexpectedProcess

def step : RingEvent → Except RingFault RingState
  | .call i => s.call R i
  | .advance i => s.advance R i
  | .update src dst => s.update R src dst

def machine : Machine RingState RingEvent RingFault := ⟨start, fun s e ↦ s.step R e⟩

/-- The states of all runs. -/
def Reached : RingState → Prop := (machine R).Reached fun _ _ ↦ True

/-! ### Counting messages -/

/-- The waits of a process in one barrier. -/
def waitsEach (i : ℕ) : ℕ := if i = 0 then 1 else 2

/-- The sends of a process in one barrier. -/
def sendsEach (i : ℕ) : ℕ := if i = R.procs - 1 then 1 else 2

/-- The waits that a process has made in its current barrier. -/
def waitsIn (i : ℕ) : Phase → ℕ
  | .outside | .firstWait => 0
  | .firstSend | .secondWait => waitsEach i - 1
  | .secondSend => waitsEach i

/-- The sends that a process has made in its current barrier. -/
def sendsIn : Phase → ℕ
  | .outside | .firstWait | .firstSend => 0
  | .secondWait | .secondSend => 1

def waits (i : ℕ) : ℕ := s.returned i * waitsEach i + waitsIn i (s.phase i)

def sends (i : ℕ) : ℕ := s.returned i * sendsEach R i + sendsIn (s.phase i)

/-- Of the messages of a sequence, the list has those from the `w`-th on up to the `n`-th. -/
def Window (tag : ℕ → ℕ) (l : List ℕ) (w n : ℕ) : Prop :=
  w ≤ n ∧ l = (List.range' w (n - w)).map tag

section Window

variable {tag : ℕ → ℕ} {l : List ℕ} {w n a : ℕ}

theorem Window.push (h : Window tag l w n) : Window tag (l ++ [tag n]) w (n + 1) := by
  obtain ⟨hle, rfl⟩ := h
  refine ⟨Nat.le_succ_of_le hle, ?_⟩
  rw [Nat.succ_sub hle, range'_1_concat, map_append, Nat.add_sub_cancel' hle]
  rfl

theorem Window.pop (h : Window tag (a :: l) w n) : Window tag l (w + 1) n := by
  obtain ⟨hle, hl⟩ := h
  have hlt : w < n := by
    by_contra hge
    have hzero : n - w = 0 := Nat.sub_eq_zero_of_le (Nat.not_lt.mp hge)
    rw [hzero] at hl
    cases hl
  have hsub : n - w = n - (w + 1) + 1 := by omega
  rw [hsub, range'_succ, map_cons] at hl
  exact ⟨hlt, (List.cons.inj hl).2⟩

theorem Window.eq_of_nil (h : Window tag [] w n) : w = n := by
  obtain ⟨hle, hl⟩ := h
  have hlength := congrArg List.length hl
  rw [length_map, length_range'] at hlength
  exact Nat.le_antisymm hle (Nat.le_of_sub_eq_zero hlength.symm)

theorem Window.mem (h : Window tag l w n) (ha : a ∈ l) : ∃ k, w ≤ k ∧ k < n ∧ tag k = a := by
  obtain ⟨hle, rfl⟩ := h
  obtain ⟨k, hk, rfl⟩ := mem_map.mp ha
  obtain ⟨hwk, hkn⟩ := mem_range'_1.mp hk
  exact ⟨k, hwk, by omega, rfl⟩

end Window

/-! ### The invariant -/

/-- The messages on their way to the next process, and those that it has counted. -/
def link (i : ℕ) : List ℕ := s.sem (R.next i) ++ s.stream i (R.next i)

/-- The number of the barrier that the `n`-th message of a process belongs to. -/
def barrierOf (i n : ℕ) : ℕ := n / sendsEach R i + 1

/-- What is on its way from a process to the next one is what the one has sent and the other has not
waited for. -/
structure Inv : Prop where
  entered : ∀ i < R.procs, s.entered i = s.returned i + if s.phase i = .outside then 0 else 1
  first : s.phase 0 ≠ .firstWait
  last : s.phase (R.procs - 1) ≠ .secondSend
  quiet : ∀ src dst, s.stream src dst ≠ [] → src < R.procs ∧ dst = R.next src
  window : ∀ i < R.procs, Window (barrierOf R i) (s.link R i) (s.waits (R.next i)) (s.sends R i)

variable {R s} {s' : RingState}

theorem inv_start (R : Ring) : Inv R start where
  entered _ _ := rfl
  first := nofun
  last := nofun
  quiet _ _ h := absurd rfl h
  window i _ := by
    have hwaits : start.waits (R.next i) = 0 := Nat.zero_mul _
    have hsends : start.sends R i = 0 := Nat.zero_mul _
    rw [hwaits, hsends]
    exact ⟨Nat.le_refl 0, rfl⟩

/-- Beside one process nothing of the processes changes. -/
structure Local (R : Ring) (s s' : RingState) (i : ℕ) : Prop where
  others : ∀ j, j ≠ i → s'.phase j = s.phase j ∧ s'.entered j = s.entered j ∧
    s'.returned j = s.returned j
  entered : s'.entered i = s'.returned i + if s'.phase i = .outside then 0 else 1
  first : i = 0 → s'.phase i ≠ .firstWait
  last : i = R.procs - 1 → s'.phase i ≠ .secondSend

variable {i : ℕ}

theorem Local.waits_of_ne (h : Local R s s' i) {j : ℕ} (hj : j ≠ i) : s'.waits j = s.waits j := by
  obtain ⟨hphase, -, hreturned⟩ := h.others j hj
  unfold waits
  rw [hphase, hreturned]

theorem Local.sends_of_ne (h : Local R s s' i) {j : ℕ} (hj : j ≠ i) :
    s'.sends R j = s.sends R j := by
  obtain ⟨hphase, -, hreturned⟩ := h.others j hj
  unfold sends
  rw [hphase, hreturned]

/-- The invariant after a step of one process, but for the messages. -/
theorem Inv.local (h : Inv R s) (hlocal : Local R s s' i)
    (hquiet : ∀ src dst, s'.stream src dst ≠ [] → src < R.procs ∧ dst = R.next src)
    (hwindow : ∀ j < R.procs,
      Window (barrierOf R j) (s'.link R j) (s'.waits (R.next j)) (s'.sends R j)) : Inv R s' where
  entered j hj := by
    by_cases hji : j = i
    · rw [hji]
      exact hlocal.entered
    · obtain ⟨hphase, hentered, hreturned⟩ := hlocal.others j hji
      rw [hphase, hentered, hreturned]
      exact h.entered j hj
  first := by
    by_cases hi : 0 = i
    · exact hi ▸ hlocal.first hi.symm
    · rw [(hlocal.others 0 hi).1]
      exact h.first
  last := by
    by_cases hi : R.procs - 1 = i
    · exact hi ▸ hlocal.last hi.symm
    · rw [(hlocal.others _ hi).1]
      exact h.last
  quiet := hquiet
  window := hwindow

/-- A process that has not touched the messages. -/
theorem Inv.still (h : Inv R s) (hlocal : Local R s s' i) (hsem : s'.sem = s.sem)
    (hstream : s'.stream = s.stream) (hwaits : s'.waits i = s.waits i)
    (hsends : s'.sends R i = s.sends R i) : Inv R s' := by
  refine h.local hlocal (hstream ▸ h.quiet) fun j hj ↦ ?_
  have hw : s'.waits (R.next j) = s.waits (R.next j) := by
    by_cases heq : R.next j = i
    · rw [heq, hwaits]
    · exact hlocal.waits_of_ne heq
  have hs : s'.sends R j = s.sends R j := by
    by_cases heq : j = i
    · rw [heq, hsends]
    · exact hlocal.sends_of_ne heq
  unfold link
  rw [hw, hs, hsem, hstream]
  exact h.window j hj

/-- A process has waited for a message. -/
theorem Inv.waited (h : Inv R s) (hlocal : Local R s s' i) {n : ℕ} {rest : List ℕ}
    (hold : s.sem i = n :: rest) (hsem : s'.sem = Function.update s.sem i rest)
    (hstream : s'.stream = s.stream) (hwaits : s'.waits i = s.waits i + 1)
    (hsends : s'.sends R i = s.sends R i) : Inv R s' := by
  refine h.local hlocal (hstream ▸ h.quiet) fun j hj ↦ ?_
  have hs : s'.sends R j = s.sends R j := by
    by_cases heq : j = i
    · rw [heq, hsends]
    · exact hlocal.sends_of_ne heq
  have hwindow := h.window j hj
  unfold link at hwindow ⊢
  rw [hs, hsem, hstream]
  by_cases heq : R.next j = i
  · rw [heq] at hwindow ⊢
    rw [hold] at hwindow
    rw [update_self, hwaits]
    exact hwindow.pop
  · rw [update_of_ne heq, hlocal.waits_of_ne heq]
    exact hwindow

/-- A process has sent a message of its barrier. -/
theorem Inv.sent (h : Inv R s) (hi : i < R.procs) (hlocal : Local R s s' i)
    (hsem : s'.sem = s.sem) (hstream : s'.stream = (send R s i).stream)
    (hwaits : s'.waits i = s.waits i) (hsends : s'.sends R i = s.sends R i + 1)
    (htag : s.entered i = barrierOf R i (s.sends R i)) : Inv R s' := by
  have hself : s'.stream i (R.next i) = s.stream i (R.next i) ++ [s.entered i] := by
    rw [hstream]
    show Function.update s.stream i _ i (R.next i) = _
    rw [update_self, update_self]
  have hother : ∀ src dst, ¬ (src = i ∧ dst = R.next i) → s'.stream src dst = s.stream src dst := by
    intro src dst hne
    rw [hstream]
    show Function.update s.stream i _ src dst = _
    by_cases hsrc : src = i
    · subst hsrc
      rw [update_self, update_of_ne fun hdst ↦ hne ⟨rfl, hdst⟩]
    · rw [update_of_ne hsrc]
  refine h.local hlocal (fun src dst hne ↦ ?_) fun j hj ↦ ?_
  · by_cases hpair : src = i ∧ dst = R.next i
    · obtain ⟨rfl, rfl⟩ := hpair
      exact ⟨hi, rfl⟩
    · rw [hother src dst hpair] at hne
      exact h.quiet src dst hne
  · have hw : s'.waits (R.next j) = s.waits (R.next j) := by
      by_cases heq : R.next j = i
      · rw [heq, hwaits]
      · exact hlocal.waits_of_ne heq
    have hwindow := h.window j hj
    unfold link at hwindow ⊢
    rw [hw, hsem]
    by_cases heq : j = i
    · subst heq
      rw [hself, hsends, ← append_assoc, htag]
      exact hwindow.push
    · rw [hother j (R.next j) fun hpair ↦ heq hpair.1, hlocal.sends_of_ne heq]
      exact hwindow

/-! ### The steps -/

theorem phase_setPhase (s : RingState) (i : ℕ) (phase : Phase) :
    (s.setPhase i phase).phase i = phase := update_self ..

theorem waits_eq {phase : Phase} (h : s.phase i = phase) :
    s.waits i = s.returned i * waitsEach i + waitsIn i phase := by
  unfold waits
  rw [h]

theorem sends_eq {phase : Phase} (h : s.phase i = phase) :
    s.sends R i = s.returned i * sendsEach R i + sendsIn phase := by
  unfold sends
  rw [h]

theorem waitsEach_pos (i : ℕ) : 0 < waitsEach i := by
  unfold waitsEach
  split_ifs <;> decide

theorem Inv.call (h : Inv R s) (i : ℕ) :
    Outcome (s.call R i) (Inv R) fun fault ↦ fault = .disabled := by
  refine .require_bind (fun ⟨hi, houtside⟩ ↦ ?_) fun _ ↦ rfl
  have hphase : ∀ phase, ({ s with entered := Function.update s.entered i (s.entered i + 1) }.setPhase
      i phase).phase i = phase := fun phase ↦ phase_setPhase _ i phase
  have hentered := h.entered i hi
  rw [if_pos houtside] at hentered
  refine h.still (i := i) ⟨fun j hj ↦ ⟨update_of_ne hj .., update_of_ne hj .., rfl⟩,
    ?_, fun hzero ↦ ?_, fun _ ↦ ?_⟩ rfl rfl ?_ ?_
  · show Function.update s.entered i (s.entered i + 1) i = s.returned i + _
    have hinside : (if i ≠ 0 then Phase.firstWait else .firstSend) ≠ .outside := by
      split_ifs <;> exact nofun
    rw [hphase, if_neg hinside, update_self, hentered]
  · rw [hphase, if_neg (not_not.mpr hzero)]
    exact nofun
  · rw [hphase]
    split_ifs <;> exact nofun
  · rw [waits_eq houtside, waits_eq (hphase _)]
    refine congrArg (s.returned i * waitsEach i + ·) ?_
    by_cases hzero : i = 0
    · subst hzero
      rfl
    · rw [if_pos hzero]
      rfl
  · rw [sends_eq houtside, sends_eq (hphase _)]
    refine congrArg (s.returned i * sendsEach R i + ·) ?_
    split_ifs <;> rfl

theorem others_setPhase (s : RingState) (phase : Phase) {j : ℕ} (hj : j ≠ i) :
    (s.setPhase i phase).phase j = s.phase j := update_of_ne hj ..

section

variable (h : Inv R s) (hi : i < R.procs) (hinside : s.phase i ≠ .outside)

include h hi hinside

/-- In a barrier the call that a process makes is the one after those it has returned from. -/
theorem Inv.entered_of_inside : s.entered i = s.returned i + 1 := by
  rw [h.entered i hi, if_neg hinside]

/-- The message that a process sends in a barrier is numbered by that barrier. -/
theorem Inv.barrierOf_sends (hlt : sendsIn (s.phase i) < sendsEach R i) :
    s.entered i = barrierOf R i (s.sends R i) := by
  unfold barrierOf sends
  rw [h.entered_of_inside hi hinside, Nat.add_comm (s.returned i * _), Nat.add_mul_div_right _ _
    (Nat.zero_lt_of_lt hlt), Nat.div_eq_of_lt hlt, Nat.zero_add]

/-- A step inside a barrier changes the phase of one process. -/
theorem Inv.inside (s₁ : RingState)
    (hsame : s₁.phase = s.phase ∧ s₁.entered = s.entered ∧ s₁.returned = s.returned) (phase : Phase)
    (hphase : phase ≠ .outside) (hfirst : phase ≠ .firstWait)
    (hlast : i = R.procs - 1 → phase ≠ .secondSend) : Local R s (s₁.setPhase i phase) i := by
  refine ⟨fun j hj ↦ ⟨?_, congrFun hsame.2.1 j, congrFun hsame.2.2 j⟩, ?_, fun _ ↦ ?_, fun hi' ↦ ?_⟩
  · rw [others_setPhase _ _ hj, hsame.1]
  · rw [phase_setPhase, if_neg hphase]
    show s₁.entered i = s₁.returned i + 1
    rw [hsame.2.1, hsame.2.2]
    exact h.entered_of_inside hi hinside
  · rw [phase_setPhase]
    exact hfirst
  · rw [phase_setPhase]
    exact hlast hi'

/-- A step out of a barrier. -/
theorem Inv.outside {s₁ : RingState}
    (hsame : s₁.phase = s.phase ∧ s₁.entered = s.entered ∧ s₁.returned = s.returned) :
    Local R s (s₁.leave i) i := by
  refine ⟨fun j hj ↦ ⟨?_, congrFun hsame.2.1 j, ?_⟩, ?_, fun _ ↦ ?_, fun _ ↦ ?_⟩
  · show (s₁.setPhase i .outside).phase j = _
    rw [others_setPhase _ _ hj, hsame.1]
  · show Function.update s₁.returned i _ j = _
    rw [update_of_ne hj, hsame.2.2]
  · have hphase : (s₁.leave i).phase i = .outside := phase_setPhase s₁ i .outside
    rw [hphase, if_pos rfl]
    show s₁.entered i = Function.update s₁.returned i (s₁.returned i + 1) i
    rw [update_self, hsame.2.1, hsame.2.2]
    exact h.entered_of_inside hi hinside
  · exact (phase_setPhase s₁ i .outside).symm ▸ nofun
  · exact (phase_setPhase s₁ i .outside).symm ▸ nofun

end

theorem phase_leave (s : RingState) (i : ℕ) : (s.leave i).phase i = .outside :=
  phase_setPhase s i .outside

theorem returned_leave (s : RingState) (i : ℕ) : (s.leave i).returned i = s.returned i + 1 :=
  update_self ..

/-- A process outside has made all waits and sends of the barriers that it has returned from. -/
theorem waits_leave (s : RingState) (i : ℕ) :
    (s.leave i).waits i = s.returned i * waitsEach i + waitsEach i := by
  rw [waits_eq (phase_leave s i), returned_leave, Nat.succ_mul]
  rfl

theorem sends_leave (s : RingState) (i : ℕ) :
    (s.leave i).sends R i = s.returned i * sendsEach R i + sendsEach R i := by
  rw [sends_eq (phase_leave s i), returned_leave, Nat.succ_mul]
  rfl

theorem wait_spec (s : RingState) (i : ℕ) :
    Outcome (s.wait i) (fun s' ↦ ∃ n rest, s.sem i = n :: rest ∧ s' = s.setSem i rest)
      fun fault ↦ fault = .disabled := by
  unfold wait
  split
  · exact rfl
  · next n rest hsem => exact ⟨n, rest, hsem, rfl⟩

theorem Inv.advance (h : Inv R s) (i : ℕ) :
    Outcome (s.advance R i) (Inv R) fun fault ↦ fault = .disabled := by
  refine .require_bind (fun hi ↦ ?_) fun _ ↦ rfl
  have hpos := waitsEach_pos i
  cases hphase : s.phase i with
  | outside => exact rfl
  | firstWait =>
    refine (wait_spec s i).bind ?_
    rintro s₁ ⟨n, rest, hsem, rfl⟩
    have hzero : i ≠ 0 := fun hzero ↦ h.first (hzero ▸ hphase)
    have hlocal : Local R s ((s.setSem i rest).setPhase i .firstSend) i :=
      h.inside hi (hphase ▸ nofun) (s.setSem i rest) ⟨rfl, rfl, rfl⟩ .firstSend nofun nofun
        fun _ ↦ nofun
    refine h.waited hlocal hsem rfl rfl ?_ ?_
    · rw [waits_eq hphase, waits_eq (phase_setPhase _ i .firstSend)]
      show s.returned i * waitsEach i + (waitsEach i - 1) = s.returned i * waitsEach i + 0 + 1
      have htwo : waitsEach i = 2 := if_neg hzero
      rw [htwo]
    · rw [sends_eq hphase, sends_eq (phase_setPhase _ i .firstSend)]
      rfl
  | firstSend =>
    have hlocal : Local R s ((send R s i).setPhase i .secondWait) i :=
      h.inside hi (hphase ▸ nofun) (send R s i) ⟨rfl, rfl, rfl⟩ .secondWait nofun nofun
        fun _ ↦ nofun
    refine h.sent hi hlocal rfl rfl ?_ ?_ (h.barrierOf_sends hi (hphase ▸ nofun) ?_)
    · rw [waits_eq hphase, waits_eq (phase_setPhase _ i .secondWait)]
      rfl
    · rw [sends_eq hphase, sends_eq (phase_setPhase _ i .secondWait)]
      rfl
    · rw [hphase]
      unfold sendsEach
      split_ifs <;> decide
  | secondWait =>
    refine (wait_spec s i).bind ?_
    rintro s₁ ⟨n, rest, hsem, rfl⟩
    by_cases hlast : i = R.procs - 1
    · rw [if_neg (not_not.mpr hlast)]
      refine h.waited (h.outside hi (hphase ▸ nofun) ⟨rfl, rfl, rfl⟩) hsem rfl rfl ?_ ?_
      · rw [waits_eq hphase, waits_leave]
        show s.returned i * waitsEach i + waitsEach i =
          s.returned i * waitsEach i + (waitsEach i - 1) + 1
        omega
      · have hone : sendsEach R i = 1 := if_pos hlast
        rw [sends_eq hphase, sends_leave, hone]
        rfl
    · rw [if_pos hlast]
      have hlocal : Local R s ((s.setSem i rest).setPhase i .secondSend) i :=
        h.inside hi (hphase ▸ nofun) (s.setSem i rest) ⟨rfl, rfl, rfl⟩ .secondSend nofun nofun
          fun hi' ↦ absurd hi' hlast
      refine h.waited hlocal hsem rfl rfl ?_ ?_
      · rw [waits_eq hphase, waits_eq (phase_setPhase _ i .secondSend)]
        show s.returned i * waitsEach i + waitsEach i =
          s.returned i * waitsEach i + (waitsEach i - 1) + 1
        omega
      · rw [sends_eq hphase, sends_eq (phase_setPhase _ i .secondSend)]
        rfl
  | secondSend =>
    have hlast : i ≠ R.procs - 1 := fun hlast ↦ h.last (hlast ▸ hphase)
    have htwo : sendsEach R i = 2 := if_neg hlast
    refine h.sent hi (h.outside hi (hphase ▸ nofun) ⟨rfl, rfl, rfl⟩) rfl rfl ?_ ?_
      (h.barrierOf_sends hi (hphase ▸ nofun) ?_)
    · rw [waits_eq hphase, waits_leave]
      rfl
    · rw [sends_eq hphase, sends_leave, htwo]
      rfl
    · rw [hphase, htwo]
      decide

/-- The update thread moves a message from the stream to the semaphore. -/
theorem Inv.update (h : Inv R s) (src dst : ℕ) :
    Outcome (s.update R src dst) (Inv R) fun fault ↦ fault = .disabled := by
  unfold RingState.update
  split
  · exact rfl
  · next n rest hstream =>
    obtain ⟨hsrc, rfl⟩ := h.quiet src dst (hstream ▸ nofun)
    rw [if_pos (Ring.prev_next hsrc).symm]
    refine ⟨h.entered, h.first, h.last, fun src' dst' hne ↦ ?_, fun j hj ↦ ?_⟩
    · have hne' : Function.update s.stream src (Function.update (s.stream src) (R.next src) rest)
          src' dst' ≠ [] := hne
      by_cases hsrc' : src' = src
      · subst hsrc'
        rw [update_self] at hne'
        by_cases hdst' : dst' = R.next src'
        · exact ⟨hsrc, hdst'⟩
        · rw [update_of_ne hdst'] at hne'
          exact h.quiet src' dst' hne'
      · rw [update_of_ne hsrc'] at hne'
        exact h.quiet src' dst' hne'
    · have hwindow := h.window j hj
      show Window _ (Function.update s.sem (R.next src) (s.sem (R.next src) ++ [n]) (R.next j) ++
        Function.update s.stream src (Function.update (s.stream src) (R.next src) rest) j (R.next j))
        (s.waits (R.next j)) (s.sends R j)
      by_cases hjsrc : j = src
      · subst hjsrc
        unfold link at hwindow
        rw [hstream] at hwindow
        rw [update_self, update_self, update_self, append_assoc]
        exact hwindow
      · have hnext : R.next j ≠ R.next src := fun heq ↦ hjsrc (Ring.next_inj hj hsrc heq)
        rw [update_of_ne hnext, update_of_ne hjsrc]
        exact hwindow

theorem Reached.inv (hs : Reached R s) : Inv R s := by
  refine Machine.Reached.invariant hs (inv_start R) fun s e s' hinv _ hstep ↦ ?_
  cases e with
  | call i => exact (hinv.call i).of_eq_ok hstep
  | advance i => exact (hinv.advance i).of_eq_ok hstep
  | update src dst => exact (hinv.update src dst).of_eq_ok hstep

end RingState

end CarbonSim.Transport
