import CarbonSim.Sync.Lines
import CarbonSim.Sync.ObjectInit

/-!
# Barriers release their cores in groups

A server with several barriers handles wait messages. The arrivals at a barrier of count `n` are cut
into consecutive groups of `n`. When a group is complete each of its cores is sent one reply with
the latest time of the group, and nothing else is sent.
-/

namespace CarbonSim.Sync

open Function List

variable {Core : Type}

/-- A wait message with the replies to it. -/
structure Wait (Core : Type) where
  core : Core
  time : ℕ
  barrier : ℕ
  replies : List (Core × Response)

/-- The arrivals at a barrier, each with its time. -/
def arrivals (i : ℕ) (trace : List (Wait Core)) : List (Core × ℕ) :=
  (trace.filter (·.barrier = i)).map fun w ↦ (w.core, w.time)

/-- What is sent to the cores that wait at a barrier. -/
def sent (i : ℕ) (trace : List (Wait Core)) : List (Core × Response) :=
  (trace.filter (·.barrier = i)).flatMap Wait.replies

def latest (group : List (Core × ℕ)) : ℕ := group.foldl (fun time a ↦ max time a.2) 0

/-- One reply to each core of a group, with the latest time of the group. -/
def answers (group : List (Core × ℕ)) : List (Core × Response) :=
  group.map fun a ↦ (a.1, .barrierWait (latest group))

/-- The arrivals are groups of `n` cores, to which the answers were sent, and `current`. -/
structure Cut (n : ℕ) (arrived : List (Core × ℕ)) (sent : List (Core × Response))
    (groups : List (List (Core × ℕ))) (current : List (Core × ℕ)) : Prop where
  arrived_eq : arrived = groups.flatten ++ current
  complete : ∀ group ∈ groups, group.length = n ∧ (group.map Prod.fst).Nodup
  sent_eq : sent = groups.flatMap answers

variable [DecidableEq Core]

/-! ### Threads -/

variable {t : ThreadTable Core} {waits : Core → Prop} {core : Core}

theorem Stalls.resumeEach (h : Stalls t waits) {l : List Core} (hnodup : l.Nodup)
    (hl : ∀ c ∈ l, waits c) :
    ∃ t', Objects.resumeEach t l = .ok t' ∧ Stalls t' fun c ↦ waits c ∧ c ∉ l := by
  induction l generalizing t waits with
  | nil => exact ⟨t, rfl, by simpa using h⟩
  | cons core rest ih =>
    obtain ⟨hnot, hnodup⟩ := nodup_cons.mp hnodup
    obtain ⟨t₁, hresume, ht₁⟩ := h.resume (hl core mem_cons_self)
    obtain ⟨t', hrest, ht'⟩ := ih ht₁ hnodup fun c hc ↦
      ⟨hl c (mem_cons_of_mem _ hc), fun heq ↦ hnot (heq ▸ hc)⟩
    refine ⟨t', ?_, ht'.congr fun c ↦ by simp [and_assoc]⟩
    rw [Objects.resumeEach, hresume]
    exact hrest

/-! ### One barrier -/

/-- The cores of the group that is not complete wait at the barrier. -/
def Collects (n : ℕ) (b : SimBarrier Core) (arrived : List (Core × ℕ))
    (sent : List (Core × Response)) : Prop :=
  ∃ groups current, Cut n arrived sent groups current ∧ b.count = n ∧
    b.waiting = current.map Prod.fst ∧ b.waiting.Nodup ∧ (0 < n → current.length < n) ∧
    (current ≠ [] → b.maxTime = latest current)

/-- A core that runs arrives at the barrier. -/
theorem Collects.waitAt {n : ℕ} {b : SimBarrier Core} {arrived : List (Core × ℕ)}
    {sent : List (Core × Response)} (h : Collects n b arrived sent) (hpos : 0 < n)
    (ht : Stalls t waits) (hb : ∀ c ∈ b.waiting, waits c) (hcore : ¬ waits core) (time : ℕ) :
    ∃ woken b' t', Objects.waitAt b t core time = .ok (woken, b', t') ∧
      Collects n b' (arrived ++ [(core, time)])
        (sent ++ woken.map fun c ↦ (c, .barrierWait b'.maxTime)) ∧
      (∀ c ∈ b'.waiting, c = core ∨ c ∈ b.waiting) ∧
      Stalls t' fun c ↦ c ∈ b'.waiting ∨ waits c ∧ c ∉ b.waiting := by
  obtain ⟨groups, current, ⟨rfl, hgroups, rfl⟩, rfl, hwaiting, hnodup, hshort, hmax⟩ := h
  obtain ⟨t₁, hstall, ht₁⟩ := ht.stall hcore
  have hcores : b.waiting ++ [core] = (current ++ [(core, time)]).map Prod.fst := by
    rw [hwaiting, map_append]
    rfl
  have hnodup' : (b.waiting ++ [core]).Nodup := nodup_append.mpr ⟨hnodup, by simp, by grind⟩
  have hlength : (b.waiting ++ [core]).length = (current ++ [(core, time)]).length := by
    rw [hcores, length_map]
  have htime : (if (b.waiting ++ [core]).length = 1 then time else max b.maxTime time) =
      latest (current ++ [(core, time)]) := by
    rw [hlength, latest, foldl_append]
    by_cases hnil : current = []
    · simp [hnil]
    · rw [if_neg (by simpa using hnil), hmax hnil]
      rfl
  have hle : (current ++ [(core, time)]).length ≤ b.count := by
    rw [length_append]
    exact hshort hpos
  unfold Objects.waitAt
  simp only [hstall, htime, Except.mapError, bind, Except.bind, require]
  rw [hlength, if_pos hle]
  by_cases hfull : (current ++ [(core, time)]).length = b.count
  · obtain ⟨t₂, hresume, ht₂⟩ := ht₁.resumeEach hnodup' (by grind)
    refine ⟨b.waiting ++ [core], ⟨[], b.count, latest (current ++ [(core, time)])⟩, t₂, ?_,
      ⟨groups ++ [current ++ [(core, time)]], [], ⟨by simp, ?_, ?_⟩, rfl, rfl, .nil, id, by simp⟩,
      by simp, ?_⟩
    · rw [if_pos hfull, hresume]
      rfl
    · rw [forall_mem_append, forall_mem_singleton]
      exact ⟨hgroups, hfull, hcores ▸ hnodup'⟩
    · rw [flatMap_append, hcores, map_map]
      simp [answers]
    · exact ht₂.congr (by grind)
  · refine ⟨[], ⟨b.waiting ++ [core], b.count, latest (current ++ [(core, time)])⟩, t₁, ?_,
      ⟨groups, current ++ [(core, time)], ⟨by simp, hgroups, by simp⟩, rfl, hcores, hnodup',
        fun _ ↦ Nat.lt_of_le_of_ne hle hfull, fun _ ↦ rfl⟩, by simp [or_comm], ?_⟩
    · rw [if_neg hfull]
      rfl
    · exact ht₁.congr (by grind)

/-! ### Runs -/

/-- The core waits at a barrier of the server. -/
def Objects.Waits (s : Objects Core) (c : Core) : Prop :=
  ∃ i < s.barriers.size, c ∈ (s.barriers.get i).waiting

/-- Wait messages from a state on. No core waits again before it is released. -/
inductive WaitRun (s₀ : Objects Core) : List (Wait Core) → Objects Core → Prop
  | start : WaitRun s₀ [] s₀
  | step {trace : List (Wait Core)} {s s' : Objects Core} (hrun : WaitRun s₀ trace s)
      (w : Wait Core) (hcore : ¬ s.Waits w.core)
      (hcall : s.barrierWait w.core w.time w.barrier = .ok (s', w.replies)) :
      WaitRun s₀ (trace ++ [w]) s'

variable {s₀ s : Objects Core} {trace : List (Wait Core)}

structure Collected (s₀ : Objects Core) (trace : List (Wait Core)) (s : Objects Core) : Prop where
  size : s.barriers.size = s₀.barriers.size
  barrier : ∀ i < s.barriers.size,
    Collects (s₀.barriers.get i).count (s.barriers.get i) (arrivals i trace) (sent i trace)
  alone : ∀ i < s.barriers.size, ∀ j < s.barriers.size, ∀ c ∈ (s.barriers.get i).waiting,
    c ∈ (s.barriers.get j).waiting → i = j
  threads : Stalls s.server.threads s.Waits

/-- A wait message at a barrier that accepts a core. -/
theorem Collected.wait (h : Collected s₀ trace s) (core : Core) (time : ℕ) {i : ℕ}
    (hi : i < s.barriers.size) (hpos : 0 < (s₀.barriers.get i).count) (hcore : ¬ s.Waits core) :
    ∃ s' replies, s.barrierWait core time i = .ok (s', replies) ∧
      Collected s₀ (trace ++ [⟨core, time, i, replies⟩]) s' := by
  obtain ⟨woken, b, t, hwait, hcollects, hmem, ht⟩ :=
    (h.barrier i hi).waitAt hpos h.threads (fun c hc ↦ ⟨i, hi, hc⟩) hcore time
  let s' : Objects Core :=
    { s with
      barriers := { s.barriers with get := update s.barriers.get i b }
      server := { s.server with threads := t } }
  have hget (j : ℕ) : s'.barriers.get j = if j = i then b else s.barriers.get j := update_apply ..
  have hsize : s'.barriers.size = s.barriers.size := rfl
  have halone := h.alone
  have hwaits (c : Core) :
      s'.Waits c ↔ c ∈ b.waiting ∨ s.Waits c ∧ c ∉ (s.barriers.get i).waiting := by
    simp only [Objects.Waits, hget, hsize]
    grind
  refine ⟨s', woken.map fun c ↦ (c, .barrierWait b.maxTime), ?_, h.size, fun j hj ↦ ?_,
    fun j hj k hk c hc hc' ↦ ?_, ht.congr hwaits⟩
  · simp only [Objects.barrierWait, require, if_pos hi, hwait, bind, Except.bind]
    rfl
  · rw [hget]
    split_ifs with hji
    · simpa [hji, arrivals, sent] using hcollects
    · simpa [arrivals, sent, Ne.symm hji] using h.barrier j hj
  · unfold Objects.Waits at hcore
    grind

/-- A message that is handled names a barrier of count at least one. -/
theorem barrierWait_yields (s : Objects Core) (core : Core) (time i : ℕ) :
    Yields (s.barrierWait core time i)
      fun _ ↦ i < s.barriers.size ∧ 0 < (s.barriers.get i).count := by
  refine .check fun hi ↦ .bind (m := fun _ ↦ 0 < (s.barriers.get i).count) ?_
    fun _ hpos ↦ ⟨hi, hpos⟩
  refine Yields.skip fun t ↦ Yields.check fun hlength ↦
    Outcome.unknown.imp (fun _ _ ↦ ?_)
  have hone : (s.barriers.get i).waiting.length + 1 ≤ (s.barriers.get i).count := by
    simpa using hlength
  omega

theorem WaitRun.collected (hrunning : ∀ c, s₀.server.threads.status c = .running)
    (hquiet : ∀ i < s₀.barriers.size, (s₀.barriers.get i).waiting = []) (h : WaitRun s₀ trace s) :
    Collected s₀ trace s := by
  induction h with
  | start =>
    have hwaits (c : Core) : ¬ s₀.Waits c := by
      rintro ⟨i, hi, hc⟩
      simp [hquiet i hi] at hc
    exact ⟨rfl, fun i hi ↦ ⟨[], [], ⟨rfl, nofun, rfl⟩, rfl, hquiet i hi, by simp [hquiet i hi], id,
      nofun⟩, fun i hi _ _ c hc ↦ absurd ⟨i, hi, hc⟩ (hwaits c), fun c ↦
        ⟨fun hc ↦ absurd hc (hwaits c), fun _ ↦ hrunning c⟩⟩
  | @step trace s s' _ w hcore hcall ih =>
    obtain ⟨hi, hpos⟩ := (barrierWait_yields ..).of_eq_ok hcall
    obtain ⟨-, -, -, hcount, -⟩ := ih.barrier _ hi
    rw [hcount] at hpos
    obtain ⟨s₁, replies, hcall₁, hcollected⟩ := ih.wait w.core w.time hi hpos hcore
    rw [hcall] at hcall₁
    cases hcall₁
    exact hcollected

/-- Starting with empty barriers and running threads, a wait message at a barrier of count `n ≥ 1`
never fails; the arrivals are cut into groups of `n` different cores, and what has been sent are the
answers of the complete groups, in every state of the run. -/
theorem barrier_releases_groups (hrunning : ∀ c, s₀.server.threads.status c = .running)
    (hquiet : ∀ i < s₀.barriers.size, (s₀.barriers.get i).waiting = []) (h : WaitRun s₀ trace s)
    (i : ℕ) (hi : i < s₀.barriers.size) (hcount : 1 ≤ (s₀.barriers.get i).count) :
    (∃ groups current,
      Cut (s₀.barriers.get i).count (arrivals i trace) (sent i trace) groups current ∧
        current.length < (s₀.barriers.get i).count) ∧
    ∀ core time, ¬ s.Waits core → ∃ r, s.barrierWait core time i = .ok r := by
  have hcollected := h.collected hrunning hquiet
  rw [← hcollected.size] at hi
  obtain ⟨groups, current, hcut, -, -, -, hshort, -⟩ := hcollected.barrier i hi
  refine ⟨⟨groups, current, hcut, hshort hcount⟩, fun core time hcore ↦ ?_⟩
  obtain ⟨s', replies, hcall, -⟩ := hcollected.wait core time hi hcount hcore
  exact ⟨_, hcall⟩

/-- One barrier for two cores. -/
def twoCores : Objects (Fin 2) := ⟨.initial 0 0, 0, 0, ⟨fun _ ↦ ⟨[], 2, 0⟩, 1, 1⟩⟩

/-- One core arrives at time 5 and the other at time 3, when the group is complete. -/
def pairWaits (first second : Core) : List (Wait Core) :=
  [⟨first, 5, 0, []⟩, ⟨second, 3, 0, [(first, .barrierWait 5), (second, .barrierWait 5)]⟩]

/-- Both cores are sent the later time, and either can wait again. -/
theorem barrier_releases_groups_pair : ∃ s groups current, WaitRun twoCores (pairWaits 0 1) s ∧
    Cut 2 [((0 : Fin 2), 5), (1, 3)] [(0, .barrierWait 5), (1, .barrierWait 5)] groups current ∧
    current.length < 2 ∧ ∃ r, s.barrierWait 1 8 0 = .ok r := by
  have hfirst : WaitRun twoCores [⟨0, 5, 0, []⟩] _ :=
    .step .start ⟨0, 5, 0, []⟩ (by rintro ⟨i, -, hc⟩; cases hc) rfl
  have hrun : WaitRun twoCores (pairWaits 0 1) _ :=
    .step hfirst ⟨1, 3, 0, [(0, .barrierWait 5), (1, .barrierWait 5)]⟩ (by
      rintro ⟨i, hi, hc⟩
      obtain rfl : i = 0 := Nat.lt_one_iff.mp hi
      exact absurd hc (by decide)) rfl
  obtain ⟨⟨groups, current, hcut, hshort⟩, hnext⟩ :=
    barrier_releases_groups (fun _ ↦ rfl) (fun _ _ ↦ rfl) hrun 0 (by decide) (by decide)
  refine ⟨_, groups, current, hrun, hcut, hshort, hnext 1 8 ?_⟩
  rintro ⟨i, hi, hc⟩
  obtain rfl : i = 0 := Nat.lt_one_iff.mp hi
  cases hc

end CarbonSim.Sync
