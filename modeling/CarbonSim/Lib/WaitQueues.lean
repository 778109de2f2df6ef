import Mathlib.Data.List.Rotate

/-!
# Queues of sleepers

A family of queues in which each sleeper stands once. Sleepers join a queue at its tail, leave it
from its head, and are moved from the head of one queue to the tail of another. What these moves do
is stated for several sleepers at once and for one sleeper after another.
-/

namespace CarbonSim.WaitQueues

open Function List

variable {Q C : Type} {rest : List C}

/-- No sleeper stands in two queues, or twice in one. -/
structure Apart (qs : Q → List C) : Prop where
  nodup : ∀ q, (qs q).Nodup
  unique : ∀ {q q' c}, c ∈ qs q → c ∈ qs q' → q = q'

/-- The sleeper stands in some queue. -/
def Asleep (qs : Q → List C) (c : C) : Prop := ∃ q, c ∈ qs q

variable [DecidableEq Q]

/-- A sleeper joins a queue. -/
def push (qs : Q → List C) (q : Q) (c : C) : Q → List C := update qs q (qs q ++ [c])

/-- The first sleepers of a queue leave it. -/
def pop (qs : Q → List C) (q : Q) (n : ℕ) : Q → List C := update qs q ((qs q).drop n)

/-- The first sleepers of a queue are moved behind those of another. -/
def move (qs : Q → List C) (q q' : Q) (n : ℕ) : Q → List C :=
  update (pop qs q n) q' (qs q' ++ (qs q).take n)

/-- The first sleepers of a queue are moved one after another to its own tail. -/
def spin (qs : Q → List C) (q : Q) (n : ℕ) : Q → List C := update qs q ((qs q).rotate n)

variable {qs : Q → List C} {q q' : Q} {c d : C} {n : ℕ}

theorem push_self (qs : Q → List C) (q : Q) (c : C) : push qs q c q = qs q ++ [c] :=
  update_self ..

theorem push_of_ne (h : q' ≠ q) : push qs q c q' = qs q' := update_of_ne h _ _

theorem pop_self (qs : Q → List C) (q : Q) (n : ℕ) : pop qs q n q = (qs q).drop n :=
  update_self ..

theorem pop_of_ne (h : q' ≠ q) : pop qs q n q' = qs q' := update_of_ne h _ _

theorem move_target (qs : Q → List C) (q q' : Q) (n : ℕ) :
    move qs q q' n q' = qs q' ++ (qs q).take n :=
  update_self ..

theorem move_source (h : q ≠ q') : move qs q q' n q = (qs q).drop n := by
  rw [move, update_of_ne h, pop_self]

theorem move_of_ne {j : Q} (h : j ≠ q) (h' : j ≠ q') : move qs q q' n j = qs j := by
  rw [move, update_of_ne h', pop_of_ne h]

@[simp] theorem pop_zero : pop qs q 0 = qs := by
  rw [pop, drop_zero, update_eq_self]

/-- Nobody is left to leave an empty queue. -/
theorem pop_of_eq_nil (h : qs q = []) : pop qs q n = qs := by
  rw [pop, h, drop_nil, ← h, update_eq_self]

theorem move_of_eq_nil (h : qs q = []) : move qs q q' n = qs := by
  rw [move, pop_of_eq_nil h, h, take_nil, append_nil, update_eq_self]

@[simp] theorem move_zero : move qs q q' 0 = qs := by
  rw [move, pop_zero, take_zero, append_nil, update_eq_self]

/-- One sleeper leaves, and then the others. -/
theorem pop_pop (qs : Q → List C) (q : Q) (n : ℕ) : pop (pop qs q 1) q n = pop qs q (n + 1) := by
  rw [pop, pop_self, drop_drop, pop, update_idem, pop, Nat.add_comm]

/-- One sleeper is moved, and then the others. -/
theorem move_push_pop (h : q ≠ q') (hq : qs q = c :: rest) :
    move (push (pop qs q 1) q' c) q q' n = move qs q q' (n + 1) := by
  have hsource : push (pop qs q 1) q' c q = rest := by
    rw [push_of_ne h, pop_self, hq]
    rfl
  funext j
  by_cases hj' : j = q'
  · subst hj'
    rw [move_target, move_target, hsource, push_self, pop_of_ne (Ne.symm h), hq,
      take_succ_cons, append_assoc]
    rfl
  · by_cases hj : j = q
    · subst hj
      rw [move_source h, move_source h, hsource, hq, drop_succ_cons]
    · rw [move_of_ne hj hj', move_of_ne hj hj', push_of_ne hj', pop_of_ne hj]

theorem spin_self (qs : Q → List C) (q : Q) (n : ℕ) : spin qs q n q = (qs q).rotate n :=
  update_self ..

theorem spin_of_ne (h : q' ≠ q) : spin qs q n q' = qs q' := update_of_ne h _ _

@[simp] theorem spin_zero : spin qs q 0 = qs := by
  rw [spin, rotate_zero, update_eq_self]

theorem spin_of_eq_nil (h : qs q = []) : spin qs q n = qs := by
  rw [spin, h, rotate_nil, ← h, update_eq_self]

/-- One sleeper goes to the tail, and then the others. -/
theorem spin_push_pop (hq : qs q = c :: rest) :
    spin (push (pop qs q 1) q c) q n = spin qs q (n + 1) := by
  have hself : push (pop qs q 1) q c q = rest ++ [c] := by
    rw [push_self, pop_self, hq]
    rfl
  funext j
  by_cases hj : j = q
  · subst hj
    rw [spin_self, spin_self, hself, hq, rotate_cons_succ]
  · rw [spin_of_ne hj, spin_of_ne hj, push_of_ne hj, pop_of_ne hj]

/-! ### Each sleeper stands once -/

theorem mem_push : d ∈ push qs q c q' ↔ d ∈ qs q' ∨ (q' = q ∧ d = c) := by
  by_cases hq : q' = q
  · subst hq
    simp [push_self]
  · simp [push_of_ne hq, hq]

theorem asleep_push : Asleep (push qs q c) d ↔ Asleep qs d ∨ d = c := by
  constructor
  · rintro ⟨q', hd⟩
    rcases mem_push.mp hd with hd | hd
    · exact .inl ⟨q', hd⟩
    · exact .inr hd.2
  · rintro (⟨q', hd⟩ | hd)
    · exact ⟨q', mem_push.mpr (.inl hd)⟩
    · exact ⟨q, mem_push.mpr (.inr ⟨rfl, hd⟩)⟩

theorem asleep_spin : Asleep (spin qs q n) d ↔ Asleep qs d := by
  refine exists_congr fun q' ↦ ?_
  by_cases hq : q' = q
  · subst hq
    rw [spin_self, mem_rotate]
  · rw [spin_of_ne hq]

/-- Those who are moved sleep on. -/
theorem asleep_move (h : q ≠ q') : Asleep (move qs q q' n) d ↔ Asleep qs d := by
  constructor
  · rintro ⟨j, hd⟩
    by_cases hj' : j = q'
    · subst hj'
      rw [move_target, mem_append] at hd
      rcases hd with hd | hd
      · exact ⟨j, hd⟩
      · exact ⟨q, mem_of_mem_take hd⟩
    · by_cases hj : j = q
      · subst hj
        rw [move_source h] at hd
        exact ⟨j, mem_of_mem_drop hd⟩
      · rw [move_of_ne hj hj'] at hd
        exact ⟨j, hd⟩
  · rintro ⟨j, hd⟩
    by_cases hj : j = q
    · subst hj
      rw [← take_append_drop n (qs j), mem_append] at hd
      rcases hd with hd | hd
      · exact ⟨q', by rw [move_target]; exact mem_append_right _ hd⟩
      · exact ⟨j, by rwa [move_source h]⟩
    · by_cases hj' : j = q'
      · subst hj'
        exact ⟨j, by rw [move_target]; exact mem_append_left _ hd⟩
      · exact ⟨j, by rwa [move_of_ne hj hj']⟩

theorem Apart.push (h : Apart qs) (hc : ¬ Asleep qs c) : Apart (push qs q c) where
  nodup := by
    intro q'
    by_cases hq : q' = q
    · subst hq
      rw [push_self]
      exact (h.nodup q').append (nodup_singleton c) fun d hd hdc ↦
        hc ⟨q', mem_singleton.mp hdc ▸ hd⟩
    · rw [push_of_ne hq]
      exact h.nodup q'
  unique := by
    intro q₁ q₂ d h₁ h₂
    rw [mem_push] at h₁ h₂
    rcases h₁ with h₁ | ⟨hq₁, rfl⟩
    · rcases h₂ with h₂ | ⟨hq₂, rfl⟩
      · exact h.unique h₁ h₂
      · exact absurd ⟨q₁, h₁⟩ hc
    · rcases h₂ with h₂ | ⟨hq₂, -⟩
      · exact absurd ⟨q₂, h₂⟩ hc
      · rw [hq₁, hq₂]

/-- The sleepers left are those that were not among the first. -/
theorem Apart.mem_pop (h : Apart qs) :
    d ∈ WaitQueues.pop qs q n q' ↔ d ∈ qs q' ∧ d ∉ (qs q).take n := by
  by_cases hq : q' = q
  · subst hq
    rw [pop_self]
    have hnodup := h.nodup q'
    rw [← take_append_drop n (qs q')] at hnodup
    constructor
    · intro hd
      exact ⟨mem_of_mem_drop hd, fun ht ↦ (nodup_append'.mp hnodup).2.2 ht hd⟩
    · rintro ⟨hd, ht⟩
      rw [← take_append_drop n (qs q')] at hd
      exact (mem_append.mp hd).resolve_left ht
  · rw [pop_of_ne hq]
    constructor
    · exact fun hd ↦ ⟨hd, fun ht ↦ hq (h.unique hd (mem_of_mem_take ht))⟩
    · exact fun hd ↦ hd.1

theorem Apart.asleep_pop (h : Apart qs) :
    Asleep (WaitQueues.pop qs q n) d ↔ Asleep qs d ∧ d ∉ (qs q).take n := by
  constructor
  · rintro ⟨q', hd⟩
    obtain ⟨hd, ht⟩ := h.mem_pop.mp hd
    exact ⟨⟨q', hd⟩, ht⟩
  · rintro ⟨⟨q', hd⟩, ht⟩
    exact ⟨q', h.mem_pop.mpr ⟨hd, ht⟩⟩

theorem Apart.pop (h : Apart qs) : Apart (WaitQueues.pop qs q n) where
  nodup := by
    intro q'
    by_cases hq : q' = q
    · subst hq
      rw [pop_self]
      exact (h.nodup q').sublist (drop_sublist n _)
    · rw [pop_of_ne hq]
      exact h.nodup q'
  unique := fun h₁ h₂ ↦ h.unique (h.mem_pop.mp h₁).1 (h.mem_pop.mp h₂).1

/-- Those who leave a queue and then another one, which may be the same, are different. -/
theorem Apart.nodup_take (h : Apart qs) (q q' : Q) (n m : ℕ) :
    ((qs q).take n ++ (WaitQueues.pop qs q n q').take m).Nodup := by
  refine ((h.nodup q).sublist (take_sublist n _)).append
    ((h.pop.nodup q').sublist (take_sublist m _)) fun c hc hc' ↦ ?_
  exact (h.mem_pop.mp (mem_of_mem_take hc')).2 hc

/-- The first of a queue has left it. -/
theorem Apart.not_asleep_pop (h : Apart qs) (hq : qs q = c :: rest) :
    ¬ Asleep (WaitQueues.pop qs q 1) c := by
  rw [h.asleep_pop, hq]
  simp

end CarbonSim.WaitQueues
