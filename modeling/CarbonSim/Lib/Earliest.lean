import Mathlib.Data.List.Basic

/-!
# The earliest entry of a queue

The entries of a queue have times, and some of them are wanted. A scan from the front finds the
wanted entry with the smallest time, of several the one nearest to the front. If it is taken out
again and again until one is good, then what is taken out besides the good one are the wanted
entries that come before it in this order.
-/

namespace CarbonSim.Earliest

open List

variable {α : Type} (wanted good : α → Bool) (time : α → ℕ)

/-- The entry between two parts of a queue is the earliest wanted one. -/
structure First (before : List α) (x : α) (after : List α) : Prop where
  isWanted : wanted x = true
  lt : ∀ y ∈ before, wanted y = true → time x < time y
  le : ∀ y ∈ after, wanted y = true → time x ≤ time y

/-- The better one of the best entry so far and the entry at a position behind it. -/
def closer (best : Option (ℕ × α)) (i : ℕ) (x : α) : Option (ℕ × α) :=
  match best with
  | none => some (i, x)
  | some (j, y) => if time y > time x then some (i, x) else some (j, y)

/-- Go through a queue whose first entry has the position. -/
def scan : ℕ → Option (ℕ × α) → List α → Option (ℕ × α)
  | _, best, [] => best
  | i, best, x :: rest => scan (i + 1) (if wanted x then closer time best i x else best) rest

/-- The best entry of a list, with its position. -/
def IsBest (seen : List α) : Option (ℕ × α) → Prop
  | none => ∀ y ∈ seen, wanted y = false
  | some (j, x) => ∃ before after, seen = before ++ x :: after ∧ before.length = j ∧
      First wanted time before x after

variable {wanted good time} {seen before after : List α} {best : Option (ℕ × α)} {x : α}

/-- The same entry again is not better. -/
theorem closer_closer (best : Option (ℕ × α)) (i : ℕ) (x : α) :
    closer time (closer time best i x) i x = closer time best i x := by
  rcases best with _ | ⟨j, y⟩
  · simp [closer]
  · by_cases h : time y > time x
    all_goals simp [closer, h]

/-- An entry that is not wanted, or later, changes nothing. -/
theorem First.snoc (h : First wanted time before x after) {y : α}
    (hy : wanted y = true → time x ≤ time y) : First wanted time before x (after ++ [y]) where
  isWanted := h.isWanted
  lt := h.lt
  le := by
    intro z hz hwanted
    rcases mem_append.mp hz with hz | hz
    · exact h.le z hz hwanted
    · rw [mem_singleton.mp hz] at hwanted ⊢
      exact hy hwanted

/-- An entry that is earlier than the best one is the best one. -/
theorem First.better (h : First wanted time before x after) {y : α} (hy : wanted y = true)
    (hlt : time y < time x) : First wanted time (before ++ x :: after) y [] where
  isWanted := hy
  lt := by
    intro z hz hwanted
    rcases mem_append.mp hz with hz | hz
    · exact Nat.lt_trans hlt (h.lt z hz hwanted)
    · rcases mem_cons.mp hz with rfl | hz
      · exact hlt
      · exact Nat.lt_of_lt_of_le hlt (h.le z hz hwanted)
  le := nofun

theorem IsBest.snoc (h : IsBest wanted time seen best) (y : α) :
    IsBest wanted time (seen ++ [y]) (if wanted y then closer time best seen.length y else best) := by
  rcases best with _ | ⟨j, x⟩
  · by_cases hy : wanted y = true
    · rw [if_pos hy]
      refine ⟨seen, [], rfl, rfl, hy, fun z hz hwanted ↦ ?_, nofun⟩
      rw [h z hz] at hwanted
      cases hwanted
    · rw [if_neg hy]
      intro z hz
      rcases mem_append.mp hz with hz | hz
      · exact h z hz
      · rw [mem_singleton.mp hz]
        exact Bool.eq_false_iff.mpr hy
  · obtain ⟨before, after, rfl, hlength, hfirst⟩ := h
    have hkeep (hle : wanted y = true → time x ≤ time y) :
        IsBest wanted time ((before ++ x :: after) ++ [y]) (some (j, x)) :=
      ⟨before, after ++ [y], by simp, hlength, hfirst.snoc hle⟩
    by_cases hy : wanted y = true
    · rw [if_pos hy, closer]
      by_cases hlt : time x > time y
      · rw [if_pos hlt]
        exact ⟨before ++ x :: after, [], rfl, rfl, hfirst.better hy hlt⟩
      · rw [if_neg hlt]
        exact hkeep fun _ ↦ Nat.le_of_not_lt hlt
    · rw [if_neg hy]
      exact hkeep fun hy' ↦ absurd hy' hy

theorem IsBest.scan (h : IsBest wanted time seen best) (rest : List α) :
    IsBest wanted time (seen ++ rest) (scan wanted time seen.length best rest) := by
  induction rest generalizing seen best with
  | nil =>
    rw [append_nil]
    exact h
  | cons y rest ih =>
    have hnext := ih (h.snoc y)
    rw [append_assoc, length_append] at hnext
    exact hnext

theorem isBest_scan (queue : List α) :
    IsBest wanted time queue (Earliest.scan wanted time 0 none queue) := by
  have hnone : IsBest wanted time [] none := by simp [IsBest]
  exact hnone.scan queue

/-! ### Taking entries out until one is good -/

variable (wanted good time) in
/-- An entry of a queue is the earliest that is wanted and good, and the wanted entries that come
before it are gone with it. -/
def Selected (queue : List α) (x : α) (rest : List α) : Prop :=
  ∃ before after, queue = before ++ x :: after ∧
    First (fun y ↦ wanted y && good y) time before x after ∧
    rest = before.filter (fun y ↦ !(wanted y && decide (time y ≤ time x))) ++
      after.filter (fun y ↦ !(wanted y && decide (time y < time x)))

theorem Selected.mem {queue rest : List α} (h : Selected wanted good time queue x rest) :
    x ∈ queue ∧ (wanted x && good x) = true := by
  obtain ⟨before, after, rfl, hfirst, -⟩ := h
  exact ⟨mem_append_right before mem_cons_self, hfirst.isWanted⟩

/-- The earliest wanted entry is taken out if it is good. -/
theorem First.selected (h : First wanted time before x after) (hgood : good x = true) :
    Selected wanted good time (before ++ x :: after) x (before ++ after) := by
  refine ⟨before, after, rfl, ⟨?_, ?_, ?_⟩, ?_⟩
  · rw [h.isWanted, hgood]
    rfl
  · exact fun y hy hboth ↦ h.lt y hy ((Bool.and_eq_true _ _).mp hboth).1
  · exact fun y hy hboth ↦ h.le y hy ((Bool.and_eq_true _ _).mp hboth).1
  · rw [filter_eq_self.mpr, filter_eq_self.mpr]
    · intro y hy
      by_cases hwanted : wanted y = true
      · simp [hwanted, h.le y hy hwanted]
      · simp [hwanted]
    · intro y hy
      by_cases hwanted : wanted y = true
      · simp [hwanted, h.lt y hy hwanted]
      · simp [hwanted]

/-- Entries that are not good may stand anywhere. -/
theorem First.of_good {before' after' : List α}
    (h : First (fun y ↦ wanted y && good y) time before x after)
    (hbefore : ∀ y ∈ before', good y = true → y ∈ before)
    (hafter : ∀ y ∈ after', good y = true → y ∈ after) :
    First (fun y ↦ wanted y && good y) time before' x after' where
  isWanted := h.isWanted
  lt := fun y hy hboth ↦ h.lt y (hbefore y hy ((Bool.and_eq_true _ _).mp hboth).2) hboth
  le := fun y hy hboth ↦ h.le y (hafter y hy ((Bool.and_eq_true _ _).mp hboth).2) hboth

theorem mem_append_of_good {c d : List α} {e y : α} (hgood : good e = false)
    (hy : y ∈ c ++ e :: d) (hgood' : good y = true) : y ∈ c ++ d := by
  rcases mem_append.mp hy with hy | hy
  · exact mem_append_left d hy
  · rcases mem_cons.mp hy with rfl | hy
    · rw [hgood] at hgood'
      cases hgood'
    · exact mem_append_right c hy

/-- If the earliest wanted entry is not good, it is thrown away before the search goes on. -/
theorem Selected.discard {e : α} {rest : List α} (he : First wanted time before e after)
    (hgood : good e = false) (h : Selected wanted good time (before ++ after) x rest) :
    Selected wanted good time (before ++ e :: after) x rest := by
  obtain ⟨l, r, hsplit, hfirst, hrest⟩ := h
  have hwanted : wanted x = true := ((Bool.and_eq_true _ _).mp hfirst.isWanted).1
  -- The entry found stands behind the one thrown away, or in front of it.
  rcases append_eq_append_iff.mp hsplit with ⟨c, hl, hc⟩ | ⟨c, hl, hc⟩
  · have hle : time e ≤ time x := he.le x (hc ▸ mem_append_right c mem_cons_self) hwanted
    rw [hl] at hfirst hrest
    refine ⟨before ++ e :: c, r, by rw [hc]; simp,
      hfirst.of_good (fun y ↦ mem_append_of_good hgood) fun y hy _ ↦ hy, ?_⟩
    rw [hrest, filter_append, filter_append, filter_cons_of_neg]
    simp [he.isWanted, hle]
  · rcases c with _ | ⟨y, c⟩
    · rw [append_nil] at hl
      subst hl hc
      have hle : time e ≤ time x := he.le x mem_cons_self hwanted
      refine ⟨before ++ [e], r, by simp, hfirst.of_good (fun y hy hgood' ↦ ?_) fun y hy _ ↦ hy, ?_⟩
      · simpa using mem_append_of_good hgood hy hgood'
      · rw [hrest, filter_append, filter_cons_of_neg, filter_nil, append_nil]
        simp [he.isWanted, hle]
    · obtain ⟨rfl, hr⟩ := List.cons.inj hc
      replace hr : r = c ++ after := hr
      have hlt : time e < time x := he.lt x (hl ▸ mem_append_right l mem_cons_self) hwanted
      rw [hr] at hfirst hrest
      refine ⟨l, c ++ e :: after, by rw [hl]; simp,
        hfirst.of_good (fun y hy _ ↦ hy) fun y ↦ mem_append_of_good hgood, ?_⟩
      rw [hrest, filter_append, filter_append, filter_cons_of_neg]
      simp [he.isWanted, hlt]

end CarbonSim.Earliest
