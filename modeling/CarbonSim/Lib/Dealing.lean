import Mathlib.Data.List.Nodup
import Mathlib.Data.List.Perm.Basic

/-!
# Dealing

Items are dealt one after another to the hands of some players, each to the end of a hand, and for
each item a table records its player. If no item is dealt twice, then the hands are disjoint, what is
in them is what has been dealt, and the table agrees with them.
-/

namespace CarbonSim.Dealing

open List

variable {α : Type}

/-- The hand of a player. -/
def hand (hands : List (List α)) (p : ℕ) : List α := (hands[p]?).getD []

/-- A player gets an item. -/
def deal (hands : List (List α)) (p : ℕ) (x : α) : List (List α) := hands.modify p (· ++ [x])

variable {hands : List (List α)} {p q : ℕ} {x y : α}

@[simp] theorem length_deal : (deal hands p x).length = hands.length := length_modify ..

theorem hand_deal (hp : p < hands.length) :
    hand (deal hands p x) q = if p = q then hand hands q ++ [x] else hand hands q := by
  unfold hand deal
  rw [getElem?_modify]
  by_cases hpq : p = q
  · subst hpq
    simp [getElem?_eq_getElem hp]
  · simp [hpq]

theorem mem_hand_deal (hp : p < hands.length) :
    y ∈ hand (deal hands p x) q ↔ y ∈ hand hands q ∨ (p = q ∧ y = x) := by
  rw [hand_deal hp]
  by_cases hpq : p = q
  · simp [hpq]
  · simp [hpq]

/-- The item is added to what has been dealt. -/
theorem flatten_deal (hp : p < hands.length) :
    (deal hands p x).flatten.Perm (hands.flatten ++ [x]) := by
  unfold deal
  induction hands generalizing p with
  | nil => exact absurd hp (Nat.not_lt_zero p)
  | cons h rest ih =>
    cases p with
    | zero =>
      simp only [modify_zero_cons, flatten_cons, append_assoc]
      exact (perm_append_comm).append_left h
    | succ p =>
      simp only [modify_succ_cons, flatten_cons, append_assoc]
      exact (ih (Nat.lt_of_succ_lt_succ hp)).append_left h

theorem mem_flatten_iff : x ∈ hands.flatten ↔ ∃ p, p < hands.length ∧ x ∈ hand hands p := by
  rw [mem_flatten]
  constructor
  · rintro ⟨h, hh, hx⟩
    obtain ⟨p, hp, rfl⟩ := getElem_of_mem hh
    exact ⟨p, hp, by simpa [hand, getElem?_eq_getElem hp] using hx⟩
  · rintro ⟨p, hp, hx⟩
    exact ⟨hands[p], getElem_mem hp, by simpa [hand, getElem?_eq_getElem hp] using hx⟩

theorem lt_length_of_mem_hand (hx : x ∈ hand hands p) : p < hands.length := by
  by_contra hp
  rw [hand, getElem?_eq_none (Nat.le_of_not_lt hp)] at hx
  cases hx

/-- No item of a hand is there twice. -/
theorem nodup_hand (h : hands.flatten.Nodup) (p : ℕ) : (hand hands p).Nodup := by
  by_cases hp : p < hands.length
  · rw [hand, getElem?_eq_getElem hp]
    exact (nodup_flatten.mp h).1 _ (getElem_mem hp)
  · rw [hand, getElem?_eq_none (Nat.le_of_not_lt hp)]
    exact nodup_nil

/-! ### The table -/

/-- The table gives the player that has the item. -/
def Agrees (hands : List (List ℕ)) (table : List ℕ) : Prop :=
  ∀ p, ∀ x ∈ hand hands p, table[x]? = some p

theorem Agrees.deal {hands : List (List ℕ)} {table : List ℕ} {x : ℕ} (h : Agrees hands table)
    (hp : p < hands.length) (hx : x < table.length) (hfresh : x ∉ hands.flatten) :
    Agrees (deal hands p x) (table.set x p) := by
  intro q y hy
  rcases (mem_hand_deal hp).mp hy with hy | ⟨rfl, rfl⟩
  · have hne : x ≠ y := by
      rintro rfl
      exact hfresh (mem_flatten_iff.mpr ⟨q, lt_length_of_mem_hand hy, hy⟩)
    rw [getElem?_set_ne hne]
    exact h q y hy
  · exact getElem?_set_self hx

/-- An item that has been dealt is in one hand, once. -/
theorem Agrees.count {hands : List (List ℕ)} {table : List ℕ} {x : ℕ} (h : Agrees hands table)
    (hnodup : hands.flatten.Nodup) (hx : x ∈ hands.flatten) :
    ∃ p < hands.length, table[x]? = some p ∧
      ∀ q, (hand hands q).count x = if q = p then 1 else 0 := by
  obtain ⟨p, hp, hmem⟩ := mem_flatten_iff.mp hx
  have htable := h p x hmem
  refine ⟨p, hp, htable, fun q ↦ ?_⟩
  by_cases hq : q = p
  · rw [if_pos hq, hq]
    exact count_eq_one_of_mem (nodup_hand hnodup p) hmem
  · rw [if_neg hq, count_eq_zero]
    intro hmem'
    have hsame := (h q x hmem').symm.trans htable
    exact hq (Option.some.inj hsame)

/-! ### One player after another -/

/-- The items go to one player after another, from a player on. -/
def stripe (players : ℕ) : ℕ → List α → List (ℕ × α)
  | _, [] => []
  | p, x :: rest => (p, x) :: stripe players ((p + 1) % players) rest

theorem map_snd_stripe (players p : ℕ) (items : List α) :
    (stripe players p items).map Prod.snd = items := by
  induction items generalizing p with
  | nil => rfl
  | cons x rest ih => rw [stripe, map_cons, ih]

theorem fst_lt_of_mem_stripe {players p : ℕ} (hp : p < players) {items : List α} {d : ℕ × α}
    (hd : d ∈ stripe players p items) : d.1 < players := by
  induction items generalizing p with
  | nil => cases hd
  | cons x rest ih =>
    rcases mem_cons.mp hd with rfl | hd
    · exact hp
    · exact ih (Nat.mod_lt _ (Nat.zero_lt_of_lt hp)) hd

end CarbonSim.Dealing
