import Mathlib.Data.Fintype.Card

/-!
# Threads at places

Threads that take turns, each at a place in its program: how many of finitely many threads are at places
of some kind, and how that number changes when a thread moves; and a lock that is held at the places of
some kind and by one thread only.
-/

namespace CarbonSim

open Function Finset

/-- The number of threads that are at a place of a kind. -/
def census {n : ℕ} {Place : Type} (kind : Place → Bool) (at_ : Fin n → Place) : ℕ :=
  (univ.filter fun t ↦ kind (at_ t) = true).card

namespace Census

variable {n : ℕ} {Place : Type} {kind : Place → Bool} {at_ : Fin n → Place}

theorem le_threads (kind : Place → Bool) (at_ : Fin n → Place) : census kind at_ ≤ n := by
  have hle := card_filter_le univ fun t ↦ kind (at_ t) = true
  rwa [card_univ, Fintype.card_fin] at hle

theorem pos_iff : 0 < census kind at_ ↔ ∃ t, kind (at_ t) = true := by
  unfold census
  rw [card_pos]
  constructor
  · rintro ⟨t, ht⟩
    exact ⟨t, (mem_filter.mp ht).2⟩
  · rintro ⟨t, ht⟩
    exact ⟨t, mem_filter.mpr ⟨mem_univ t, ht⟩⟩

theorem mono {kind' : Place → Bool} (h : ∀ p, kind p = true → kind' p = true) :
    census kind at_ ≤ census kind' at_ :=
  card_le_card (monotone_filter_right _ fun t _ ↦ h (at_ t))

/-- One thread moves. -/
theorem move (kind : Place → Bool) (at_ : Fin n → Place) (t : Fin n) (place : Place) :
    census kind (update at_ t place) + (kind (at_ t)).toNat =
      census kind at_ + (kind place).toNat := by
  -- the other threads are counted on both sides
  have hsplit : ∀ f : Fin n → Place, census kind f =
      ((univ.erase t).filter fun u ↦ kind (f u) = true).card + (kind (f t)).toNat := by
    intro f
    have hall : (univ : Finset (Fin n)) = insert t (univ.erase t) :=
      (insert_erase (mem_univ t)).symm
    unfold census
    conv_lhs => rw [hall, filter_insert]
    cases hkind : kind (f t) with
    | true =>
      rw [if_pos rfl, card_insert_of_notMem (by simp)]
      rfl
    | false =>
      rw [if_neg Bool.false_ne_true]
      rfl
  have hothers : ((univ.erase t).filter fun u ↦ kind (update at_ t place u) = true) =
      (univ.erase t).filter fun u ↦ kind (at_ u) = true := by
    refine filter_congr fun u hu ↦ ?_
    rw [update_of_ne (ne_of_mem_erase hu)]
  rw [hsplit, hsplit at_, hothers, update_self]
  omega

/-- Threads move between places of the kind only, or between places that are not of it. -/
theorem congr {at' : Fin n → Place} (h : ∀ t, kind (at' t) = kind (at_ t)) :
    census kind at' = census kind at_ := by
  unfold census
  exact congrArg card (filter_congr fun t _ ↦ by rw [h t])

end Census

/-- The thread that holds the lock, if one does, is the one at a place where the lock is held. -/
def Exclusive {Thread Place : Type} (holds : Place → Bool) (at_ : Thread → Place)
    (lock : Option Thread) : Prop :=
  ∀ t, holds (at_ t) = true ↔ lock = some t

namespace Exclusive

variable {Thread Place : Type} [DecidableEq Thread] {holds : Place → Bool} {at_ : Thread → Place}
  {lock lock' : Option Thread} {t u : Thread} {place : Place}

section

variable (h : Exclusive holds at_ lock)

include h

omit [DecidableEq Thread] in
theorem alone (ht : holds (at_ t) = true) (hu : holds (at_ u) = true) : u = t :=
  Option.some.inj (((h u).mp hu).symm.trans ((h t).mp ht))

/-- A thread moves, and the lock changes for that thread only. -/
theorem move (hself : holds place = true ↔ lock' = some t)
    (hothers : ∀ u, u ≠ t → (lock' = some u ↔ lock = some u)) :
    Exclusive holds (update at_ t place) lock' := by
  intro u
  by_cases hu : u = t
  · subst hu
    rw [update_self]
    exact hself
  · rw [update_of_ne hu, hothers u hu]
    exact h u

/-- The thread holds the lock before and after, or neither. -/
theorem kept (hsame : holds place = holds (at_ t)) :
    Exclusive holds (update at_ t place) lock := by
  refine h.move ?_ fun u _ ↦ .rfl
  rw [hsame]
  exact h t

theorem taken (hfree : lock = none) (hholds : holds place = true) :
    Exclusive holds (update at_ t place) (some t) := by
  refine h.move ⟨fun _ ↦ rfl, fun _ ↦ hholds⟩ fun u hu ↦ ?_
  rw [hfree]
  exact ⟨fun heq ↦ absurd (Option.some.inj heq).symm hu, fun heq ↦ (nomatch heq)⟩

theorem given (hheld : holds (at_ t) = true) (hholds : holds place = false)
    : Exclusive holds (update at_ t place) none := by
  have hself : holds place = true ↔ (none : Option Thread) = some t := by
    rw [hholds]
    exact ⟨fun heq ↦ (nomatch heq), fun heq ↦ (nomatch heq)⟩
  refine h.move hself fun u hu ↦ ?_
  rw [(h t).mp hheld]
  exact ⟨fun heq ↦ (nomatch heq), fun heq ↦ absurd (Option.some.inj heq).symm hu⟩

end

end Exclusive

end CarbonSim
