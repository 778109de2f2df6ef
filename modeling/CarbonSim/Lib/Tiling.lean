import Mathlib.Data.Multiset.Bind

/-!
# Ranges and grids that are cut into pieces

A range is cut into pieces of equal length, where the last piece has what is left. A grid is cut into
rectangles by cutting its columns and its rows. Loops over the pieces, and over what is in each, meet
every number of the range, and every point of the grid, once.
-/

namespace CarbonSim.Tiling

open List

/-- The length of a piece: the last one has what is left. -/
def size (n k i : ℕ) : ℕ := if i = k - 1 then n - (k - 1) * (n / k) else n / k

/-- The begin of a piece. -/
def base (n k i : ℕ) : ℕ := i * (n / k)

/-- The numbers of a piece. -/
def piece (n k i : ℕ) : List ℕ := (range (size n k i)).map (base n k i + ·)

/-- Pieces of equal length one after another. -/
theorem flatMap_range_mul (k s : ℕ) :
    (range k).flatMap (fun i ↦ (range s).map (i * s + ·)) = range (k * s) := by
  induction k with
  | zero => simp
  | succ k ih =>
    rw [range_succ, flatMap_append, ih, flatMap_singleton, Nat.succ_mul, range_add]

/-- The pieces make up the range. -/
theorem flatMap_piece {n k : ℕ} (hk : 0 < k) :
    (range k).flatMap (piece n k) = range n := by
  obtain ⟨m, rfl⟩ : ∃ m, k = m + 1 := ⟨k - 1, by omega⟩
  have hfull : (range m).flatMap (piece n (m + 1)) = range (m * (n / (m + 1))) := by
    rw [← flatMap_range_mul]
    refine flatMap_congr fun i hi ↦ ?_
    have hne : i ≠ m + 1 - 1 := Nat.ne_of_lt (mem_range.mp hi)
    rw [piece, size, if_neg hne, base]
  have hle : m * (n / (m + 1)) ≤ n :=
    Nat.le_trans (Nat.mul_le_mul_right _ (Nat.le_succ m)) (Nat.mul_div_le n (m + 1))
  rw [range_succ, flatMap_append, hfull, flatMap_singleton, piece, size,
    Nat.add_sub_cancel, if_pos rfl, base, ← range_add, Nat.add_sub_cancel' hle]

section Loops

variable {α β γ : Type}

/-- The order of two loops does not matter. -/
theorem flatMap_comm (l : List α) (l' : List β) (f : α → β → List γ) :
    (l.flatMap fun a ↦ l'.flatMap fun b ↦ f a b).Perm
      (l'.flatMap fun b ↦ l.flatMap fun a ↦ f a b) := by
  rw [← Multiset.coe_eq_coe]
  simp only [← Multiset.coe_bind]
  exact Multiset.bind_bind _ _

theorem flatMap_map_comm (l : List α) (l' : List β) (f : α → β → γ) :
    (l.flatMap fun a ↦ l'.map fun b ↦ f a b).Perm (l'.flatMap fun b ↦ l.map fun a ↦ f a b) := by
  simp only [map_eq_flatMap]
  exact flatMap_comm l l' fun a b ↦ [f a b]

/-- Loops over rectangles, and over the points of each, are loops over all points. -/
theorem flatMap_rectangles (k l : ℕ) (xs ys : ℕ → List ℕ) (f : ℕ → ℕ → γ) :
    ((range k).flatMap fun i ↦ (range l).flatMap fun j ↦
        (xs i).flatMap fun x ↦ (ys j).map fun y ↦ f x y).Perm
      (((range k).flatMap xs).flatMap fun x ↦ ((range l).flatMap ys).map fun y ↦ f x y) := by
  rw [flatMap_assoc]
  refine .flatMap_left _ fun i _ ↦ ?_
  simp only [map_flatMap]
  exact flatMap_comm (range l) (xs i) fun j x ↦ (ys j).map fun y ↦ f x y

end Loops

/-- The points of a grid, numbered row by row. -/
theorem flatMap_rows (w h : ℕ) :
    ((range w).flatMap fun x ↦ (range h).map fun y ↦ x + y * w).Perm
      (range (h * w)) := by
  refine (flatMap_map_comm _ _ _).trans (List.Perm.of_eq ?_)
  rw [← flatMap_range_mul]
  simp only [Nat.add_comm]

/-- The points of a grid below a row, and those from this row on. -/
theorem flatMap_rows_split {w h low : ℕ} (hlow : low ≤ h) :
    (((range w).flatMap fun x ↦ (range low).map fun y ↦ x + y * w) ++
      (range w).flatMap fun x ↦ (range (h - low)).map fun y ↦ x + (low + y) * w).Perm
      (range (h * w)) := by
  have hrange : range h = range low ++ (range (h - low)).map (low + ·) := by
    rw [← range_add, Nat.add_sub_cancel' hlow]
  refine .trans ?_ (flatMap_rows w h)
  rw [hrange]
  simp only [map_append, map_map, Function.comp_def]
  exact flatMap_append_perm _ _ _

end CarbonSim.Tiling
