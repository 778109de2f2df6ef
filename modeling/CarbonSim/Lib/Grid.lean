import Mathlib.Data.List.Iterate
import Mathlib.Data.List.Nodup

/-!
# Dimension-ordered routes in a grid

A route between two points of a grid that first moves along the row of its start and then along the
column of its end. `OnPath s r v` says that `v` is on the route from `s` to `r`, `step v r` is the
next point after `v`, and `parent s v` the point before `v`, which is the same for all routes from
`s` through `v`. The routes from `s` thus form a tree (`onPath_iff_parent`), and a copy that is sent
to all children of a point in this tree follows the route to each point of the grid.
-/

namespace CarbonSim.Grid

open List

/-- A column and a row. -/
abbrev Point := ℕ × ℕ

/-- A number is between two others, in either order. -/
def Between (a b c : ℕ) : Prop := min a b ≤ c ∧ c ≤ max a b

instance (a b c : ℕ) : Decidable (Between a b c) := inferInstanceAs (Decidable (_ ∧ _))

/-- The point is on the row of the start up to the column of the end, or on that column. -/
def OnPath (s r v : Point) : Prop :=
  v.2 = s.2 ∧ Between s.1 r.1 v.1 ∨ v.1 = r.1 ∧ Between s.2 r.2 v.2

instance (s r v : Point) : Decidable (OnPath s r v) := inferInstanceAs (Decidable (_ ∨ _))

/-- The number of steps between two columns or rows. -/
def gap (a b : ℕ) : ℕ := (a - b) + (b - a)

/-- The number of steps between two points. -/
def dist (a b : Point) : ℕ := gap a.1 b.1 + gap a.2 b.2

/-- One step from `a` towards `b`. -/
def toward (a b : ℕ) : ℕ := if b < a then a - 1 else if a < b then a + 1 else a

/-- The next point on a route: along the row first. -/
def step (v r : Point) : Point :=
  if v.1 ≠ r.1 then (toward v.1 r.1, v.2) else (v.1, toward v.2 r.2)

/-- The point before `v` on the routes from `s`: along the column first. -/
def parent (s v : Point) : Point :=
  if v.2 ≠ s.2 then (v.1, toward v.2 s.2) else (toward v.1 s.1, v.2)

@[simp] theorem gap_self (a : ℕ) : gap a a = 0 := by simp [gap]

theorem Between.gap_add {a b c : ℕ} (h : Between a b c) : gap a c + gap c b = gap a b := by
  unfold Between at h
  unfold gap
  omega

theorem between_left (a b : ℕ) : Between a b a := ⟨Nat.min_le_left _ _, Nat.le_max_left _ _⟩

theorem between_right (a b : ℕ) : Between a b b := ⟨Nat.min_le_right _ _, Nat.le_max_right _ _⟩

theorem Between.symm {a b c : ℕ} (h : Between a b c) : Between b a c := by
  unfold Between at *
  rwa [Nat.min_comm, Nat.max_comm]

/-- One step towards the end: it stays between, is undone by a step back, and leaves the start. -/
theorem Between.toward {a b c : ℕ} (h : Between a b c) (hne : c ≠ b) :
    toward c b ≠ a ∧ Between a b (toward c b) ∧ Grid.toward (toward c b) a = c ∧
      gap a (toward c b) = gap a c + 1 := by
  unfold Between at h ⊢
  unfold Grid.toward gap
  rcases Nat.lt_or_gt_of_ne hne with hlt | hgt
  · rw [if_neg (by omega : ¬ b < c), if_pos hlt]
    refine ⟨by omega, by omega, ?_, by omega⟩
    rw [if_pos (by omega), Nat.add_sub_cancel]
  · rw [if_pos hgt]
    refine ⟨by omega, by omega, ?_, by omega⟩
    rw [if_neg (by omega), if_pos (by omega)]
    omega

theorem Between.lt {a b c w : ℕ} (h : Between a b c) (ha : a < w) (hb : b < w) : c < w :=
  Nat.lt_of_le_of_lt h.2 (Nat.max_lt.mpr ⟨ha, hb⟩)

theorem gap_lt {w a b : ℕ} (ha : a < w) (hb : b < w) : gap a b < w := by
  unfold gap
  omega

@[simp] theorem parent_self (s : Point) : parent s s = s := by simp [parent, toward]

section Lemmas

variable {s r v c : Point}

theorem onPath_start (s r : Point) : OnPath s r s :=
  .inl ⟨rfl, between_left _ _⟩

theorem onPath_end (s r : Point) : OnPath s r r :=
  .inr ⟨rfl, between_right _ _⟩

/-- A route splits the distance. -/
theorem OnPath.dist_add (h : OnPath s r v) : dist s v + dist v r = dist s r := by
  unfold dist
  rcases h with ⟨hrow, hbetween⟩ | ⟨hcolumn, hbetween⟩
  · rw [hrow, gap_self, ← hbetween.gap_add]
    omega
  · rw [hcolumn, gap_self, ← hbetween.gap_add]
    omega

theorem dist_self (s : Point) : dist s s = 0 := by simp [dist]

theorem eq_of_dist_eq_zero (h : dist s v = 0) : s = v := by
  unfold dist gap at h
  exact Prod.ext (by omega) (by omega)

/-- A route stays within the rectangle of its ends. -/
theorem OnPath.between (h : OnPath s r v) : Between s.1 r.1 v.1 ∧ Between s.2 r.2 v.2 := by
  rcases h with ⟨hrow, hbetween⟩ | ⟨hcolumn, hbetween⟩
  · exact ⟨hbetween, hrow ▸ between_left _ _⟩
  · exact ⟨hcolumn ▸ between_right _ _, hbetween⟩

/-- The next point is on the route, one step further, and the point itself is the one before it. -/
theorem OnPath.next (h : OnPath s r v) (hne : v ≠ r) :
    OnPath s r (step v r) ∧ dist s (step v r) = dist s v + 1 ∧ parent s (step v r) = v := by
  by_cases hcolumn : v.1 = r.1
  · have hrow : v.2 ≠ r.2 := fun hrow ↦ hne (Prod.ext hcolumn hrow)
    have hbetween : Between s.2 r.2 v.2 := by
      rcases h with ⟨hsame, _⟩ | ⟨_, hbetween⟩
      · exact hsame ▸ between_left _ _
      · exact hbetween
    obtain ⟨hstart, hnext, hback, hgap⟩ := hbetween.toward hrow
    have hstep : step v r = (v.1, toward v.2 r.2) := if_neg (not_not_intro hcolumn)
    rw [hstep]
    refine ⟨.inr ⟨hcolumn, hnext⟩, ?_, ?_⟩
    · unfold dist
      rw [hgap]
      rfl
    · unfold parent
      rw [if_pos hstart, hback]
  · have hrow : v.2 = s.2 ∧ Between s.1 r.1 v.1 := by
      rcases h with hrow | ⟨hsame, _⟩
      · exact hrow
      · exact absurd hsame hcolumn
    obtain ⟨_, hnext, hback, hgap⟩ := hrow.2.toward hcolumn
    have hstep : step v r = (toward v.1 r.1, v.2) := if_pos hcolumn
    rw [hstep]
    refine ⟨.inl ⟨hrow.1, hnext⟩, ?_, ?_⟩
    · unfold dist
      simp only
      omega
    · unfold parent
      rw [if_neg (not_not_intro hrow.1), hback]

/-- The point before a point on the route is on the route, and it is followed by that point. -/
theorem OnPath.before (h : OnPath s r v) (hne : v ≠ s) :
    OnPath s r (parent s v) ∧ parent s v ≠ r ∧ step (parent s v) r = v := by
  by_cases hrow : v.2 = s.2
  · have hcolumn : v.1 ≠ s.1 := fun hcolumn ↦ hne (Prod.ext hcolumn hrow)
    have hbetween : Between s.1 r.1 v.1 := by
      rcases h with ⟨_, hbetween⟩ | ⟨hsame, _⟩
      · exact hbetween
      · exact hsame ▸ between_right _ _
    obtain ⟨hend, hprevious, hforth, _⟩ := hbetween.symm.toward hcolumn
    have hparent : parent s v = (toward v.1 s.1, v.2) := if_neg (not_not_intro hrow)
    rw [hparent]
    refine ⟨.inl ⟨hrow, hprevious.symm⟩, ?_, ?_⟩
    · intro heq
      exact hend (congrArg Prod.fst heq)
    · unfold step
      rw [if_pos hend, hforth]
  · have hcolumn : v.1 = r.1 ∧ Between s.2 r.2 v.2 := by
      rcases h with ⟨hsame, _⟩ | hcolumn
      · exact absurd hsame hrow
      · exact hcolumn
    obtain ⟨hend, hprevious, hforth, _⟩ := hcolumn.2.symm.toward hrow
    have hparent : parent s v = (v.1, toward v.2 s.2) := if_pos hrow
    rw [hparent]
    refine ⟨.inr ⟨hcolumn.1, hprevious.symm⟩, ?_, ?_⟩
    · intro heq
      exact hend (congrArg Prod.snd heq)
    · unfold step
      rw [if_neg (not_not_intro hcolumn.1), hforth]

/-- The next point is not the start. -/
theorem OnPath.next_ne (h : OnPath s r v) (hne : v ≠ r) : step v r ≠ s := by
  intro heq
  have hfar := (h.next hne).2.1
  rw [heq, dist_self] at hfar
  omega

/-- A point is one step further than the one before it. -/
theorem dist_parent (hne : v ≠ s) : dist s v = dist s (parent s v) + 1 := by
  obtain ⟨hon, hend, hforth⟩ := (onPath_end s v).before hne
  have hfar := (hon.next hend).2.1
  rwa [hforth] at hfar

end Lemmas

/-- The point is in the grid of `w` columns and `h` rows. -/
def Inside (w h : ℕ) (v : Point) : Prop := v.1 < w ∧ v.2 < h

theorem OnPath.inside {w h : ℕ} {s r v : Point} (hon : OnPath s r v) (hs : Inside w h s)
    (hr : Inside w h r) : Inside w h v := by
  have hbox := hon.between
  exact ⟨hbox.1.lt hs.1 hr.1, hbox.2.lt hs.2 hr.2⟩

theorem dist_lt_of_inside {w h : ℕ} {a b : Point} (ha : Inside w h a) (hb : Inside w h b) :
    dist a b + 2 ≤ w + h := by
  have hcolumns := gap_lt ha.1 hb.1
  have hrows := gap_lt ha.2 hb.2
  unfold dist
  omega

/-! ### The points of a route, in order -/

/-- The points from `v` to `r`, both included. -/
def path (v r : Point) : List Point := List.iterate (step · r) v (dist v r + 1)

theorem path_self (r : Point) : path r r = [r] := by
  unfold path
  rw [dist_self]
  rfl

/-- A route is its first point and the route from the next one. -/
theorem path_eq_cons {v r : Point} (hne : v ≠ r) : path v r = v :: path (step v r) r := by
  have hnext := (onPath_start v r).next hne
  have hsplit := hnext.1.dist_add
  rw [hnext.2.1, dist_self] at hsplit
  unfold path
  rw [show dist v r + 1 = (dist (step v r) r + 1) + 1 by omega]
  rfl

theorem length_path (v r : Point) : (path v r).length = dist v r + 1 := length_iterate ..

/-- The points of the list are on the route. -/
theorem onPath_of_mem_path {v r p : Point} (hmem : p ∈ path v r) : OnPath v r p := by
  have hon : ∀ n u, OnPath v r u → p ∈ List.iterate (step · r) u n → OnPath v r p := by
    intro n
    induction n with
    | zero =>
      intro u _ hp
      simp at hp
    | succ n ih =>
      intro u hu hp
      rw [List.iterate] at hp
      rcases mem_cons.mp hp with rfl | hrest
      · exact hu
      · by_cases hend : u = r
        · subst hend
          have hstay : step u u = u := by simp [step, toward]
          exact ih u hu (by rwa [hstay] at hrest)
        · exact ih _ (hu.next hend).1 hrest
  exact hon _ v (onPath_start v r) hmem

/-- A point of a route is found at its distance from the start. -/
theorem OnPath.eq_iterate {s r v : Point} (h : OnPath s r v) :
    v = (step · r)^[dist s v] s := by
  generalize hd : dist s v = d
  induction d generalizing v with
  | zero => exact (eq_of_dist_eq_zero hd).symm
  | succ d ih =>
    have hne : v ≠ s := by
      intro heq
      rw [heq, dist_self] at hd
      omega
    obtain ⟨hon, hend, hback⟩ := h.before hne
    have hlast := (hon.next hend).2.1
    rw [hback] at hlast
    have hbefore := ih hon (by omega)
    rw [Function.iterate_succ_apply', ← hbefore]
    exact hback.symm

/-! ### The tree of all routes from one point -/

/-- The points that a copy at `v` is sent on to, when it is to reach all points of the grid along
the routes from `s`: up and down the column, and along the row only from the row of `s`. -/
def children (w h : ℕ) (s v : Point) : List Point :=
  (if s.2 ≤ v.2 ∧ v.2 + 1 < h then [(v.1, v.2 + 1)] else []) ++
  (if v.2 ≤ s.2 ∧ 0 < v.2 then [(v.1, v.2 - 1)] else []) ++
  (if v.2 = s.2 ∧ s.1 ≤ v.1 ∧ v.1 + 1 < w then [(v.1 + 1, v.2)] else []) ++
  (if v.2 = s.2 ∧ v.1 ≤ s.1 ∧ 0 < v.1 then [(v.1 - 1, v.2)] else [])

section Tree

variable {w h : ℕ} {s r v c : Point}

/-- The children of a point are the points of the grid whose parent it is. -/
theorem mem_children (hv : Inside w h v) :
    c ∈ children w h s v ↔ Inside w h c ∧ c ≠ s ∧ parent s c = v := by
  obtain ⟨a, b⟩ := c
  obtain ⟨x, y⟩ := v
  obtain ⟨i, j⟩ := s
  simp only [children, mem_append, mem_ite_nil_right, mem_singleton, Prod.mk.injEq,
    Inside, parent, toward, ne_eq] at *
  constructor
  · rintro (((⟨_, rfl, rfl⟩ | ⟨_, rfl, rfl⟩) | ⟨_, rfl, rfl⟩) | ⟨_, rfl, rfl⟩) <;>
      split_ifs <;> simp only [Prod.mk.injEq, true_and, and_true] <;> omega
  · rintro ⟨hin, hne, hback⟩
    split_ifs at hback <;> simp only [Prod.mk.injEq] at hback <;> omega

theorem nodup_children : (children w h s v).Nodup := by
  unfold children
  split_ifs <;> simp <;> omega

/-- Among the children of a point, those on the way to `r` are the next point only, and there is
none if the point itself is not on the way. -/
theorem filter_children (hs : Inside w h s) (hr : Inside w h r) (hv : Inside w h v) :
    (children w h s v).filter (fun c ↦ decide (OnPath s r c)) =
      if OnPath s r v ∧ v ≠ r then [step v r] else [] := by
  split_ifs with hway
  · obtain ⟨hon, hne⟩ := hway
    have hnext := (hon.next hne).1
    have hmem : step v r ∈ children w h s v :=
      (mem_children hv).mpr ⟨hnext.inside hs hr, hon.next_ne hne, (hon.next hne).2.2⟩
    have honly : (children w h s v).filter (fun c ↦ decide (OnPath s r c)) =
        (children w h s v).filter (· = step v r) := by
      apply filter_congr
      intro c hc
      obtain ⟨_, hstart, hparent⟩ := (mem_children hv).mp hc
      apply decide_eq_decide.mpr
      constructor
      · intro hcon
        have hback := (hcon.before hstart).2.2
        rw [hparent] at hback
        exact hback.symm
      · rintro rfl
        exact hnext
    rw [honly, filter_eq, count_eq_one_of_mem nodup_children hmem]
    rfl
  · apply filter_eq_nil_iff.mpr
    intro c hc hcon
    obtain ⟨_, hstart, hparent⟩ := (mem_children hv).mp hc
    have hback := (of_decide_eq_true hcon).before hstart
    rw [hparent] at hback
    exact hway ⟨hback.1, hback.2.1⟩

/-- What the children of a point contribute, if only those on the way to `r` do. -/
theorem flatMap_children {β : Type} (hs : Inside w h s) (hr : Inside w h r) (hv : Inside w h v)
    (f : Point → β) :
    ((children w h s v).flatMap fun c ↦ if OnPath s r c then [f c] else []) =
      if OnPath s r v ∧ v ≠ r then [f (step v r)] else [] := by
  have hfilter : ∀ l : List Point, (l.flatMap fun c ↦ if OnPath s r c then [f c] else []) =
      (l.filter fun c ↦ decide (OnPath s r c)).map f := by
    intro l
    induction l with
    | nil => rfl
    | cons c l ih =>
      rw [flatMap_cons, ih, filter_cons]
      by_cases hc : OnPath s r c
      · simp [hc]
      · simp [hc]
  rw [hfilter, filter_children hs hr hv]
  split_ifs <;> rfl

end Tree

end CarbonSim.Grid
