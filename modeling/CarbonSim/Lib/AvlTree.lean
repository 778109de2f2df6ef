import Mathlib.Data.List.Basic

/-!
# Height-balanced trees with stored heights

Binary trees whose nodes store a height. In an `Avl` tree each stored height is that of the subtree
and the heights of the two subtrees of a node differ by at most one. `Near` relates two trees whose
heights differ by at most one, which is all that an insertion or a removal in a subtree can do.

`rotate_left`, `rotate_right` and `rotate_twice` are the cases of rebalancing: a node that leans by
two to one side becomes an `Avl` tree, whose height is the one of the higher side or one more.
-/

namespace CarbonSim.AvlTree

inductive Tree (α : Type)
  | nil
  | node (left : Tree α) (height : ℕ) (value : α) (right : Tree α)
  deriving DecidableEq, Repr

namespace Tree

variable {α : Type} {β : Type}

/-- The stored height, zero for the empty tree. -/
def height : Tree α → ℕ
  | nil => 0
  | node _ h _ _ => h

@[simp] theorem height_nil : (nil : Tree α).height = 0 := rfl

@[simp] theorem height_node (l : Tree α) (h : ℕ) (a : α) (r : Tree α) :
    (node l h a r).height = h := rfl

/-- The elements from left to right. -/
def toList : Tree α → List α
  | nil => []
  | node l _ a r => l.toList ++ a :: r.toList

@[simp] theorem toList_nil : (nil : Tree α).toList = [] := rfl

@[simp] theorem toList_node (l : Tree α) (h : ℕ) (a : α) (r : Tree α) :
    (node l h a r).toList = l.toList ++ a :: r.toList := rfl

/-- Two subtrees under an element, with the height that they give it. -/
def join (l : Tree α) (a : α) (r : Tree α) : Tree α := node l (max l.height r.height + 1) a r

@[simp] theorem height_join (l : Tree α) (a : α) (r : Tree α) :
    (join l a r).height = max l.height r.height + 1 := rfl

@[simp] theorem toList_join (l : Tree α) (a : α) (r : Tree α) :
    (join l a r).toList = l.toList ++ a :: r.toList := rfl

/-- Every stored height is exact, and the subtrees of a node differ by at most one. -/
def Avl : Tree α → Prop
  | nil => True
  | node l h _ r => l.Avl ∧ r.Avl ∧ h = max l.height r.height + 1 ∧
      l.height ≤ r.height + 1 ∧ r.height ≤ l.height + 1

/-- The heights differ by at most one. -/
def Near (t t' : Tree α) : Prop := t'.height ≤ t.height + 1 ∧ t.height ≤ t'.height + 1

theorem Near.refl (t : Tree α) : Near t t := ⟨Nat.le_succ _, Nat.le_succ _⟩

/-- A tree that is not empty, as a node whose height is that of its subtrees. -/
theorem Avl.exists_join {t : Tree α} (h : t.Avl) (hpos : 0 < t.height) :
    ∃ l a r, t = join l a r ∧ l.Avl ∧ r.Avl ∧ l.height ≤ r.height + 1 ∧
      r.height ≤ l.height + 1 := by
  cases t with
  | nil => simp at hpos
  | node l k a r =>
    obtain ⟨hl, hr, rfl, hbalanced⟩ := h
    exact ⟨l, a, r, rfl, hl, hr, hbalanced⟩

theorem Avl.join {l r : Tree α} (a : α) (hl : l.Avl) (hr : r.Avl)
    (hleft : l.height ≤ r.height + 1) (hright : r.height ≤ l.height + 1) : (join l a r).Avl :=
  ⟨hl, hr, rfl, hleft, hright⟩

/-- The same elements, where some are rewritten in place. -/
def map {β : Type} (f : α → β) : Tree α → Tree β
  | nil => nil
  | node l h a r => node (l.map f) h (f a) (r.map f)

@[simp] theorem height_map (f : α → β) (t : Tree α) : (t.map f).height = t.height := by
  cases t <;> rfl

@[simp] theorem toList_map (f : α → β) (t : Tree α) :
    (t.map f).toList = t.toList.map f := by
  induction t with
  | nil => rfl
  | node l h a r ihl ihr => simp [map, ihl, ihr]

theorem Avl.map (f : α → β) {t : Tree α} (h : t.Avl) : (t.map f).Avl := by
  induction t with
  | nil => trivial
  | node l k a r ihl ihr =>
    obtain ⟨hl, hr, hheight, hleft, hright⟩ := h
    simp only [Tree.map, Avl, height_map]
    exact ⟨ihl hl, ihr hr, hheight, hleft, hright⟩

/-! ### Rotations -/

section Rotations

variable {a b c d : Tree α} (x y z : α)

/-- A node that leans left by two, where the inner grandchild is no higher than the outer one: one
rotation. -/
theorem rotate_left (ha : a.Avl) (hb : b.Avl) (hc : c.Avl)
    (hlean : max a.height b.height = c.height + 1) (hab : a.height ≤ b.height + 1)
    (hba : b.height ≤ a.height) :
    (join a y (join b z c)).Avl ∧ c.height + 2 ≤ (join a y (join b z c)).height ∧
      (join a y (join b z c)).height ≤ c.height + 3 := by
  have hinner : (join b z c).Avl := hb.join z hc (by omega) (by omega)
  have houter : (join a y (join b z c)).Avl := by
    apply ha.join y hinner
    all_goals
      rw [height_join]
      omega
  simp only [height_join]
  exact ⟨houter, by omega, by omega⟩

/-- A node that leans right by two, where the inner grandchild is no higher than the outer one: one
rotation. -/
theorem rotate_right (ha : a.Avl) (hb : b.Avl) (hc : c.Avl)
    (hlean : max b.height c.height = a.height + 1) (hcb : c.height ≤ b.height + 1)
    (hbc : b.height ≤ c.height) :
    (join (join a z b) y c).Avl ∧ a.height + 2 ≤ (join (join a z b) y c).height ∧
      (join (join a z b) y c).height ≤ a.height + 3 := by
  have hinner : (join a z b).Avl := ha.join z hb (by omega) (by omega)
  have houter : (join (join a z b) y c).Avl := by
    apply hinner.join y hc
    all_goals
      rw [height_join]
      omega
  simp only [height_join]
  exact ⟨houter, by omega, by omega⟩

/-- A node that leans by two to one side, where the inner grandchild is the higher one: two
rotations bring the grandchild to the top. All four subtrees are as high as the lower side, or one
less. -/
theorem rotate_twice {n : ℕ} (ha : a.Avl) (hb : b.Avl) (hc : c.Avl) (hd : d.Avl)
    (hn : a.height = n ∧ d.height = n) (hbn : max b.height c.height = n)
    (hbc : b.height ≤ c.height + 1) (hcb : c.height ≤ b.height + 1) :
    (join (join a y b) x (join c z d)).Avl ∧ (join (join a y b) x (join c z d)).height = n + 2 := by
  have hleft : (join a y b).Avl := ha.join y hb (by omega) (by omega)
  have hright : (join c z d).Avl := hc.join z hd (by omega) (by omega)
  have htop : (join (join a y b) x (join c z d)).Avl := by
    apply hleft.join x hright
    all_goals
      simp only [height_join]
      omega
  simp only [height_join]
  exact ⟨htop, by omega⟩

end Rotations

end Tree

end CarbonSim.AvlTree
