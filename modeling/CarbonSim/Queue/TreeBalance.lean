import CarbonSim.Queue.IntervalTree

/-!
# Insertion and removal in the interval tree

An insertion or a removal changes the height of a subtree by at most one (`Adjusted`), so the nodes
above lean by at most two, and a single or a double rotation restores the balance. The climb stops
where the height has come out as it was before: from there on every stored height is still exact.
`climb_spec` is a step of the climb, and `insertInTree_spec`, `removeMinKeyNode_spec` and
`removeFromTree_spec` are its runs: no assertion fails, the tree is balanced, and its elements are
the old ones with the one inserted or removed. -/

namespace CarbonSim.Queue

open FirstFit AvlTree AvlTree.Tree

/-! ### One level -/

section Level

variable {l l' r r' : NodeTree} {h : ℕ} {z : Node}

theorem balanceHeight_left (h : ℕ) (z : Node) (hl : l.Avl) (hr : r.Avl)
    (hlean : l.height = r.height + 2) :
    ∃ t, balanceHeight (.node l h z r) = .ok t ∧ t.Avl ∧ t.toList = l.toList ++ z :: r.toList ∧
      l.height ≤ t.height ∧ t.height ≤ l.height + 1 := by
  obtain ⟨a, y, b, rfl, ha, hb, hab, hba⟩ := hl.exists_join (by omega)
  have hmax : max a.height b.height = r.height + 1 := by
    rw [height_join] at hlean
    omega
  have hne : ¬(join a y b).height = r.height := by omega
  have hlt : r.height < (join a y b).height := by omega
  rw [balanceHeight, if_neg hne, if_pos hlt, height_join, join, balanceLeft]
  rcases Nat.lt_or_ge a.height b.height with hinner | houter
  · -- the inner grandchild is the higher one
    obtain ⟨b', x, c, rfl, hb', hc, hbc, hcb⟩ := hb.exists_join (by omega)
    have hdir : xDirection .left a (join b' x c) = .right := by
      rw [xDirection, if_pos hinner.ne, if_neg (by omega)]
    have hgrand := height_join b' x c
    obtain ⟨havl, hheight⟩ := rotate_twice x y z ha hb' hc hr
      (show a.height = r.height ∧ r.height = r.height by omega) (by omega) hbc hcb
    refine ⟨join (join a y b') x (join c z r), ?_, havl, by simp, by omega, by omega⟩
    rw [hdir]
    rfl
  · have hdir : xDirection .left a b = .left := by
      unfold xDirection
      split_ifs
      · rfl
      · omega
      · rfl
    have hnil : a ≠ .nil := by
      rintro rfl
      rw [height_nil] at hmax houter
      omega
    obtain ⟨havl, hlow, hhigh⟩ := rotate_left y z ha hb hr hmax hab houter
    refine ⟨join a y (join b z r), ?_, havl, by simp, by omega, by omega⟩
    rw [hdir]
    exact if_neg hnil

theorem balanceHeight_right (h : ℕ) (z : Node) (hl : l.Avl) (hr : r.Avl)
    (hlean : r.height = l.height + 2) :
    ∃ t, balanceHeight (.node l h z r) = .ok t ∧ t.Avl ∧ t.toList = l.toList ++ z :: r.toList ∧
      r.height ≤ t.height ∧ t.height ≤ r.height + 1 := by
  obtain ⟨a, y, b, rfl, ha, hb, hab, hba⟩ := hr.exists_join (by omega)
  have hmax : max a.height b.height = l.height + 1 := by
    rw [height_join] at hlean
    omega
  have hne : ¬l.height = (join a y b).height := by omega
  have hlt : ¬(join a y b).height < l.height := by omega
  rw [balanceHeight, if_neg hne, if_neg hlt, height_join, join, balanceRight]
  rcases Nat.lt_or_ge b.height a.height with hinner | houter
  · obtain ⟨b', x, c, rfl, hb', hc, hbc, hcb⟩ := ha.exists_join (by omega)
    have hdir : xDirection .right (join b' x c) b = .left := by
      rw [xDirection, if_pos hinner.ne', if_pos hinner]
    have hgrand := height_join b' x c
    obtain ⟨havl, hheight⟩ := rotate_twice x z y hl hb' hc hb
      (show l.height = l.height ∧ b.height = l.height by omega) (by omega) hbc hcb
    refine ⟨join (join l z b') x (join c y b), ?_, havl, by simp, by omega, by omega⟩
    rw [hdir]
    rfl
  · have hdir : xDirection .right a b = .right := by
      unfold xDirection
      split_ifs
      · omega
      · rfl
      · rfl
    have hnil : b ≠ .nil := by
      rintro rfl
      rw [height_nil] at hmax houter
      omega
    obtain ⟨havl, hlow, hhigh⟩ := rotate_right y z hl ha hb hmax hba houter
    refine ⟨join (join l z a) y b, ?_, havl, by simp, by omega, by omega⟩
    rw [hdir]
    exact if_neg hnil

theorem heightBalanced_of_avl {t : NodeTree} (ht : t.Avl) : heightBalanced t = true := by
  cases t with
  | nil => rfl
  | node l h a r => exact decide_eq_true ⟨ht.2.2.2.1, ht.2.2.2.2⟩

/-- A node that leans by at most two is brought back into balance. -/
theorem rebalanceAVLTree_spec (h : ℕ) (z : Node) (hl : l.Avl) (hr : r.Avl)
    (hleft : l.height ≤ r.height + 2) (hright : r.height ≤ l.height + 2) :
    ∃ t, rebalanceAVLTree (.node l h z r) = .ok (t, decide (t.height ≠ h)) ∧ t.Avl ∧
      t.toList = l.toList ++ z :: r.toList ∧
      (l.height ≤ r.height + 1 ∧ r.height ≤ l.height + 1 ∧ t.height = max l.height r.height + 1 ∨
        (l.height = r.height + 2 ∨ r.height = l.height + 2) ∧
          max l.height r.height ≤ t.height ∧ t.height ≤ max l.height r.height + 1) := by
  by_cases hbalanced : l.height ≤ r.height + 1 ∧ r.height ≤ l.height + 1
  · have havl : (join l z r).Avl := hl.join z hr hbalanced.1 hbalanced.2
    refine ⟨join l z r, ?_, havl, rfl, .inl ⟨hbalanced.1, hbalanced.2, rfl⟩⟩
    have hyes : heightBalanced (.node l h z r) = true := decide_eq_true hbalanced
    rw [rebalanceAVLTree, if_pos hyes]
    simp only [bind, Except.bind, require, heightBalanced_of_avl havl, if_true, pure, Except.pure]
  · have hlean : ∃ t, balanceHeight (.node l h z r) = .ok t ∧ t.Avl ∧
        t.toList = l.toList ++ z :: r.toList ∧ max l.height r.height ≤ t.height ∧
        t.height ≤ max l.height r.height + 1 := by
      rcases Nat.lt_or_ge r.height l.height with hlt | hge
      · rw [max_eq_left hlt.le]
        exact balanceHeight_left h z hl hr (by omega)
      · rw [max_eq_right hge]
        exact balanceHeight_right h z hl hr (by omega)
    obtain ⟨t, hbalance, havl, hlist, hlow, hhigh⟩ := hlean
    refine ⟨t, ?_, havl, hlist, .inr ⟨by omega, hlow, hhigh⟩⟩
    have hnot : ¬heightBalanced (.node l h z r) = true := fun hyes ↦ hbalanced (of_decide_eq_true hyes)
    rw [rebalanceAVLTree, if_neg hnot, hbalance]
    simp only [bind, Except.bind, require, heightBalanced_of_avl havl, if_true, pure, Except.pure]

end Level

/-! ### The climb -/

/-- A subtree after an insertion or a removal below: it is balanced, its height has changed by at
most one, and not at all when the climb has ended. -/
structure Adjusted (t t' : NodeTree) (up : Bool) : Prop where
  avl : t'.Avl
  near : Near t t'
  same : up = false → t'.height = t.height

section Climb

variable {l l' r r' : NodeTree} {h : ℕ} {z : Node} {up : Bool}

theorem Adjusted.refl (ht : r.Avl) : Adjusted r r up := ⟨ht, Near.refl _, fun _ ↦ rfl⟩

/-- One step of the climb, where one of the subtrees has been adjusted. -/
theorem climb_spec (ht : (node l h z r).Avl) (hl' : Adjusted l l' up) (hr' : Adjusted r r' up)
    (hone : l' = l ∨ r' = r) :
    ∃ t up', climb up (.node l' h z r') = .ok (t, up') ∧
      Adjusted (node l h z r) t up' ∧ t.toList = l'.toList ++ z :: r'.toList := by
  obtain ⟨-, -, hheight, hleft, hright⟩ := ht
  obtain ⟨hup, hdown⟩ := hl'.near
  obtain ⟨hup', hdown'⟩ := hr'.near
  have hheights : l'.height = l.height ∨ r'.height = r.height :=
    hone.imp (congrArg height) (congrArg height)
  cases up with
  | false =>
    have hsame := hl'.same rfl
    have hsame' := hr'.same rfl
    refine ⟨.node l' h z r', false, rfl,
      ⟨⟨hl'.avl, hr'.avl, ?_, ?_, ?_⟩, Near.refl _, fun _ ↦ rfl⟩, rfl⟩
    all_goals omega
  | true =>
    obtain ⟨t, hclimb, havl, hlist, hcases⟩ :=
      rebalanceAVLTree_spec h z hl'.avl hr'.avl (by omega) (by omega)
    refine ⟨t, _, hclimb, ⟨havl, ?_, ?_⟩, hlist⟩
    · constructor <;> simp only [height_node] <;> omega
    · intro hno
      simpa using hno

end Climb

/-! ### Runs of the climb -/

/-- An insertion into a search tree puts the node where its key belongs. -/
theorem insertInTree_spec {t : NodeTree} {new : Node} {xs ys : List Node} (ht : t.Avl)
    (hlist : t.toList = xs ++ ys) (hxs : ∀ n ∈ xs, n.key < new.key)
    (hys : ∀ n ∈ ys, new.key < n.key) :
    ∃ t' up, insertInTree new t = .ok (t', up) ∧ Adjusted t t' up ∧
      t'.toList = xs ++ new :: ys := by
  induction t generalizing xs ys with
  | nil =>
    obtain ⟨rfl, rfl⟩ := List.append_eq_nil_iff.mp hlist.symm
    exact ⟨_, _, rfl, ⟨⟨trivial, trivial, rfl, by simp, by simp⟩, by simp [Near], by simp⟩, rfl⟩
  | node l h a r ihl ihr =>
    rcases Nat.lt_trichotomy new.key a.key with hlt | heq | hgt
    · -- the root belongs to the nodes after the new one
      have hsplit : ∃ mid, l.toList = xs ++ mid ∧ ys = mid ++ a :: r.toList := by
        rcases List.append_eq_append_iff.mp hlist with ⟨mid, hx, hy⟩ | ⟨mid, hx, hy⟩
        · cases mid with
          | nil => exact ⟨[], by simpa using hx.symm, by simpa using hy.symm⟩
          | cons n mid =>
            have hroot : a = n := (List.cons.inj hy).1
            have := hxs a (by simp [hx, hroot])
            omega
        · exact ⟨mid, hx, hy⟩
      obtain ⟨mid, hl, rfl⟩ := hsplit
      obtain ⟨l', up, hinsert, hadjusted, hlist'⟩ :=
        ihl ht.1 hl hxs fun n hn ↦ hys n (List.mem_append_left _ hn)
      obtain ⟨t', up', hclimb, hdone, htree⟩ := climb_spec ht hadjusted (.refl ht.2.1) (.inr rfl)
      refine ⟨t', up', ?_, hdone, by simp [htree, hlist']⟩
      rw [insertInTree, if_pos hlt, hinsert]
      exact hclimb
    · have hmem : a ∈ xs ++ ys := hlist ▸ by simp
      rcases List.mem_append.mp hmem with hmem | hmem
      · have := hxs a hmem
        omega
      · have := hys a hmem
        omega
    · have hsplit : ∃ mid, xs = l.toList ++ a :: mid ∧ r.toList = mid ++ ys := by
        rcases List.append_eq_append_iff.mp hlist with ⟨mid, hx, hy⟩ | ⟨mid, hx, hy⟩
        · cases mid with
          | nil =>
            have := hys a (by rw [List.nil_append] at hy; simp [← hy])
            omega
          | cons n mid =>
            obtain ⟨rfl, hrest⟩ := List.cons.inj hy
            exact ⟨mid, hx, hrest⟩
        · have := hys a (by simp [hy])
          omega
      obtain ⟨mid, rfl, hr⟩ := hsplit
      obtain ⟨r', up, hinsert, hadjusted, hlist'⟩ :=
        ihr ht.2.1 hr (fun n hn ↦ hxs n (by simp [hn])) hys
      obtain ⟨t', up', hclimb, hdone, htree⟩ := climb_spec ht (.refl ht.1) hadjusted (.inl rfl)
      refine ⟨t', up', ?_, hdone, by simp [htree, hlist']⟩
      rw [insertInTree, if_neg (by omega), if_pos hgt, hinsert]
      exact hclimb

/-- The removal of a node without a left child leaves its right one. -/
theorem adjusted_right {h : ℕ} {a : Node} {r : NodeTree} (ht : (node .nil h a r).Avl) :
    Adjusted (node .nil h a r) r true := by
  obtain ⟨-, hr, hheight, -⟩ := ht
  rw [height_nil] at hheight
  refine ⟨hr, ⟨?_, ?_⟩, by simp⟩ <;> rw [height_node] <;> omega

/-- The removal of a node without a right child leaves its left one. -/
theorem adjusted_left {h : ℕ} {a : Node} {l : NodeTree} (ht : (node l h a .nil).Avl) :
    Adjusted (node l h a .nil) l true := by
  obtain ⟨hl, -, hheight, -⟩ := ht
  rw [height_nil] at hheight
  refine ⟨hl, ⟨?_, ?_⟩, by simp⟩ <;> rw [height_node] <;> omega

/-- The removal of the leftmost node. -/
theorem removeMinKeyNode_spec {t : NodeTree} (ht : t.Avl) (hne : t ≠ .nil) :
    ∃ t' up gone, removeMinKeyNode t = .ok (t', up, gone) ∧ Adjusted t t' up ∧
      t.toList = gone :: t'.toList := by
  induction t with
  | nil => exact absurd rfl hne
  | node l h a r ihl _ =>
    cases l with
    | nil => exact ⟨r, true, a, rfl, adjusted_right ht, rfl⟩
    | node ll lh la lr =>
      obtain ⟨l', up, gone, hremove, hadjusted, hlist⟩ := ihl ht.1 (by simp)
      obtain ⟨t', up', hclimb, hdone, htree⟩ := climb_spec ht hadjusted (.refl ht.2.1) (.inr rfl)
      refine ⟨t', up', gone, ?_, hdone, ?_⟩
      · rw [removeMinKeyNode, hremove]
        simp only [bind, Except.bind, hclimb]
        rfl
      · rw [htree, toList_node, hlist]
        rfl

/-- The node at the end of a path. -/
def nodeAt : Path → NodeTree → Option Node
  | _, .nil => none
  | [], .node _ _ a _ => some a
  | .left :: path, .node l _ _ _ => nodeAt path l
  | .right :: path, .node _ _ _ r => nodeAt path r

/-- What a removal leaves: the list without the node, or the node itself in the place of its
successor, which has left the tree. -/
inductive Left (node gone : Node) (old new : List Node) : Prop
  | itself (xs ys : List Node) (hold : old = xs ++ node :: ys) (hgone : gone = node)
      (hnew : new = xs ++ ys)
  | successor (xs ys : List Node) (hold : old = xs ++ node :: gone :: ys)
      (hnew : new = xs ++ node :: ys)

theorem Left.append {node gone : Node} {old new : List Node} (h : Left node gone old new)
    (front back : List Node) : Left node gone (front ++ old ++ back) (front ++ new ++ back) := by
  cases h with
  | itself xs ys hold hgone hnew =>
    exact .itself (front ++ xs) (ys ++ back) (by simp [hold]) hgone (by simp [hnew])
  | successor xs ys hold hnew =>
    exact .successor (front ++ xs) (ys ++ back) (by simp [hold]) (by simp [hnew])

/-- The removal of a node. -/
theorem removeFromTree_spec {t : NodeTree} {path : Path} {node : Node} (ht : t.Avl)
    (hat : nodeAt path t = some node) :
    ∃ t' up gone, removeFromTree path t = .ok (t', up, gone) ∧ Adjusted t t' up ∧
      Left node gone t.toList t'.toList := by
  induction t generalizing path with
  | nil => cases path <;> cases hat
  | node l h a r ihl ihr =>
    match path with
    | .left :: path =>
      obtain ⟨l', up, gone, hremove, hadjusted, hleft⟩ := ihl ht.1 hat
      obtain ⟨t', up', hclimb, hdone, htree⟩ := climb_spec ht hadjusted (.refl ht.2.1) (.inr rfl)
      refine ⟨t', up', gone, ?_, hdone, ?_⟩
      · rw [removeFromTree, hremove]
        simp only [bind, Except.bind, hclimb]
        rfl
      · rw [htree]
        exact hleft.append [] (a :: r.toList)
    | .right :: path =>
      obtain ⟨r', up, gone, hremove, hadjusted, hleft⟩ := ihr ht.2.1 hat
      obtain ⟨t', up', hclimb, hdone, htree⟩ := climb_spec ht (.refl ht.1) hadjusted (.inl rfl)
      refine ⟨t', up', gone, ?_, hdone, ?_⟩
      · rw [removeFromTree, hremove]
        simp only [bind, Except.bind, hclimb]
        rfl
      · have happend := hleft.append (l.toList ++ [a]) []
        rw [htree]
        simpa using happend
    | [] =>
      cases hat
      match l, r, ht with
      | .nil, r, ht => exact ⟨r, true, _, rfl, adjusted_right ht, .itself [] r.toList rfl rfl rfl⟩
      | .node ll lh la lr, .nil, ht =>
        exact ⟨_, true, _, rfl, adjusted_left ht, .itself _ [] rfl rfl (by simp)⟩
      | .node ll lh la lr, .node rl rh ra rr, ht =>
        obtain ⟨r', up, gone, hremove, hadjusted, hlist⟩ := removeMinKeyNode_spec ht.2.1 (by simp)
        obtain ⟨t', up', hclimb, hdone, htree⟩ := climb_spec ht (.refl ht.1) hadjusted (.inl rfl)
        refine ⟨t', up', gone, ?_, hdone, .successor _ r'.toList ?_ htree⟩
        · simp only [removeFromTree, hremove, bind, Except.bind, hclimb]
          rfl
        · rw [toList_node, hlist]

end CarbonSim.Queue
