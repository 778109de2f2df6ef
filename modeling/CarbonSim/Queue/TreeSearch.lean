import CarbonSim.Queue.TreeBalance
import Mathlib.Data.List.Nodup
import Mathlib.Data.List.Perm.Basic

/-!
# Searching and rewriting the interval tree

In a tree whose intervals are in order, with a gap between any two, `searchTree` finds the first
interval with room for a packet, although it leaves out the left subtree of a node that starts
before the packet would end (`searchTree_spec`). `remove_spec` and `toList_modify` are the effects of
a removal and of an assignment to a node on the list of the nodes.
-/

namespace CarbonSim.Queue

open FirstFit AvlTree AvlTree.Tree List

/-- The intervals from left to right. -/
def intervals (t : NodeTree) : List Interval := t.toList.map Node.interval

/-- The memory blocks of the nodes. -/
def blocks (t : NodeTree) : List ℕ := t.toList.map Node.block

/-! ### Search -/

/-- What a search for room finds: nothing where no interval has room, and otherwise the first one
that does. -/
inductive Finds (t p : ℕ) (tree : NodeTree) : Option (Path × Node) → Prop
  | nothing (hnone : ∀ n ∈ tree.toList, ¬Fits t p n.interval) : Finds t p tree none
  | first (path : Path) (node : Node) (xs ys : List Node) (hat : nodeAt path tree = some node)
      (hlist : tree.toList = xs ++ node :: ys) (hfits : Fits t p node.interval)
      (hfirst : ∀ n ∈ xs, ¬Fits t p n.interval) : Finds t p tree (some (path, node))

/-- The search finds the leftmost interval with room. -/
theorem searchTree_spec (t p : ℕ) {tree : NodeTree}
    (hapart : (intervals tree).Pairwise fun a b ↦ a.2 < b.1)
    (hforth : ∀ n ∈ tree.toList, n.interval.1 ≤ n.interval.2) :
    Finds t p tree (searchTree (t, t + p) tree) := by
  induction tree with
  | nil => exact .nothing (by simp)
  | node l h a r ihl ihr =>
    have hsplit : (intervals l ++ a.interval :: intervals r).Pairwise fun a b ↦ a.2 < b.1 := by
      simpa [intervals] using hapart
    obtain ⟨hl, hr, hacross⟩ := pairwise_append.mp hsplit
    have ihl := ihl hl fun n hn ↦ hforth n (by simp [hn])
    have ihr := ihr (pairwise_cons.mp hr).2 fun n hn ↦ hforth n (by simp [hn])
    have hroot := hforth a (by simp)
    have hbefore : ∀ n ∈ l.toList, n.interval.2 < a.interval.1 := fun n hn ↦
      hacross _ (mem_map_of_mem hn) _ mem_cons_self
    rw [searchTree]
    by_cases hin : a.interval.1 ≤ t ∧ t + p ≤ a.interval.2
    · rw [if_pos hin]
      refine .first [] a l.toList r.toList rfl rfl ?_ ?_
      · rw [Fits, start, max_eq_right hin.1]
        exact hin.2
      · intro n hn hfits
        have := hbefore n hn
        unfold Fits start at hfits
        omega
    rw [if_neg hin]
    -- the left subtree is searched, or it has no room
    have hleft : Finds t p l (if t + p < a.interval.1 then searchTree (t, t + p) l else none) := by
      split
      · exact ihl
      · refine .nothing fun n hn hfits ↦ ?_
        have := hbefore n hn
        unfold Fits start at hfits
        omega
    cases hfound : (if t + p < a.interval.1 then searchTree (t, t + p) l else none) with
    | some found =>
      rw [hfound] at hleft
      cases hleft with
      | first path node xs ys hat hlist hfits hfirst =>
        exact .first (.left :: path) node xs (ys ++ a :: r.toList) hat (by simp [hlist]) hfits hfirst
    | none =>
      simp only
      rw [hfound] at hleft
      cases hleft with
      | nothing hnone =>
        by_cases hstarts : t < a.interval.1 ∧ t + p - t ≤ a.interval.2 - a.interval.1
        · rw [if_pos hstarts]
          refine .first [] a l.toList r.toList rfl rfl ?_ hnone
          rw [Fits, start, max_eq_left hstarts.1.le]
          omega
        · rw [if_neg hstarts]
          have hshort : ¬Fits t p a.interval := by
            unfold Fits start
            omega
          cases hright : searchTree (t, t + p) r with
          | none =>
            rw [hright] at ihr
            cases ihr with
            | nothing hright =>
              refine .nothing ?_
              intro n hn
              rw [toList_node, mem_append, mem_cons] at hn
              rcases hn with hn | rfl | hn
              · exact hnone n hn
              · exact hshort
              · exact hright n hn
          | some found =>
            rw [hright] at ihr
            cases ihr with
            | first path node xs ys hat hlist hfits hfirst =>
              refine .first (.right :: path) node (l.toList ++ a :: xs) ys hat ?_ hfits ?_
              · simp [hlist]
              · intro n hn
                rw [mem_append, mem_cons] at hn
                rcases hn with hn | rfl | hn
                · exact hnone n hn
                · exact hshort
                · exact hfirst n hn

/-- A binary search tree: its keys increase from left to right. -/
def IsSearchTree (tree : NodeTree) : Prop := tree.toList.Pairwise fun a b ↦ a.key < b.key

/-- The interval contains `[t, t + p]`, or starts after `t` and is at least `p` long. -/
def Qualifies (t p : ℕ) (iv : Interval) : Prop :=
  iv.1 ≤ t ∧ t + p ≤ iv.2 ∨ t < iv.1 ∧ p ≤ iv.2 - iv.1

theorem qualifies_iff {t p : ℕ} {iv : Interval} (hforth : iv.1 ≤ iv.2) :
    Qualifies t p iv ↔ Fits t p iv := by
  unfold Qualifies Fits start
  omega

/-- In a search tree of disjoint intervals that do not touch, `search` returns the node with the
smallest key that qualifies, and no node exactly where none qualifies. -/
theorem search_leftmost_fit (tree : IntervalTree) (t p : ℕ) (hordered : IsSearchTree tree.root)
    (hkey : ∀ n ∈ tree.root.toList, n.key = n.interval.1 ∧ n.interval.1 ≤ n.interval.2)
    (hdisjoint : tree.root.toList.Pairwise fun a b ↦
      a.interval.2 < b.interval.1 ∨ b.interval.2 < a.interval.1) :
    (∀ path node, tree.search (t, t + p) = some (path, node) →
      nodeAt path tree.root = some node ∧ Qualifies t p node.interval ∧
        ∀ n ∈ tree.root.toList, Qualifies t p n.interval → node.key ≤ n.key) ∧
    (tree.search (t, t + p) = none ↔ ∀ n ∈ tree.root.toList, ¬ Qualifies t p n.interval) := by
  have hforth : ∀ n ∈ tree.root.toList, n.interval.1 ≤ n.interval.2 := fun n hn ↦ (hkey n hn).2
  have hapart : (intervals tree.root).Pairwise fun a b ↦ a.2 < b.1 := by
    refine pairwise_map.mpr ((hordered.and hdisjoint).imp_of_mem ?_)
    rintro a b ha hb ⟨hlt, hbefore | hafter⟩
    · exact hbefore
    · have := hkey a ha
      have := hkey b hb
      omega
  have hfinds : Finds t p tree.root (tree.search (t, t + p)) := searchTree_spec t p hapart hforth
  cases hsearch : tree.search (t, t + p) with
  | none =>
    rw [hsearch] at hfinds
    cases hfinds with
    | nothing hnone =>
      refine ⟨fun _ _ heq ↦ (by cases heq), fun _ n hn ↦ ?_, fun _ ↦ rfl⟩
      exact mt (qualifies_iff (hforth n hn)).mp (hnone n hn)
  | some found =>
    rw [hsearch] at hfinds
    cases hfinds with
    | first path node xs ys hat hlist hfits hfirst =>
      have hnode : node ∈ tree.root.toList := by simp [hlist]
      have hqualifies := (qualifies_iff (hforth node hnode)).mpr hfits
      refine ⟨fun _ _ heq ↦ ?_, fun heq ↦ (by cases heq), fun hnone ↦ ?_⟩
      swap
      · exact absurd hqualifies (hnone _ hnode)
      cases heq
      refine ⟨hat, hqualifies, fun n hn hq ↦ ?_⟩
      have hfits' := (qualifies_iff (hforth n hn)).mp hq
      rw [IsSearchTree, hlist, pairwise_append, pairwise_cons] at hordered
      rw [hlist, mem_append, mem_cons] at hn
      rcases hn with hn | rfl | hn
      · exact absurd hfits' (hfirst n hn)
      · exact le_rfl
      · exact (hordered.2.1.1 n hn).le

/-- The room after `(3, 5)` is too short, so the search for two units from 6 on goes right. -/
theorem search_leftmost_fit_threeNodes :
    ∃ node, (⟨.node (.node .nil 1 (.initialized 0 (3, 5)) .nil) 2 (.initialized 1 (7, 8))
      (.node .nil 1 (.initialized 2 (10, 20)) .nil), 3⟩ : IntervalTree).search (6, 6 + 2) =
        some ([.right], node) ∧ node.interval = (10, 20) ∧ Qualifies 6 2 node.interval := by
  refine ⟨.initialized 2 (10, 20), rfl, rfl, ?_⟩
  exact ((search_leftmost_fit ⟨.node (.node .nil 1 (.initialized 0 (3, 5)) .nil) 2
    (.initialized 1 (7, 8)) (.node .nil 1 (.initialized 2 (10, 20)) .nil), 3⟩ 6 2
    (by unfold IsSearchTree; decide) (by decide) (by decide)).1 _ _ rfl).2.1

/-! ### Assignments -/

/-- An assignment to a node leaves the other nodes as they are. -/
theorem toList_modify {tree : NodeTree} {xs ys : List Node} {node : Node} (f : Node → Node)
    (hlist : tree.toList = xs ++ node :: ys) (hnodup : (blocks tree).Nodup) :
    (modify node.block f tree).toList = xs ++ f node :: ys := by
  rw [blocks, hlist, map_append, map_cons, nodup_middle, nodup_cons, mem_append] at hnodup
  have hother : ∀ n ∈ xs ++ ys, (if n.block = node.block then f n else n) = n := by
    intro n hn
    refine if_neg fun hblock ↦ hnodup.1 ?_
    rcases mem_append.mp hn with hn | hn
    · exact .inl (hblock ▸ mem_map_of_mem hn)
    · exact .inr (hblock ▸ mem_map_of_mem hn)
  have hxs : xs.map (fun n ↦ if n.block = node.block then f n else n) = xs :=
    (map_congr_left fun n hn ↦ hother n (mem_append_left _ hn)).trans (map_id _)
  have hys : ys.map (fun n ↦ if n.block = node.block then f n else n) = ys :=
    (map_congr_left fun n hn ↦ hother n (mem_append_right _ hn)).trans (map_id _)
  rw [modify, toList_map, hlist, map_append, map_cons, hxs, hys, if_pos rfl]

/-! ### Removal -/

/-- What a node holds, wherever it is stored. -/
def Node.content (n : Node) : ℕ × Interval := (n.key, n.interval)

/-- A removal takes the contents of the node out of the list, and some node out of the tree. -/
theorem IntervalTree.remove_spec {tree : IntervalTree} {path : Path} {node : Node}
    (havl : tree.root.Avl) (hat : nodeAt path tree.root = some node)
    (hnodup : (blocks tree.root).Nodup) :
    ∃ tree' gone xs ys, tree.remove path node = .ok (tree', gone) ∧ tree'.root.Avl ∧
      tree'.size = tree.size - 1 ∧ tree.root.toList = xs ++ node :: ys ∧
      tree'.root.toList.map Node.content = (xs ++ ys).map Node.content ∧
      (gone.block :: blocks tree'.root).Perm (blocks tree.root) := by
  obtain ⟨root, up, gone, hremove, hadjusted, hleft⟩ := removeFromTree_spec havl hat
  cases hleft with
  | itself xs ys hold hgone hnew =>
    refine ⟨⟨root, tree.size - 1⟩, gone, xs, ys, ?_, hadjusted.avl, rfl, hold, by rw [hnew], ?_⟩
    · rw [IntervalTree.remove, hremove]
      exact if_pos (congrArg Node.block hgone)
    · rw [blocks, blocks, hnew, hold, hgone, map_append, map_append, map_cons]
      exact perm_middle.symm
  | successor xs ys hold hnew =>
    have hne : ¬gone.block = node.block := by
      intro heq
      rw [blocks, hold, map_append, map_cons, map_cons, nodup_middle, nodup_cons] at hnodup
      exact hnodup.1 (by simp [heq])
    have hperm : (gone.block :: blocks root).Perm (blocks tree.root) := by
      rw [blocks, blocks, hnew, hold]
      simp only [map_append, map_cons]
      exact (perm_middle.symm.trans (List.Perm.append_left _ (List.Perm.swap _ _ _)))
    have hcall : tree.remove path node =
        .ok (⟨modify node.block (·.take gone) root, tree.size - 1⟩, gone.take node) := by
      rw [IntervalTree.remove, hremove]
      exact if_neg hne
    have hlist := toList_modify (·.take gone) hnew (nodup_cons.mp (hperm.nodup_iff.mpr hnodup)).2
    refine ⟨_, _, xs, gone :: ys, hcall, hadjusted.avl.map _, rfl, hold, ?_, ?_⟩
    · simp only [hlist]
      simp [Node.content, Node.take]
    · simp only [blocks, hnew, map_append, map_cons] at hperm
      simp only [blocks, hlist, map_append, map_cons]
      exact hperm

end CarbonSim.Queue
