import CarbonSim.Queue.HistoryTree

/-!
# Packets in the history-tree queue model

`Pool` is what every call keeps: the tree is balanced, the key of a node is the start of its
interval, and the blocks of the tree and the free blocks are together the blocks of the pool. Each
operation on the tree then has one effect on the list of free intervals, from left to right:
`prune_spec` drops the first one when there are too many, and `book_spec` is a first-fit booking.
-/

namespace CarbonSim.Queue.HistoryTree

open FirstFit AvlTree AvlTree.Tree List

variable {σ : Type} {cfg : HistoryTreeConfig} {s : HistoryTree σ}

/-- The free intervals from left to right. -/
def intervals (s : HistoryTree σ) : List Interval := Queue.intervals s.intervalTree.root

/-- The tree is well formed, and shares the memory blocks with the free list. -/
structure Pool (cfg : HistoryTreeConfig) (s : HistoryTree σ) : Prop where
  avl : s.intervalTree.root.Avl
  keys : ∀ n ∈ s.intervalTree.root.toList, n.key = n.interval.1
  partition : (blocks s.intervalTree.root ++ s.freeMemoryBlockList).Perm
    (List.range cfg.maxFreeIntervalSize)
  size : s.intervalTree.size = s.intervalTree.root.toList.length

/-- The analytical model has not been touched. -/
def SameModel (s s' : HistoryTree σ) : Prop :=
  s'.queueModelMG1 = s.queueModelMG1 ∧
    s'.totalRequestsUsingAnalyticalModel = s.totalRequestsUsingAnalyticalModel

theorem Pool.nodup (hs : Pool cfg s) : (blocks s.intervalTree.root).Nodup :=
  (nodup_append.mp (hs.partition.nodup_iff.mpr nodup_range)).1

/-- The tree and the free list have as many blocks as the pool. -/
theorem Pool.length (hs : Pool cfg s) :
    s.intervalTree.size + s.freeMemoryBlockList.length = cfg.maxFreeIntervalSize := by
  have hlength := hs.partition.length_eq
  rw [length_append, blocks, length_map, length_range] at hlength
  rw [hs.size, hlength]

theorem length_intervals (hs : Pool cfg s) : s.intervals.length = s.intervalTree.size := by
  rw [intervals, Queue.intervals, length_map, hs.size]

/-! ### Operations on nodes -/

section Operations

variable {node : Node} {xs ys : List Node}

theorem releaseNode_eq (s : HistoryTree σ) (hblock : node.block < cfg.maxFreeIntervalSize)
    (hfree : s.freeMemoryBlockList.length < cfg.maxFreeIntervalSize) :
    s.releaseNode cfg node =
      .ok { s with freeMemoryBlockList := node.block :: s.freeMemoryBlockList } := by
  rw [releaseNode, require, require, if_pos hblock, if_pos hfree]
  rfl

/-- A free block goes into the list where its key belongs. -/
theorem insertNode_spec (hs : Pool cfg s) (hsize : s.intervalTree.size < cfg.maxFreeIntervalSize)
    (iv : Interval) (hlist : s.intervalTree.root.toList = xs ++ ys)
    (hxs : ∀ n ∈ xs, n.key < iv.1) (hys : ∀ n ∈ ys, iv.1 < n.key) :
    ∃ s' new, s.insertNode iv = .ok s' ∧ Pool cfg s' ∧ SameModel s s' ∧
      s'.intervalTree.root.toList = xs ++ new :: ys ∧ new.interval = iv := by
  have hlength := hs.length
  obtain ⟨index, rest, hfree⟩ : ∃ index rest, s.freeMemoryBlockList = index :: rest :=
    exists_cons_of_length_pos (by omega)
  have hbefore : ∀ n ∈ xs, n.key < (Node.initialized index iv).key := hxs
  obtain ⟨root, up, hinsert, hadjusted, hnew⟩ := insertInTree_spec hs.avl hlist hbefore hys
  have hcall : s.insertNode iv = .ok ⟨⟨root, s.intervalTree.size + 1⟩, rest, s.queueModelMG1,
        s.totalRequestsUsingAnalyticalModel⟩ := by
    simp only [insertNode, allocateNode, hfree, bind, Except.bind, IntervalTree.insert, hinsert]
    rfl
  refine ⟨_, _, hcall, ⟨hadjusted.avl, ?_, ?_, ?_⟩, ⟨rfl, rfl⟩, hnew, rfl⟩
  · intro n hn
    simp only [hnew, mem_append, mem_cons] at hn
    rcases hn with hn | rfl | hn
    · exact hs.keys n (by simp [hlist, hn])
    · rfl
    · exact hs.keys n (by simp [hlist, hn])
  · have hpartition := hs.partition
    rw [blocks, hlist, hfree] at hpartition
    rw [blocks, hnew]
    refine .trans ?_ hpartition
    simp only [map_append, map_cons, append_assoc, cons_append]
    refine .append_left _ ?_
    exact perm_middle.symm
  · simp only [hnew, hs.size, hlist, length_append, length_cons]
    omega

variable (hs : Pool cfg s) (hlist : s.intervalTree.root.toList = xs ++ node :: ys)

include hs hlist

/-- An assignment that leaves the block of the node alone. -/
theorem Pool.modify (f : Node → Node) (hblock : (f node).block = node.block)
    (hkey : (f node).key = (f node).interval.1) :
    Pool cfg (s.setTree ⟨Queue.modify node.block f s.intervalTree.root, s.intervalTree.size⟩) := by
  have hnew := toList_modify f hlist hs.nodup
  have hkeys := hs.keys
  have hpartition := hs.partition
  constructor
  · exact hs.avl.map _
  · intro n hn
    simp only [setTree, hnew, mem_append, mem_cons] at hn
    rcases hn with hn | rfl | hn
    · exact hkeys n (by simp [hlist, hn])
    · exact hkey
    · exact hkeys n (by simp [hlist, hn])
  · simp only [blocks, hlist, map_append, map_cons] at hpartition
    simp only [setTree, blocks, hnew, map_append, map_cons, hblock]
    exact hpartition
  · simp only [setTree, hnew, hs.size, hlist, length_append, length_cons]

theorem setSecond_spec (second : ℕ) :
    Pool cfg (s.setSecond node second) ∧ (s.setSecond node second).intervals =
      xs.map Node.interval ++ (node.interval.1, second) :: ys.map Node.interval := by
  have hkey : node.key = node.interval.1 := hs.keys node (by simp [hlist])
  refine ⟨hs.modify hlist _ rfl hkey, ?_⟩
  simp [setSecond, setTree, intervals, Queue.intervals, toList_modify _ hlist hs.nodup]

theorem setFirst_spec (first : ℕ) :
    Pool cfg (s.setFirst node first) ∧ (s.setFirst node first).intervals =
      xs.map Node.interval ++ (first, node.interval.2) :: ys.map Node.interval := by
  refine ⟨hs.modify hlist _ rfl rfl, ?_⟩
  simp [setFirst, setTree, intervals, Queue.intervals, toList_modify _ hlist hs.nodup]

/-- A node stands in the tree once. -/
theorem Pool.split_unique {xs' ys' : List Node}
    (hlist' : s.intervalTree.root.toList = xs' ++ node :: ys') : xs' = xs ∧ ys' = ys := by
  have hnodup : s.intervalTree.root.toList.Nodup := hs.nodup.of_map _
  rw [hlist', nodup_middle, nodup_cons, mem_append, not_or] at hnodup
  obtain ⟨hxs, -, hys⟩ := (append_cons_inj_of_notMem hnodup.1.1 hnodup.1.2).mp
    (hlist'.symm.trans hlist)
  exact ⟨hxs, hys⟩

/-- The node leaves the list, and a block goes back to the pool. -/
theorem removeNode_spec {path : Path} (hat : nodeAt path s.intervalTree.root = some node) :
    ∃ s', s.removeNode cfg path node = .ok s' ∧ Pool cfg s' ∧ SameModel s s' ∧
      s'.intervals = xs.map Node.interval ++ ys.map Node.interval := by
  obtain ⟨tree, gone, xs', ys', hremove, havl, hsize, hlist', hcontent, hperm⟩ :=
    IntervalTree.remove_spec hs.avl hat hs.nodup
  obtain ⟨rfl, rfl⟩ := hs.split_unique hlist hlist'
  have hpartition : (blocks tree.root ++ gone.block :: s.freeMemoryBlockList).Perm
      (List.range cfg.maxFreeIntervalSize) :=
    (perm_middle.trans (hperm.append_right _)).trans hs.partition
  have hblock : gone.block < cfg.maxFreeIntervalSize := by
    rw [← mem_range, ← hpartition.mem_iff]
    simp
  have hfree : s.freeMemoryBlockList.length < cfg.maxFreeIntervalSize := by
    have hlength := hs.length
    rw [hs.size, hlist, length_append, length_cons] at hlength
    omega
  have hcall : s.removeNode cfg path node = .ok { s.setTree tree with
      freeMemoryBlockList := gone.block :: s.freeMemoryBlockList } := by
    rw [removeNode, hremove]
    exact releaseNode_eq (s.setTree tree) hblock hfree
  have hintervals : tree.root.toList.map Node.interval =
      xs'.map Node.interval ++ ys'.map Node.interval := by
    have := congrArg (List.map Prod.snd) hcontent
    simpa [Node.content, Function.comp_def] using this
  refine ⟨_, hcall, ⟨havl, ?_, hpartition, ?_⟩, ⟨rfl, rfl⟩, hintervals⟩
  · intro n hn
    have hmem : n.content ∈ (xs' ++ ys').map Node.content := hcontent ▸ mem_map_of_mem hn
    obtain ⟨m, hm, heq⟩ := mem_map.mp hmem
    have hkey : m.key = m.interval.1 := by
      apply hs.keys m
      rw [hlist]
      rcases mem_append.mp hm with hm | hm <;> simp [hm]
    simp only [Node.content, Prod.mk.injEq] at heq
    rw [← heq.1, ← heq.2, hkey]
  · have hlength := congrArg List.length hintervals
    rw [length_map, length_append, length_map, length_map] at hlength
    change tree.size = tree.root.toList.length
    rw [hlength, hsize, hs.size, hlist, length_append, length_cons]
    omega

end Operations

/-! ### Packets -/

section Packets

variable {t p : ℕ}

/-- The search for the first unit of free time finds the leftmost node. -/
theorem search_min (hleast : 0 < cfg.minProcessingTime)
    (hsep : Separated cfg.minProcessingTime s.intervals) (hne : s.intervals ≠ []) :
    ∃ path node ys, s.intervalTree.search (0, 1) = some (path, node) ∧
      nodeAt path s.intervalTree.root = some node ∧
      s.intervalTree.root.toList = node :: ys := by
  have hlong : ∀ n ∈ s.intervalTree.root.toList,
      n.interval.1 + cfg.minProcessingTime ≤ n.interval.2 :=
    fun n hn ↦ hsep.long _ (mem_map_of_mem hn)
  have hroom : ∀ n ∈ s.intervalTree.root.toList, Fits 0 1 n.interval := by
    intro n hn
    have := hlong n hn
    unfold Fits start
    omega
  have hfinds := searchTree_spec 0 1 hsep.apart fun n hn ↦ (Nat.le_add_right _ _).trans (hlong n hn)
  have hsearch : s.intervalTree.search (0, 1) = searchTree (0, 0 + 1) s.intervalTree.root := rfl
  cases hfound : searchTree (0, 0 + 1) s.intervalTree.root with
  | none =>
    rw [hfound] at hfinds
    cases hfinds with
    | nothing hnone =>
      obtain ⟨n, rest, hlist⟩ := exists_cons_of_ne_nil
        (show s.intervalTree.root.toList ≠ [] from fun hnil ↦
          hne (by simp [intervals, Queue.intervals, hnil]))
      exact absurd (hroom n (by simp [hlist])) (hnone n (by simp [hlist]))
  | some found =>
    rw [hfound] at hfinds
    cases hfinds with
    | first path node xs ys hat hlist hfits hfirst =>
      cases xs with
      | nil => exact ⟨path, node, ys, hsearch.trans hfound, hat, hlist⟩
      | cons n xs => exact absurd (hroom n (by simp [hlist])) (hfirst n (by simp))

/-- Pruning forgets the oldest interval of a tree that uses all blocks. -/
theorem prune_spec (hmax : 2 ≤ cfg.maxFreeIntervalSize) (hleast : 0 < cfg.minProcessingTime)
    (hs : Pool cfg s) (hsep : Separated cfg.minProcessingTime s.intervals) :
    ∃ s', s.prune cfg = .ok s' ∧ Pool cfg s' ∧ SameModel s s' ∧
      s'.intervals = trim (cfg.maxFreeIntervalSize - 1) s.intervals := by
  have hlength := length_intervals hs
  by_cases hfull : cfg.maxFreeIntervalSize ≤ s.intervalTree.size
  · have hne : s.intervals ≠ [] := by
      intro hnil
      rw [hnil, length_nil] at hlength
      omega
    obtain ⟨path, node, rest, hsearch, hat, hfirst⟩ := search_min hleast hsep hne
    have hlist : s.intervalTree.root.toList = [] ++ node :: rest := hfirst
    obtain ⟨s', hremove, hpool, hsame, hintervals⟩ := removeNode_spec hs hlist hat
    refine ⟨s', ?_, hpool, hsame, ?_⟩
    · rw [prune, if_pos hfull, hsearch]
      exact hremove
    · rw [hintervals, trim, if_pos (by omega), intervals, Queue.intervals, hlist]
      rfl
  · refine ⟨s, if_neg hfull, hs, ⟨rfl, rfl⟩, ?_⟩
    rw [trim, if_neg (by omega)]

section Booking

variable {node : Node} {xs ys : List Node} {path : Path}

variable (hs : Pool cfg s) (hlist : s.intervalTree.root.toList = xs ++ node :: ys)

include hs hlist

/-- What is after the packet stays if it is long enough. -/
theorem keepRight_spec (hat : nodeAt path s.intervalTree.root = some node) (finish : ℕ) :
    ∃ s', s.keepRight cfg path node finish = .ok s' ∧ Pool cfg s' ∧ SameModel s s' ∧
      s'.intervals = xs.map Node.interval ++
        (keep cfg.minProcessingTime (finish, node.interval.2) ++ ys.map Node.interval) := by
  by_cases hlong : cfg.minProcessingTime ≤ node.interval.2 - finish
  · obtain ⟨hpool, hintervals⟩ := setFirst_spec hs hlist finish
    refine ⟨s.setFirst node finish, if_pos hlong, hpool, ⟨rfl, rfl⟩, ?_⟩
    rw [hintervals, keep, if_pos hlong]
    rfl
  · obtain ⟨s', hremove, hpool, hsame, hintervals⟩ := removeNode_spec hs hlist hat
    refine ⟨s', ?_, hpool, hsame, ?_⟩
    · rw [keepRight, if_neg hlong]
      exact hremove
    · rw [hintervals, keep, if_neg hlong]
      rfl

/-- What is before the packet stays in the node, and what is after it goes into a new one if it is
long enough. -/
theorem keepLeft_spec (hsize : s.intervalTree.size < cfg.maxFreeIntervalSize) (t : ℕ) {finish : ℕ}
    (hxs : ∀ n ∈ xs ++ [node], n.key < finish) (hys : ∀ n ∈ ys, finish < n.key) :
    ∃ s', s.keepLeft cfg node t finish = .ok s' ∧ Pool cfg s' ∧ SameModel s s' ∧
      s'.intervals = xs.map Node.interval ++ ((node.interval.1, t) ::
        (keep cfg.minProcessingTime (finish, node.interval.2) ++ ys.map Node.interval)) := by
  by_cases hlong : cfg.minProcessingTime ≤ node.interval.2 - finish
  · have hsplit : s.intervalTree.root.toList = (xs ++ [node]) ++ ys := by simp [hlist]
    obtain ⟨s', new, hinsert, hpool, hsame, hnew, hinterval⟩ :=
      insertNode_spec hs hsize (finish, node.interval.2) hsplit hxs hys
    have hmiddle : s'.intervalTree.root.toList = xs ++ node :: (new :: ys) := by simp [hnew]
    obtain ⟨hpool', hintervals⟩ := setSecond_spec hpool hmiddle t
    refine ⟨s'.setSecond node t, ?_, hpool', hsame, ?_⟩
    · rw [keepLeft, if_pos hlong, hinsert]
      rfl
    · rw [hintervals, keep, if_pos hlong, map_cons, hinterval]
      rfl
  · obtain ⟨hpool, hintervals⟩ := setSecond_spec hs hlist t
    refine ⟨s.setSecond node t, ?_, hpool, ⟨rfl, rfl⟩, ?_⟩
    · rw [keepLeft, if_neg hlong]
      rfl
    · rw [hintervals, keep, if_neg hlong]
      rfl

/-- A packet is served in a free interval with room for it. -/
theorem bookIn_spec (hleast : 0 < cfg.minProcessingTime)
    (hsep : Separated cfg.minProcessingTime s.intervals)
    (hsize : s.intervalTree.size < cfg.maxFreeIntervalSize) (hp : 0 < p)
    (hat : nodeAt path s.intervalTree.root = some node) (hfits : Fits t p node.interval)
    (hroom : start t node.interval + p ≤ uint64Max) :
    ∃ s', s.bookIn cfg path node t p = .ok (start t node.interval - t, s') ∧ Pool cfg s' ∧
      SameModel s s' ∧ s'.intervals = xs.map Node.interval ++
        (pieces cfg.minProcessingTime (start t node.interval) (start t node.interval + p)
          node.interval ++ ys.map Node.interval) := by
  by_cases hin : node.interval.1 ≤ t
  · have hstart : start t node.interval = t := max_eq_right hin
    rw [Fits, hstart] at hfits
    rw [hstart] at hroom ⊢
    rw [bookIn, if_pos hin, add64_of_le hroom, Nat.sub_self]
    by_cases hleft : cfg.minProcessingTime ≤ t - node.interval.1
    · -- the new node belongs between this one and the next
      have hintervals : s.intervals = xs.map Node.interval ++
          node.interval :: ys.map Node.interval := by
        simp [intervals, Queue.intervals, hlist]
      rw [hintervals] at hsep
      obtain ⟨-, hafter, hbefore⟩ := pairwise_append.mp hsep.apart
      have hxs : ∀ n ∈ xs ++ [node], n.key < t + p := by
        intro n hn
        rcases mem_append.mp hn with hn | hn
        · have hlong := hsep.long n.interval (by simp [mem_map_of_mem hn])
          have hlt := hbefore _ (mem_map_of_mem hn) node.interval (by simp)
          rw [hs.keys n (by simp [hlist, hn])]
          omega
        · rw [mem_singleton.mp hn, hs.keys node (by simp [hlist])]
          omega
      have hys : ∀ n ∈ ys, t + p < n.key := by
        intro n hn
        have hlt := (pairwise_cons.mp hafter).1 _ (mem_map_of_mem hn)
        rw [hs.keys n (by simp [hlist, hn])]
        omega
      obtain ⟨s', hkeep, hpool, hsame, hresult⟩ := keepLeft_spec hs hlist hsize t hxs hys
      refine ⟨s', ?_, hpool, hsame, ?_⟩
      · rw [if_pos hleft, hkeep]
        rfl
      · have hkept : keep cfg.minProcessingTime (node.interval.1, t) = [(node.interval.1, t)] :=
          keep_of_le hleft
        rw [hresult, pieces, hkept]
        rfl
    · obtain ⟨s', hkeep, hpool, hsame, hresult⟩ := keepRight_spec hs hlist hat (t + p)
      refine ⟨s', ?_, hpool, hsame, ?_⟩
      · rw [if_neg hleft, hkeep]
        rfl
      · have hnone : keep cfg.minProcessingTime (node.interval.1, t) = [] :=
          keep_of_lt (Nat.lt_of_not_le hleft)
        rw [hresult, pieces, hnone]
        rfl
  · have hstart : start t node.interval = node.interval.1 := max_eq_left (by omega)
    rw [hstart] at hroom ⊢
    rw [bookIn, if_neg hin, add64_of_le hroom]
    obtain ⟨s', hkeep, hpool, hsame, hresult⟩ := keepRight_spec hs hlist hat (node.interval.1 + p)
    refine ⟨s', ?_, hpool, hsame, ?_⟩
    · rw [hkeep]
      rfl
    · have hnone : keep cfg.minProcessingTime (node.interval.1, node.interval.1) = [] :=
        keep_of_lt (by simp only; omega)
      rw [hresult, pieces, hnone]
      rfl

end Booking

/-- A packet is booked in the first free interval with room for it. -/
theorem book_spec {b : ℕ} {l : List Interval} (hleast : 0 < cfg.minProcessingTime)
    (hs : Pool cfg s) (hsep : Separated cfg.minProcessingTime s.intervals)
    (hsize : s.intervalTree.size < cfg.maxFreeIntervalSize) (hp : 0 < p)
    (hroom : ∀ iv ∈ s.intervals, start t iv + p ≤ uint64Max)
    (hserve : serve cfg.minProcessingTime t p s.intervals = some (b, l)) :
    ∃ s', s.book cfg t p = .ok (b - t, s') ∧ Pool cfg s' ∧ SameModel s s' ∧ s'.intervals = l := by
  have hforth : ∀ n ∈ s.intervalTree.root.toList, n.interval.1 ≤ n.interval.2 := fun n hn ↦
    (Nat.le_add_right _ _).trans (hsep.long _ (mem_map_of_mem hn))
  have hfinds := searchTree_spec t p hsep.apart hforth
  cases hfound : searchTree (t, t + p) s.intervalTree.root with
  | none =>
    rw [hfound] at hfinds
    cases hfinds with
    | nothing hnone =>
      obtain ⟨front, iv, back, hsplit, -, hfits, -⟩ := serve_eq_some hserve
      have hiv : iv ∈ s.intervals := by simp [hsplit]
      obtain ⟨n, hn, rfl⟩ := mem_map.mp hiv
      exact absurd hfits (hnone n hn)
  | some found =>
    rw [hfound] at hfinds
    cases hfinds with
    | first path node xs ys hat hlist hfits hfirst =>
      have hintervals : s.intervals = xs.map Node.interval ++
          node.interval :: ys.map Node.interval := by
        simp [intervals, Queue.intervals, hlist]
      have hnone : ∀ iv ∈ xs.map Node.interval, ¬Fits t p iv := by
        intro iv hiv
        obtain ⟨n, hn, rfl⟩ := mem_map.mp hiv
        exact hfirst n hn
      have hserved := serve_of_first cfg.minProcessingTime (ys.map Node.interval) hnone hfits
      rw [hintervals, hserved] at hserve
      cases hserve
      have hnode : start t node.interval + p ≤ uint64Max := hroom _ (by simp [hintervals])
      have htime : t ≤ start t node.interval := le_max_right _ _
      have hsum : add64 t p = t + p := add64_of_le (by omega)
      have hends : t + p ≤ node.interval.2 := by
        unfold Fits at hfits
        omega
      obtain ⟨s', hbook, hpool, hsame, hresult⟩ :=
        bookIn_spec hs hlist hleast hsep hsize hp hat hfits hnode
      refine ⟨s', ?_, hpool, hsame, hresult⟩
      rw [book, hsum, IntervalTree.search, hfound]
      simp only [fetch, bind, Except.bind, require, if_pos hends]
      exact hbook

end Packets

end CarbonSim.Queue.HistoryTree
