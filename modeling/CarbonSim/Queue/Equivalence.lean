import CarbonSim.Queue.TreePackets
import Mathlib.Data.Option.Basic

/-!
# The two history models compute the same delays

The history-tree model stands for a history-list model without interleaving whose list is one
shorter (`listConfig`): what it remembers is its intervals from left to right, less the one that its
next call prunes (`standsFor`). `Refines.step` follows one packet in both, and `Refines.run` a whole
sequence. The hypothesis is that time does not run out (`InTime`) at any packet of the sequence.
-/

namespace CarbonSim.Queue

open FirstFit AvlTree AvlTree.Tree List

/-- A condition on the state and the packet that holds at every packet of a run. -/
def Along {S : Type} (computeQueueDelay : S → ℕ → ℕ → Except QueueFault (ℕ × S))
    (holds : S → ℕ → ℕ → Prop) : S → List (ℕ × ℕ) → Prop
  | _, [] => True
  | s, (pktTime, processingTime) :: rest =>
    holds s pktTime processingTime ∧ match computeQueueDelay s pktTime processingTime with
      | .ok (_, s) => Along computeQueueDelay holds s rest
      | .error _ => True

section Runs

variable {S : Type} {computeQueueDelay : S → ℕ → ℕ → Except QueueFault (ℕ × S)}
  {holds : S → ℕ → ℕ → Prop} {s s' : S} {t p d : ℕ} {packets : List (ℕ × ℕ)}

theorem Along.tail (h : Along computeQueueDelay holds s ((t, p) :: packets))
    (hstep : computeQueueDelay s t p = .ok (d, s')) :
    Along computeQueueDelay holds s' packets := by
  have hrest := h.2
  rw [hstep] at hrest
  exact hrest

theorem Along.mono {holds' : S → ℕ → ℕ → Prop} (h : Along computeQueueDelay holds s packets)
    (hweaker : ∀ s t p, holds s t p → holds' s t p) :
    Along computeQueueDelay holds' s packets := by
  induction packets generalizing s with
  | nil => trivial
  | cons packet rest ih =>
    obtain ⟨t, p⟩ := packet
    refine ⟨hweaker s t p h.1, ?_⟩
    cases hstep : computeQueueDelay s t p with
    | error _ => trivial
    | ok result => exact ih (h.tail hstep)

theorem Along.of_append {first rest : List (ℕ × ℕ)}
    (h : Along computeQueueDelay holds s (first ++ rest)) : Along computeQueueDelay holds s first := by
  induction first generalizing s with
  | nil => trivial
  | cons packet first ih =>
    obtain ⟨t, p⟩ := packet
    refine ⟨h.1, ?_⟩
    cases hstep : computeQueueDelay s t p with
    | error _ => trivial
    | ok result => exact ih (Along.tail h hstep)

theorem runPackets_cons {delays : List ℕ} {s'' : S} (hstep : computeQueueDelay s t p = .ok (d, s'))
    (hrun : runPackets computeQueueDelay s' packets = .ok (delays, s'')) :
    runPackets computeQueueDelay s ((t, p) :: packets) = .ok (d :: delays, s'') := by
  rw [runPackets, hstep]
  simp only [bind, Except.bind, hrun]
  rfl

instance decidableAlong (computeQueueDelay : S → ℕ → ℕ → Except QueueFault (ℕ × S))
    (holds : S → ℕ → ℕ → Prop) [∀ s t p, Decidable (holds s t p)] :
    (s : S) → (packets : List (ℕ × ℕ)) → Decidable (Along computeQueueDelay holds s packets)
  | _, [] => inferInstanceAs (Decidable True)
  | s, (t, p) :: rest =>
    have : Decidable (match computeQueueDelay s t p with
        | .ok (_, s) => Along computeQueueDelay holds s rest
        | .error _ => True) :=
      match computeQueueDelay s t p with
      | .ok (_, s) => decidableAlong computeQueueDelay holds s rest
      | .error _ => inferInstanceAs (Decidable True)
    inferInstanceAs (Decidable (_ ∧ _))

end Runs

namespace HistoryList

variable {σ : Type}

instance decidableOld (cfg : HistoryListConfig) (s : HistoryList σ) (t p : ℕ) :
    Decidable (Old cfg s t p) :=
  inferInstanceAs (Decidable (∃ oldest ∈ s.freeIntervalList.head?, _))

instance decidableInTime (cfg : HistoryListConfig) (model : AnalyticalModel σ) (s : HistoryList σ)
    (t p : ℕ) : Decidable (InTime cfg model s t p) :=
  decidable_of_iff (_ ∧ (Old cfg s t p → _)) ⟨fun h ↦ ⟨h.1, h.2⟩, fun h ↦ ⟨h.served, h.waits⟩⟩

/-- The model before its first packet. -/
theorem sound_initial {cfg : HistoryListConfig} (hsize : 0 < cfg.maxFreeIntervalListSize)
    (hword : cfg.minProcessingTime ≤ uint64Max) (mg1 : σ) : Sound cfg (initial mg1) := by
  refine ⟨⟨pairwise_singleton _ _, ?_⟩, rfl, hsize⟩
  intro iv hiv
  rw [mem_singleton.mp hiv, Nat.zero_add]
  exact hword

end HistoryList

namespace HistoryTree

variable {σ : Type} {cfg : HistoryTreeConfig} {model : AnalyticalModel σ} {s : HistoryTree σ}
  {l l' : HistoryList σ} {t p d : ℕ}

/-- The history-list model that the tree is compared with. -/
def listConfig (cfg : HistoryTreeConfig) : HistoryListConfig :=
  ⟨cfg.maxFreeIntervalSize - 1, cfg.analyticalModelEnabled, false, cfg.minProcessingTime⟩

/-- What the model remembers: its intervals, after the pruning of the next call. -/
def remembered (cfg : HistoryTreeConfig) (s : HistoryTree σ) : List Interval :=
  trim (cfg.maxFreeIntervalSize - 1) s.intervals

/-- The history-list model that the state stands for. -/
def standsFor (cfg : HistoryTreeConfig) (s : HistoryTree σ) : HistoryList σ :=
  ⟨s.remembered cfg, s.queueModelMG1, s.totalRequestsUsingAnalyticalModel⟩

/-- The tree is well formed and stands for the list. -/
structure Refines (cfg : HistoryTreeConfig) (s : HistoryTree σ) (l : HistoryList σ) : Prop where
  pool : Pool cfg s
  separated : Separated cfg.minProcessingTime s.intervals
  standsFor : s.standsFor cfg = l

/-- A short list is not trimmed. -/
theorem trim_of_le {maxSize : ℕ} {l : List Interval} (h : l.length ≤ maxSize) :
    trim maxSize l = l := if_neg (Nat.not_lt.mpr h)

/-- After pruning the tree still stands for the same list, and a block is free. -/
theorem Refines.prune (hmax : 2 ≤ cfg.maxFreeIntervalSize) (hleast : 0 < cfg.minProcessingTime)
    (h : Refines cfg s l) (hl : l.Sound (listConfig cfg)) :
    ∃ s', s.prune cfg = .ok s' ∧ Refines cfg s' l ∧ s'.intervals = l.freeIntervalList ∧
      s'.intervalTree.size < cfg.maxFreeIntervalSize := by
  obtain ⟨s', hprune, hpool, hsame, hintervals⟩ := prune_spec hmax hleast h.pool h.separated
  have hlist : s'.intervals = l.freeIntervalList :=
    hintervals.trans (congrArg HistoryList.freeIntervalList h.standsFor)
  have hsize : l.freeIntervalList.length ≤ cfg.maxFreeIntervalSize - 1 := hl.size
  refine ⟨s', hprune, ⟨hpool, hlist ▸ hl.separated, ?_⟩, hlist, ?_⟩
  · rw [HistoryTree.standsFor, remembered, hlist, trim_of_le hsize, hsame.1, hsame.2]
    rw [← h.standsFor]
    rfl
  · rw [← length_intervals hpool, hlist]
    omega

/-- Both models take the same packets for old. -/
theorem isOld_eq (hleast : 0 < cfg.minProcessingTime)
    (hsep : Separated cfg.minProcessingTime s.intervals) (hne : s.intervals ≠ [])
    (hlist : s.intervals = l.freeIntervalList) :
    s.isOld cfg t p = .ok (decide (l.Old (listConfig cfg) t p)) := by
  obtain ⟨path, node, ys, hsearch, -, hfirst⟩ := search_min hleast hsep hne
  have hhead : l.freeIntervalList.head? = some node.interval := by
    rw [← hlist, intervals, Queue.intervals, hfirst]
    rfl
  have hiff : l.Old (listConfig cfg) t p ↔
      HistoryList.useAnalytical cfg.analyticalModelEnabled node.interval t p = true := by
    constructor
    · rintro ⟨oldest, hmem, huse⟩
      cases hhead.symm.trans hmem
      exact huse
    · exact fun huse ↦ ⟨node.interval, hhead, huse⟩
  have hdecide : decide (l.Old (listConfig cfg) t p) =
      HistoryList.useAnalytical cfg.analyticalModelEnabled node.interval t p := by
    rw [Bool.eq_iff_iff, decide_eq_true_iff]
    exact hiff
  rw [hdecide, isOld, hsearch, HistoryList.useAnalytical]
  by_cases henabled : cfg.analyticalModelEnabled = true
  · rw [if_pos henabled, henabled]
    rfl
  · rw [if_neg henabled, Bool.eq_false_of_not_eq_true henabled]
    rfl

/-- The parts of a call, put together. -/
theorem computeQueueDelay_eq {s₁ s₂ : HistoryTree σ} {old : Bool} (hprune : s.prune cfg = .ok s₁)
    (hold : s₁.isOld cfg t p = .ok old) (hfind : s₁.findDelay cfg model old t p = .ok (d, s₂))
    (hset : d ≠ uint64Max) :
    s.computeQueueDelay cfg model t p =
      .ok (d, { s₂ with queueModelMG1 := model.updateQueue s₂.queueModelMG1 t p d }) := by
  rw [computeQueueDelay, hprune]
  simp only [bind, Except.bind, hold, hfind, require, if_pos hset]
  rfl

section

variable (hmax : 2 ≤ cfg.maxFreeIntervalSize)

include hmax

section

variable (hleast : 0 < cfg.minProcessingTime)

include hleast

/-- One packet: the tree answers as the list does, and stands for the list afterwards. -/
theorem Refines.step (h : Refines cfg s l) (hl : l.Sound (listConfig cfg)) (hp : 0 < p)
    (htime : l.InTime (listConfig cfg) model t p)
    (hserved : l.Served (listConfig cfg) model t p d l') :
    ∃ s', s.computeQueueDelay cfg model t p = .ok (d, s') ∧ Refines cfg s' l' := by
  obtain ⟨s₁, hprune, hrefines, hlist, hsize⟩ := h.prune hmax hleast hl
  have hold := isOld_eq (t := t) (p := p) hleast hrefines.separated
    (hlist ▸ hl.endless.ne_nil) hlist
  have hmodel : s₁.queueModelMG1 = l.queueModelMG1 ∧
      s₁.totalRequestsUsingAnalyticalModel = l.totalRequestsUsingAnalyticalModel := by
    rw [← hrefines.standsFor]
    exact ⟨rfl, rfl⟩
  have hroom : ∀ iv ∈ l.freeIntervalList, start t iv + p ≤ uint64Max := by
    intro iv hiv
    have := hl.separated.le_lastStart hiv
    have := htime.served
    unfold start
    omega
  cases hserved with
  | old _ hyes hdelay =>
    have hwait := htime.waits hyes
    rw [decide_eq_true hyes] at hold
    have hset : d ≠ uint64Max := by omega
    have hfind : s₁.findDelay cfg model true t p = .ok (d, { s₁ with
        totalRequestsUsingAnalyticalModel := s₁.totalRequestsUsingAnalyticalModel + 1 }) := by
      rw [findDelay, if_pos rfl, AnalyticalModel.computeQueueDelay, require, if_pos hp, hmodel.1,
        hdelay]
      rfl
    refine ⟨_, computeQueueDelay_eq hprune hold hfind hset, ?_⟩
    refine ⟨⟨hrefines.pool.avl, hrefines.pool.keys, hrefines.pool.partition, hrefines.pool.size⟩,
      hrefines.separated, ?_⟩
    have hlist' := congrArg HistoryList.freeIntervalList hrefines.standsFor
    simp only [HistoryTree.standsFor, hmodel, HistoryList.mk.injEq]
    exact ⟨hlist', trivial, trivial⟩
  | booked begins l₁ hno hserve =>
    rw [decide_eq_false hno] at hold
    rw [← hlist] at hserve hroom
    obtain ⟨s₂, hbook, hpool, hsame, hintervals⟩ :=
      book_spec hleast hrefines.pool hrefines.separated hsize hp hroom hserve
    have hset : begins - t ≠ uint64Max := by
      obtain ⟨front, iv, back, hsplit, _, _, rfl, _⟩ := serve_eq_some hserve
      have := hroom iv (by simp [hsplit])
      omega
    refine ⟨_, computeQueueDelay_eq hprune hold hbook hset, ?_⟩
    refine ⟨⟨hpool.avl, hpool.keys, hpool.partition, hpool.size⟩, ?_, ?_⟩
    · change Separated cfg.minProcessingTime s₂.intervals
      rw [hintervals]
      exact hrefines.separated.serve hp hserve
    · simp only [HistoryTree.standsFor, remembered, hsame.1, hsame.2, hmodel, HistoryList.mk.injEq]
      exact ⟨congrArg _ hintervals, trivial, trivial⟩

/-- One packet: both models serve it, and the tree stands for the list afterwards. -/
theorem Refines.exists_step (h : Refines cfg s l) (hl : l.Sound (listConfig cfg)) (hp : 0 < p)
    (htime : l.InTime (listConfig cfg) model t p) :
    ∃ d s' l', s.computeQueueDelay cfg model t p = .ok (d, s') ∧
      l.computeQueueDelay (listConfig cfg) model t p = .ok (d, l') ∧ Refines cfg s' l' ∧
      l'.Sound (listConfig cfg) := by
  have hsize : 0 < (listConfig cfg).maxFreeIntervalListSize := Nat.sub_pos_of_lt hmax
  obtain ⟨d, l', hlist, hserved⟩ := HistoryList.exists_served rfl hleast hl hp htime
  obtain ⟨s', htree, hrefines⟩ := h.step hmax hleast hl hp htime hserved
  exact ⟨d, s', l', htree, hlist, hrefines, hl.served hsize hp htime hserved⟩

/-- A run: the tree answers every packet as the list does. -/
theorem Refines.run {packets : List (ℕ × ℕ)} (hp : ∀ packet ∈ packets, 0 < packet.2)
    (h : Refines cfg s l) (hl : l.Sound (listConfig cfg))
    (htime : Along (HistoryList.computeQueueDelay (listConfig cfg) model)
      (HistoryList.InTime (listConfig cfg) model) l packets) :
    ∃ delays s' l', runPackets (computeQueueDelay cfg model) s packets = .ok (delays, s') ∧
      runPackets (HistoryList.computeQueueDelay (listConfig cfg) model) l packets =
        .ok (delays, l') ∧ Refines cfg s' l' ∧ l'.Sound (listConfig cfg) := by
  induction packets generalizing s l with
  | nil => exact ⟨[], s, l, rfl, rfl, h, hl⟩
  | cons packet rest ih =>
    obtain ⟨t, p⟩ := packet
    have hpos : 0 < p := hp (t, p) mem_cons_self
    obtain ⟨d, s₁, l₁, htree, hlist, hrefines, hl₁⟩ := h.exists_step hmax hleast hl hpos htime.1
    obtain ⟨delays, s', l', hrunTree, hrunList, hdone, hsound⟩ :=
      ih (fun packet hmem ↦ hp packet (mem_cons_of_mem _ hmem)) hrefines hl₁ (htime.tail hlist)
    exact ⟨d :: delays, s', l', runPackets_cons htree hrunTree, runPackets_cons hlist hrunList,
      hdone, hsound⟩

end

/-- The constructor builds a tree that stands for the list of the other model. -/
theorem exists_initial (hword : cfg.minProcessingTime ≤ uint64Max) (mg1 : σ) :
    ∃ s, initial cfg mg1 = .ok s ∧ Refines cfg s (HistoryList.initial mg1) := by
  have hlast : cfg.maxFreeIntervalSize = cfg.maxFreeIntervalSize - 1 + 1 := by omega
  have hpool : (List.range cfg.maxFreeIntervalSize).reverse =
      (cfg.maxFreeIntervalSize - 1) :: (List.range (cfg.maxFreeIntervalSize - 1)).reverse := by
    rw [hlast, range_succ, reverse_append]
    rfl
  have hcall : initial cfg mg1 = .ok ⟨⟨.node .nil 1
      (.initialized (cfg.maxFreeIntervalSize - 1) (0, uint64Max)) .nil, 1⟩,
      (List.range (cfg.maxFreeIntervalSize - 1)).reverse, mg1, 0⟩ := by
    simp only [initial, allocateNode, hpool]
    rfl
  refine ⟨_, hcall, ⟨⟨trivial, trivial, rfl, by simp, by simp⟩, ?_, ?_, rfl⟩, ?_, ?_⟩
  · simp [Node.initialized]
  · change ((cfg.maxFreeIntervalSize - 1) :: (List.range (cfg.maxFreeIntervalSize - 1)).reverse).Perm _
    rw [← hpool]
    exact reverse_perm _
  · refine ⟨pairwise_singleton _ _, ?_⟩
    intro iv hiv
    rw [mem_singleton.mp hiv]
    exact (Nat.zero_add _).trans_le hword
  · have hone : trim (cfg.maxFreeIntervalSize - 1) [((0 : ℕ), uint64Max)] = [(0, uint64Max)] :=
      trim_of_le (by simp only [length_singleton]; omega)
    exact congrArg (fun l ↦ HistoryList.mk l mg1 0) hone

end

/-- The blocks of the tree and the free ones are the pool, and the tree has a leftmost node. -/
structure Shared (cfg : HistoryTreeConfig) (s : HistoryTree σ) : Prop where
  partition : (blocks s.intervalTree.root ++ s.freeMemoryBlockList).Perm
    (List.range cfg.maxFreeIntervalSize)
  size : s.intervalTree.size = s.intervalTree.root.toList.length
  nonempty : s.intervalTree.root ≠ .nil
  atMost : s.intervalTree.size ≤ cfg.maxFreeIntervalSize
  minNode : ∃ path node, s.intervalTree.search (0, 1) = some (path, node)

theorem Refines.shared (hleast : 0 < cfg.minProcessingTime) (h : Refines cfg s l)
    (hl : l.Sound (listConfig cfg)) : Shared cfg s := by
  have hne : s.intervals ≠ [] := by
    intro hnil
    have hremembered : s.remembered cfg = l.freeIntervalList :=
      congrArg HistoryList.freeIntervalList h.standsFor
    rw [remembered, hnil] at hremembered
    exact hl.endless.ne_nil (hremembered.symm.trans (trim_of_le (Nat.zero_le _)))
  obtain ⟨path, node, ys, hsearch, -, hlist⟩ := search_min hleast h.separated hne
  refine ⟨h.pool.partition, h.pool.size, fun hnil ↦ ?_, ?_, path, node, hsearch⟩
  · rw [hnil] at hlist
    cases hlist
  · have hlength := h.pool.length
    omega

/-! ### Runs from the constructor -/

section

variable (hmax : 2 ≤ cfg.maxFreeIntervalSize) (hleast : 1 ≤ cfg.minProcessingTime)
  (hword : cfg.minProcessingTime ≤ uint64Max) (mg1 : σ) {packets : List (ℕ × ℕ)}
  (hp : ∀ packet ∈ packets, 1 ≤ packet.2)
  (htime : Along (HistoryList.computeQueueDelay (listConfig cfg) model)
    (HistoryList.InTime (listConfig cfg) model) (HistoryList.initial mg1) packets)

include hmax hleast hword hp htime

theorem exists_run : ∃ delays s₀ s l, initial cfg mg1 = .ok s₀ ∧
    runPackets (computeQueueDelay cfg model) s₀ packets = .ok (delays, s) ∧
    runPackets (HistoryList.computeQueueDelay (listConfig cfg) model) (HistoryList.initial mg1)
      packets = .ok (delays, l) ∧ Refines cfg s l ∧ l.Sound (listConfig cfg) := by
  obtain ⟨s₀, hinitial, hrefines⟩ := exists_initial hmax hword mg1
  obtain ⟨delays, s, l, hrun⟩ := hrefines.run hmax hleast hp
    (HistoryList.sound_initial (Nat.sub_pos_of_lt hmax) hword mg1) htime
  exact ⟨delays, s₀, s, l, hinitial, hrun⟩

/-- The history-tree model and the history-list model without interleaving return the same delays
for every sequence of packets on which time does not run out, and then remember the same free
intervals. -/
theorem historyTree_eq_historyList : ∃ delays s₀ s s' l, initial cfg mg1 = .ok s₀ ∧
    runPackets (computeQueueDelay cfg model) s₀ packets = .ok (delays, s) ∧
    runPackets (HistoryList.computeQueueDelay (listConfig cfg) model) (HistoryList.initial mg1)
      packets = .ok (delays, l) ∧
    s.prune cfg = .ok s' ∧ s'.intervals = l.freeIntervalList := by
  obtain ⟨delays, s₀, s, l, hinitial, htree, hlist, hdone, hsound⟩ :=
    exists_run hmax hleast hword mg1 hp htime
  obtain ⟨s', hprune, -, hintervals, -⟩ := hdone.prune hmax hleast hsound
  exact ⟨delays, s₀, s, s', l, hinitial, htree, hlist, hprune, hintervals⟩

/-- After the constructor, after every packet and after the pruning that starts the next call, the
blocks are shared out between the tree and the free list; every call returns. -/
theorem node_pool_shared :
    ∃ s₀, initial cfg mg1 = .ok s₀ ∧ ∀ first rest, packets = first ++ rest →
      ∃ delays s s', runPackets (computeQueueDelay cfg model) s₀ first = .ok (delays, s) ∧
        Shared cfg s ∧ s.prune cfg = .ok s' ∧ Shared cfg s' ∧
        s'.intervalTree.size < cfg.maxFreeIntervalSize := by
  obtain ⟨s₀, hinitial, -⟩ := exists_initial hmax hword mg1
  refine ⟨s₀, hinitial, ?_⟩
  rintro first rest rfl
  obtain ⟨delays, s₁, s, l, hinitial₁, htree, -, hdone, hsound⟩ := exists_run hmax hleast hword mg1
    (fun packet hmem ↦ hp packet (mem_append_left _ hmem)) htime.of_append
  obtain rfl := Except.ok.inj (hinitial.symm.trans hinitial₁)
  obtain ⟨s', hprune, hpruned, -, hroom⟩ := hdone.prune hmax hleast hsound
  exact ⟨delays, s, s', htree, hdone.shared hleast hsound, hprune, hpruned.shared hleast hsound,
    hroom⟩

/-- Every sequence of packets leaves a search tree that is balanced, with exact heights. -/
theorem tree_stays_balanced : ∃ delays s₀ s, initial cfg mg1 = .ok s₀ ∧
    runPackets (computeQueueDelay cfg model) s₀ packets = .ok (delays, s) ∧
    IsSearchTree s.intervalTree.root ∧ s.intervalTree.root.Avl := by
  obtain ⟨delays, s₀, s, l, hinitial, htree, -, ⟨hpool, hseparated, -⟩, -⟩ :=
    exists_run hmax hleast hword mg1 hp htime
  refine ⟨delays, s₀, s, hinitial, htree, ?_, hpool.avl⟩
  refine (pairwise_map.mp hseparated.apart).imp_of_mem fun {a b} ha hb hgap ↦ ?_
  have hlong := hseparated.long a.interval (mem_map_of_mem ha)
  rw [hpool.keys a ha, hpool.keys b hb]
  omega

end

/-- Three blocks, and a model for old packets that lets them wait for seven. -/
def threeBlocks : HistoryTreeConfig := ⟨3, true, 2⟩

def sevenModel : AnalyticalModel Unit := ⟨fun _ _ _ ↦ 7, fun _ _ _ _ ↦ ()⟩

/-- Six packets out of order: the third one waits for the second to be served, and the last two are
older than everything that is remembered by then. -/
def sixPackets : List (ℕ × ℕ) := [(10, 5), (30, 5), (28, 3), (50, 10), (11, 2), (3, 4)]

theorem historyTree_eq_historyList_sixPackets :
    ∃ delays s₀ s s' l, initial threeBlocks () = .ok s₀ ∧
      runPackets (computeQueueDelay threeBlocks sevenModel) s₀ sixPackets = .ok (delays, s) ∧
      runPackets (HistoryList.computeQueueDelay (listConfig threeBlocks) sevenModel)
        (HistoryList.initial ()) sixPackets = .ok (delays, l) ∧
      s.prune threeBlocks = .ok s' ∧ s'.intervals = l.freeIntervalList :=
  historyTree_eq_historyList (by decide) (by decide) (by decide) () (by decide) (by decide)

theorem node_pool_shared_sixPackets : ∃ s₀, initial threeBlocks () = .ok s₀ ∧
    ∃ delays s,
      runPackets (computeQueueDelay threeBlocks sevenModel) s₀ sixPackets = .ok (delays, s) ∧
      Shared threeBlocks s := by
  obtain ⟨s₀, hinitial, hall⟩ := @node_pool_shared Unit threeBlocks sevenModel
    (by decide) (by decide) (by decide) () sixPackets (by decide) (by decide)
  obtain ⟨delays, s, -, hrun, hshared, -⟩ := hall _ [] (append_nil _).symm
  exact ⟨s₀, hinitial, delays, s, hrun, hshared⟩

theorem tree_stays_balanced_sixPackets :
    ∃ delays s₀ s, initial threeBlocks () = .ok s₀ ∧
      runPackets (computeQueueDelay threeBlocks sevenModel) s₀ sixPackets = .ok (delays, s) ∧
      IsSearchTree s.intervalTree.root ∧ s.intervalTree.root.Avl :=
  tree_stays_balanced (by decide) (by decide) (by decide) () (by decide) (by decide)

end HistoryTree

end CarbonSim.Queue
