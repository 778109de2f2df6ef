import CarbonSim.Queue.Equivalence
import Mathlib.Order.Bounds.Basic

/-!
# No port is booked twice

Where the analytical model is not used, the slots in which packets are served do not overlap, and
each delay is the smallest one for which the slot fits into a free interval that is remembered.
`HistoryList.run_books` is the run of the history-list model: the slots so far and the free intervals
have no time in common (`FirstFit.Clear`), so a slot that is cut out of a free interval meets none of
them. The history-tree model has the same slots, since it returns the same delays.
-/

namespace CarbonSim.Queue

open FirstFit List

/-- The service slots of packets, from the arrival and the delay of each on. -/
def slots (packets : List (ℕ × ℕ)) (delays : List ℕ) : List Interval :=
  packets.zipWith (fun packet delay ↦ (packet.1 + delay, packet.1 + delay + packet.2)) delays

/-- One slot ends before the other one starts. -/
def Apart (a b : Interval) : Prop := a.2 ≤ b.1 ∨ b.2 ≤ a.1

/-- A packet that arrives at `t` with processing time `p` can be served with delay `d` within one of
the intervals. -/
def Servable (l : List Interval) (t p d : ℕ) : Prop :=
  ∃ iv ∈ l, iv.1 ≤ t + d ∧ t + d + p ≤ iv.2

/-- The queue model books a port: on every sequence of packets it returns delays for which no two
service slots overlap, the free intervals that it holds are in order, disjoint and long enough, and
the delay of the next packet is the smallest one for which its slot fits into one of those that it
remembers by then. -/
def BooksPort {S : Type} (computeQueueDelay : S → ℕ → ℕ → Except QueueFault (ℕ × S))
    (held remembered : S → List Interval) (least : ℕ) (holds : S → ℕ → ℕ → Prop) (s₀ : S) : Prop :=
  ∀ packets : List (ℕ × ℕ), (∀ packet ∈ packets, 1 ≤ packet.2) →
    Along computeQueueDelay holds s₀ packets →
      ∃ delays s, runPackets computeQueueDelay s₀ packets = .ok (delays, s) ∧
        (slots packets delays).Pairwise Apart ∧ Separated least (held s) ∧
          ∀ t p, 1 ≤ p → holds s t p → ∃ d s', computeQueueDelay s t p = .ok (d, s') ∧
              IsLeast { d | Servable (remembered s) t p d } d

namespace HistoryList

variable {σ : Type} {cfg : HistoryListConfig} {model : AnalyticalModel σ} {s s' : HistoryList σ}
  {t p d : ℕ}

/-- The packet leaves time, and is not old. -/
def Fresh (cfg : HistoryListConfig) (model : AnalyticalModel σ) (s : HistoryList σ) (t p : ℕ) :
    Prop :=
  InTime cfg model s t p ∧ ¬Old cfg s t p

instance (cfg : HistoryListConfig) (model : AnalyticalModel σ) (s : HistoryList σ) (t p : ℕ) :
    Decidable (Fresh cfg model s t p) :=
  inferInstanceAs (Decidable (_ ∧ _))

/-- A packet that is not old is booked. -/
theorem Served.exists_serve (h : Served cfg model s t p d s') (hnot : ¬Old cfg s t p) :
    ∃ l, serve cfg.minProcessingTime t p s.freeIntervalList = some (t + d, l) ∧
      s'.freeIntervalList ⊆ l := by
  cases h with
  | old _ hold _ => exact absurd hold hnot
  | booked begins l _ hserve =>
    have htime := le_serve hserve
    refine ⟨l, ?_, (trim_sublist _ l).subset⟩
    rw [hserve, Nat.add_sub_cancel' htime]

/-- The delay of a packet is the smallest one for which its slot fits. -/
theorem Served.isLeast (hs : Sound cfg s) (h : Served cfg model s t p d s')
    (hnot : ¬Old cfg s t p) : IsLeast { d | Servable s.freeIntervalList t p d } d := by
  obtain ⟨l, hserve, -⟩ := h.exists_serve hnot
  constructor
  · exact exists_mem_serve hserve
  · rintro e ⟨iv, hiv, hfirst, hlast⟩
    have := serve_le hs.separated hserve hiv (Nat.le_add_right t e) hfirst hlast
    omega

/-- Two slots that are not empty and have no time in common are apart. -/
theorem apart_of_disjoint {a b : Interval} (ha : a.1 < a.2) (hb : b.1 < b.2)
    (h : ∀ x, a.1 ≤ x → x < a.2 → ¬(b.1 ≤ x ∧ x < b.2)) : Apart a b := by
  by_contra hmeet
  unfold Apart at hmeet
  exact h (max a.1 b.1) (le_max_left _ _) (by omega) ⟨le_max_right _ _, by omega⟩

/-- A run: the slots are apart from each other and from those that were booked before. -/
theorem run_books (hcfg : cfg.interleavingEnabled = false) (hleast : 0 < cfg.minProcessingTime)
    (hsize : 0 < cfg.maxFreeIntervalListSize) {packets : List (ℕ × ℕ)} {booked : List Interval}
    (hp : ∀ packet ∈ packets, 0 < packet.2) (hs : Sound cfg s)
    (hclear : Clear s.freeIntervalList booked) (hbooked : ∀ slot ∈ booked, slot.1 < slot.2)
    (hfresh : Along (computeQueueDelay cfg model) (Fresh cfg model) s packets) :
    ∃ delays s', runPackets (computeQueueDelay cfg model) s packets = .ok (delays, s') ∧
      Sound cfg s' ∧ (slots packets delays).Pairwise Apart ∧
      ∀ slot ∈ booked, ∀ slot' ∈ slots packets delays, Apart slot slot' := by
  induction packets generalizing s booked with
  | nil => exact ⟨[], s, rfl, hs, List.Pairwise.nil, by simp [slots]⟩
  | cons packet rest ih =>
    obtain ⟨t, p⟩ := packet
    have hpos : 0 < p := hp (t, p) mem_cons_self
    obtain ⟨htime, hnot⟩ := hfresh.1
    obtain ⟨d, s₁, hstep, hserved⟩ := exists_served hcfg hleast hs hpos htime
    obtain ⟨l, hserve, hsub⟩ := hserved.exists_serve hnot
    have hclear₁ : Clear s₁.freeIntervalList ((t + d, t + d + p) :: booked) :=
      (hclear.serve hs.separated hserve).subset hsub
    have hbooked₁ : ∀ slot ∈ (t + d, t + d + p) :: booked, slot.1 < slot.2 := by
      intro slot hslot
      rcases mem_cons.mp hslot with rfl | hslot
      · exact Nat.lt_add_of_pos_right hpos
      · exact hbooked slot hslot
    obtain ⟨delays, s', hrun, hsound, hpairwise, hacross⟩ :=
      ih (fun packet hmem ↦ hp packet (mem_cons_of_mem _ hmem))
        (hs.served hsize hpos htime hserved) hclear₁ hbooked₁ (hfresh.tail hstep)
    refine ⟨d :: delays, s', runPackets_cons hstep hrun, hsound, ?_, ?_⟩
    · apply pairwise_cons.mpr
      exact ⟨fun slot hslot ↦ hacross _ mem_cons_self slot hslot, hpairwise⟩
    · intro slot hslot slot' hslot'
      rcases mem_cons.mp hslot' with rfl | hslot'
      · apply apart_of_disjoint (hbooked slot hslot) (Nat.lt_add_of_pos_right hpos)
        exact fun x hfirst hlast ↦ hclear.disjoint hserve hslot hfirst hlast
      · exact hacross slot (mem_cons_of_mem _ hslot) slot' hslot'

/-- The history-list model without interleaving books its port. -/
theorem booksPort (hcfg : cfg.interleavingEnabled = false) (hleast : 0 < cfg.minProcessingTime)
    (hword : cfg.minProcessingTime ≤ uint64Max) (hsize : 0 < cfg.maxFreeIntervalListSize) (mg1 : σ) :
    BooksPort (computeQueueDelay cfg model) freeIntervalList freeIntervalList
      cfg.minProcessingTime (Fresh cfg model) (initial mg1) := by
  intro packets hp hfresh
  have hclear : Clear (initial mg1).freeIntervalList [] := by simp [Clear]
  obtain ⟨delays, s, hrun, hsound, hpairwise, -⟩ :=
    run_books hcfg hleast hsize hp (sound_initial hsize hword mg1) hclear (by simp) hfresh
  refine ⟨delays, s, hrun, hpairwise, hsound.separated, ?_⟩
  intro t p hpos hnext
  obtain ⟨d, s', hstep, hserved⟩ := exists_served hcfg hleast hsound hpos hnext.1
  exact ⟨d, s', hstep, hserved.isLeast hsound hnext.2⟩

end HistoryList

namespace HistoryTree

variable {σ : Type} {cfg : HistoryTreeConfig} {model : AnalyticalModel σ} {s : HistoryTree σ}
  {l : HistoryList σ}

/-- The packet leaves time, and is not old. -/
def Fresh (cfg : HistoryTreeConfig) (model : AnalyticalModel σ) (s : HistoryTree σ) (t p : ℕ) :
    Prop :=
  HistoryList.Fresh (listConfig cfg) model (s.standsFor cfg) t p

/-- What holds of the packets of the tree holds of those of the list. -/
theorem Refines.along_fresh (hmax : 2 ≤ cfg.maxFreeIntervalSize)
    (hleast : 0 < cfg.minProcessingTime) {packets : List (ℕ × ℕ)}
    (hp : ∀ packet ∈ packets, 0 < packet.2) (h : Refines cfg s l) (hl : l.Sound (listConfig cfg))
    (hfresh : Along (computeQueueDelay cfg model) (Fresh cfg model) s packets) :
    Along (HistoryList.computeQueueDelay (listConfig cfg) model)
      (HistoryList.Fresh (listConfig cfg) model) l packets := by
  induction packets generalizing s l with
  | nil => trivial
  | cons packet rest ih =>
    obtain ⟨t, p⟩ := packet
    have hpos : 0 < p := hp (t, p) mem_cons_self
    have hnow : HistoryList.Fresh (listConfig cfg) model l t p := h.standsFor ▸ hfresh.1
    obtain ⟨d, s₁, l₁, htree, hlist, hrefines, hl₁⟩ := h.exists_step hmax hleast hl hpos hnow.1
    refine ⟨hnow, ?_⟩
    rw [hlist]
    exact ih (fun packet hmem ↦ hp packet (mem_cons_of_mem _ hmem)) hrefines hl₁ (hfresh.tail htree)

/-- The history-tree model books its port. -/
theorem booksPort (hmax : 2 ≤ cfg.maxFreeIntervalSize) (hleast : 0 < cfg.minProcessingTime)
    (hword : cfg.minProcessingTime ≤ uint64Max) (mg1 : σ) :
    ∃ s₀, initial cfg mg1 = .ok s₀ ∧ BooksPort (computeQueueDelay cfg model) intervals
      (remembered cfg) cfg.minProcessingTime (Fresh cfg model) s₀ := by
  obtain ⟨s₀, hinitial, hrefines⟩ := exists_initial hmax hword mg1
  have hsize : 0 < (listConfig cfg).maxFreeIntervalListSize := Nat.sub_pos_of_lt hmax
  have hsound := HistoryList.sound_initial hsize hword mg1
  refine ⟨s₀, hinitial, ?_⟩
  intro packets hp hfresh
  have hlist := hrefines.along_fresh hmax hleast hp hsound hfresh
  have htime := hlist.mono fun _ _ _ h ↦ h.1
  obtain ⟨delays, s, l, hrun, hrunList, hdone, hl⟩ := hrefines.run hmax hleast hp hsound htime
  obtain ⟨delays', l', hrun', hpairwise, -, hnext⟩ :=
    HistoryList.booksPort rfl hleast hword hsize mg1 packets hp hlist
  cases hrunList.symm.trans hrun'
  have hremembered : s.remembered cfg = l.freeIntervalList :=
    congrArg HistoryList.freeIntervalList hdone.standsFor
  refine ⟨delays, s, hrun, hpairwise, hdone.separated, ?_⟩
  intro t p hpos hnow
  have hnow : HistoryList.Fresh (listConfig cfg) model l t p := hdone.standsFor ▸ hnow
  obtain ⟨d, l₁, hstep, hleastDelay⟩ := hnext t p hpos hnow
  obtain ⟨d', s₁, l₁', htree, hstep', -⟩ := hdone.exists_step hmax hleast hl hpos hnow.1
  cases hstep.symm.trans hstep'
  exact ⟨d, s₁, htree, hremembered ▸ hleastDelay⟩

end HistoryTree

/-- Neither history model ever books a port twice. A history list that may not hold an interval
serves no packet at all. -/
theorem port_never_double_booked {σ : Type} (model : AnalyticalModel σ) (mg1 : σ) :
    (∀ cfg : HistoryTreeConfig, 2 ≤ cfg.maxFreeIntervalSize → 1 ≤ cfg.minProcessingTime →
      cfg.minProcessingTime ≤ uint64Max → ∃ s₀, HistoryTree.initial cfg mg1 = .ok s₀ ∧
          BooksPort (HistoryTree.computeQueueDelay cfg model) HistoryTree.intervals
            (HistoryTree.remembered cfg) cfg.minProcessingTime (HistoryTree.Fresh cfg model) s₀) ∧
      ∀ cfg : HistoryListConfig, cfg.interleavingEnabled = false → 1 ≤ cfg.minProcessingTime →
        cfg.minProcessingTime ≤ uint64Max → (0 < cfg.maxFreeIntervalListSize →
            BooksPort (HistoryList.computeQueueDelay cfg model) HistoryList.freeIntervalList
              HistoryList.freeIntervalList cfg.minProcessingTime (HistoryList.Fresh cfg model)
              (HistoryList.initial mg1)) ∧
          (cfg.maxFreeIntervalListSize = 0 → ∀ t p,
            HistoryList.computeQueueDelay cfg model (HistoryList.initial mg1) t p =
              .error .listTooLong) := by
  constructor
  · intro cfg hmax hleast hword
    exact HistoryTree.booksPort hmax hleast hword mg1
  · intro cfg hcfg hleast hword
    constructor
    · exact fun hsize ↦ HistoryList.booksPort hcfg hleast hword hsize mg1
    · intro hzero t p
      have hyoung : HistoryList.useAnalytical cfg.analyticalModelEnabled (0, uint64Max) t p = false := by
        simp [HistoryList.useAnalytical]
      simp only [HistoryList.computeQueueDelay, HistoryList.initial, head?_cons, fetch, bind,
        Except.bind, HistoryList.findDelay, hyoung, HistoryList.computeUsingHistoryList, require,
        hzero]
      rfl

/-- Five packets out of order in a list of two intervals. -/
theorem port_never_double_booked_fivePackets :
    ∃ delays s, runPackets (HistoryList.computeQueueDelay ⟨2, true, false, 2⟩ HistoryTree.sevenModel)
        (HistoryList.initial ()) [(10, 5), (30, 5), (28, 3), (50, 10), (45, 2)] = .ok (delays, s) ∧
      (slots [(10, 5), (30, 5), (28, 3), (50, 10), (45, 2)] delays).Pairwise Apart := by
  have hlist := (port_never_double_booked HistoryTree.sevenModel ()).2 ⟨2, true, false, 2⟩ rfl
    (by decide) (by decide)
  obtain ⟨delays, s, hrun, hapart, -⟩ := hlist.1 (by decide)
    [(10, 5), (30, 5), (28, 3), (50, 10), (45, 2)] (by decide) (by decide)
  exact ⟨delays, s, hrun, hapart⟩

end CarbonSim.Queue
