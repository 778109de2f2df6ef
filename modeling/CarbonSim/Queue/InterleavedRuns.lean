import CarbonSim.Queue.Interleaving

/-!
# Runs of the history-list queue model with interleaving

The loop keeps the free intervals in order whatever it does to the packets (`Ordered.scan`), so every
list that a sequence of packets can lead to is in order (`Reachable.ordered`), and the account of the
loop applies to it: `interleaving_exact_iff` says which packets are given exactly their processing
time, and `interleaving_exact_fails` shows one that is given more.
-/

namespace CarbonSim.Queue

open FirstFit List

/-! ### The loop keeps the order -/

section Order

variable {least t p d : ℕ} {iv : Interval} {l rest : List Interval}

/-- Every interval lies within one of the others. -/
def Within (l' l : List Interval) : Prop := ∀ jv ∈ l', ∃ iv ∈ l, iv.1 ≤ jv.1 ∧ jv.2 ≤ iv.2

theorem Within.cons (h : Within l rest) : Within l (iv :: rest) := by
  intro jv hjv
  obtain ⟨kv, hkv, hsub⟩ := h jv hjv
  exact ⟨kv, mem_cons_of_mem _ hkv, hsub⟩

/-- An interval in front of the others. -/
theorem Ordered.cons (h : Ordered l) (hiv : iv.1 ≤ iv.2) (hfirst : ∀ jv ∈ l, iv.2 ≤ jv.1) :
    Ordered (iv :: l) := by
  constructor
  · exact pairwise_cons.mpr ⟨hfirst, h.apart⟩
  · intro jv hjv
    rcases mem_cons.mp hjv with rfl | hjv
    · exact hiv
    · exact h.forth jv hjv
  · have hend := h.endless
    obtain ⟨jv, l, rfl⟩ := exists_cons_of_ne_nil hend.ne_nil
    simpa [Endless, getLast?_cons] using hend

/-- A remainder in front of the others. -/
theorem Ordered.keep_append (least : ℕ) (h : Ordered l) (hiv : iv.1 ≤ iv.2)
    (hfirst : ∀ jv ∈ l, iv.2 ≤ jv.1) : Ordered (keep least iv ++ l) := by
  unfold keep
  split
  · exact h.cons hiv hfirst
  · exact h

/-- What the loop leaves of an interval in which it serves the packet. -/
theorem Ordered.serves (hl : Ordered (iv :: rest)) (hfits : start t iv + p ≤ iv.2)
    (hroom : rest = [] → start t iv + p + least ≤ iv.2) :
    Ordered (before least t iv ++ (keep least (start t iv + p, iv.2) ++ rest)) := by
  have hfirst := (pairwise_cons.mp hl.apart).1
  have hafter : t ≤ start t iv := le_max_right _ _
  have hright : Ordered (keep least (start t iv + p, iv.2) ++ rest) := by
    cases rest with
    | nil =>
      have hend : iv.2 = uint64Max := by simpa [Endless] using hl.endless
      have hlong := hroom rfl
      rw [keep, if_pos (by simp only; omega)]
      exact ⟨by simp, by simpa using hfits, by simp [Endless, hend]⟩
    | cons jv rest =>
      have hrest : Ordered (jv :: rest) :=
        ⟨(pairwise_cons.mp hl.apart).2, fun kv hkv ↦ hl.forth kv (mem_cons_of_mem _ hkv),
          hl.endless.tail (by simp)⟩
      exact hrest.keep_append least hfits hfirst
  unfold before
  split
  next hin =>
    apply hright.keep_append least hin
    intro jv hjv
    rcases mem_append.mp hjv with hjv | hjv
    · obtain ⟨rfl, -⟩ := mem_keep.mp hjv
      exact hafter.trans (Nat.le_add_right _ _)
    · have := hfirst jv hjv
      omega
  next => exact hright

/-- What the loop puts back lies in the interval. -/
theorem mem_before {jv : Interval} (h : jv ∈ before least t iv) : jv = (iv.1, t) ∧ iv.1 ≤ t := by
  unfold before at h
  split at h
  next hin => exact ⟨(mem_keep.mp h).1, hin⟩
  next => cases h

/-- The loop keeps the intervals in order. -/
theorem Ordered.scan (hl : Ordered l) (hd : d ≤ uint64Max)
    (hroom : max (lastStart l) t + p + least ≤ uint64Max) :
    Ordered (Queue.scan least true t p d l).intervals ∧
      Within (Queue.scan least true t p d l).intervals l := by
  induction l generalizing t p d with
  | nil => exact absurd rfl hl.endless.ne_nil
  | cons iv rest ih =>
    have hiv := hl.forth iv mem_cons_self
    have hfirst := (pairwise_cons.mp hl.apart).1
    -- the room after the last interval is room after those that follow this one
    have hlater : Ordered rest → iv.2 ≤ lastStart rest ∧ lastStart (iv :: rest) = lastStart rest :=
      fun h ↦ ⟨hfirst _ h.endless.mem, lastStart_cons h.endless.ne_nil⟩
    cases treats least t p hd iv rest with
    | serves hfits hlist _ _ =>
      have hhead : iv.1 ≤ lastStart (iv :: rest) := by
        rcases mem_cons.mp hl.endless.mem with heq | hmem
        · exact (congrArg Prod.fst heq).ge
        · have hlast : iv.2 ≤ lastStart (iv :: rest) := hfirst (lastStart (iv :: rest), uint64Max) hmem
          exact hiv.trans hlast
      have hsum : add64 (start t iv) p = start t iv + p := add64_of_le (by unfold start; omega)
      rw [hsum] at hlist hfits
      rw [hlist]
      refine ⟨hl.serves hfits ?_, ?_⟩
      · rintro rfl
        have hlast : iv.2 = uint64Max := by simpa [Endless] using hl.endless
        unfold start
        omega
      · intro jv hjv
        rcases mem_append.mp hjv with hjv | hjv
        · obtain ⟨rfl, hin⟩ := mem_before hjv
          refine ⟨iv, mem_cons_self, le_rfl, ?_⟩
          have : t ≤ start t iv := le_max_right _ _
          omega
        rcases mem_append.mp hjv with hjv | hjv
        · obtain ⟨rfl, -⟩ := mem_keep.mp hjv
          have : iv.1 ≤ start t iv := le_max_left _ _
          exact ⟨iv, mem_cons_self, by simp only; omega, le_rfl⟩
        · exact ⟨jv, mem_cons_of_mem _ hjv, le_rfl, le_rfl⟩
    | cuts hfits hin hbefore hlist _ =>
      have hrest := hl.later hfits
      obtain ⟨hle, hstart⟩ := hlater hrest
      obtain ⟨hord, hsub⟩ := ih hrest hd (show max (lastStart rest) iv.2 + p + least ≤ _ by omega)
      rw [hlist, before, if_pos hin]
      refine ⟨hord.keep_append least hin ?_, ?_⟩
      · intro jv hjv
        obtain ⟨kv, hkv, hkj, -⟩ := hsub jv hjv
        have := hfirst kv hkv
        omega
      · intro jv hjv
        rcases mem_append.mp hjv with hjv | hjv
        · obtain ⟨rfl, -⟩ := mem_keep.mp hjv
          exact ⟨iv, mem_cons_self, le_rfl, hbefore.le⟩
        · exact hsub.cons jv hjv
    | takes hfits hbefore hlist _ _ =>
      have hrest := hl.later hfits
      obtain ⟨hle, hstart⟩ := hlater hrest
      obtain ⟨hord, hsub⟩ := ih hrest (add64_le d (iv.1 - t))
        (show max (lastStart rest) iv.2 + (p - (iv.2 - iv.1)) + least ≤ _ by omega)
      rw [hlist]
      exact ⟨hord, hsub.cons⟩
    | passes hfits hafter hlist _ _ =>
      have hrest := hl.later hfits
      obtain ⟨-, hstart⟩ := hlater hrest
      obtain ⟨hord, hsub⟩ := ih hrest hd (hstart ▸ hroom)
      rw [hlist]
      refine ⟨hord.cons hiv ?_, ?_⟩
      · intro jv hjv
        obtain ⟨kv, hkv, hkj, -⟩ := hsub jv hjv
        exact (hfirst kv hkv).trans hkj
      · intro jv hjv
        rcases mem_cons.mp hjv with rfl | hjv
        · exact ⟨_, mem_cons_self, le_rfl, le_rfl⟩
        · exact hsub.cons jv hjv

theorem length_before_le (least t : ℕ) (iv : Interval) : (before least t iv).length ≤ 1 := by
  unfold before
  split
  · exact length_keep_le _ _
  · exact Nat.zero_le _

/-- The loop makes the list at most one interval longer. -/
theorem length_scan_le (least t p : ℕ) (hd : d ≤ uint64Max) (l : List Interval) :
    (scan least true t p d l).intervals.length ≤ l.length + 1 := by
  induction l generalizing t p d with
  | nil => exact Nat.zero_le _
  | cons iv rest ih =>
    have hleft := length_before_le least t iv
    rw [length_cons]
    cases treats least t p hd iv rest with
    | serves _ hlist _ _ =>
      have hright := length_keep_le least (add64 (start t iv) p, iv.2)
      rw [hlist, length_append, length_append]
      omega
    | cuts _ _ _ hlist _ =>
      have hrest := ih iv.2 p hd
      rw [hlist, length_append]
      omega
    | takes _ _ hlist _ _ =>
      have hrest := ih iv.2 (p - (iv.2 - iv.1)) (add64_le d (iv.1 - t))
      rw [hlist]
      omega
    | passes _ _ hlist _ _ =>
      have hrest := ih t p hd
      rw [hlist, length_cons]
      omega

end Order

namespace HistoryList

variable {σ : Type} {cfg : HistoryListConfig} {model : AnalyticalModel σ} {mg1 : σ}
  {s s' : HistoryList σ} {t p : ℕ}

/-- The states that packets can bring about, each of which leaves time. -/
inductive Reachable (cfg : HistoryListConfig) (model : AnalyticalModel σ) (mg1 : σ) :
    HistoryList σ → Prop
  | initial : Reachable cfg model mg1 (initial mg1)
  | packet {s s' : HistoryList σ} {queueDelay : ℕ} (pktTime processingTime : ℕ)
      (hs : Reachable cfg model mg1 s) (htime : InTime cfg model s pktTime processingTime)
      (h : s.computeQueueDelay cfg model pktTime processingTime = .ok (queueDelay, s')) :
      Reachable cfg model mg1 s'

/-- What a packet does to the list: nothing, or what the loop makes of it. -/
theorem freeIntervalList_of_computeQueueDelay {queueDelay : ℕ}
    (h : s.computeQueueDelay cfg model t p = .ok (queueDelay, s')) :
    s'.freeIntervalList = s.freeIntervalList ∨
      s.freeIntervalList.length ≤ cfg.maxFreeIntervalListSize ∧
        s'.freeIntervalList = trim cfg.maxFreeIntervalListSize
          (scan cfg.minProcessingTime cfg.interleavingEnabled t p 0 s.freeIntervalList).intervals := by
  unfold computeQueueDelay at h
  cases hhead : s.freeIntervalList.head? with
  | none =>
    rw [hhead] at h
    cases h
  | some oldest =>
    rw [hhead] at h
    by_cases hold : useAnalytical cfg.analyticalModelEnabled oldest t p = true
    · left
      have hfind : s.findDelay cfg model oldest t p = _ := if_pos hold
      by_cases hp : 0 < p
      · simp only [fetch, bind, Except.bind, hfind, AnalyticalModel.computeQueueDelay, require,
          if_pos hp, pure, Except.pure] at h
        cases h
        rfl
      · simp only [fetch, bind, Except.bind, hfind, AnalyticalModel.computeQueueDelay, require,
          if_neg hp] at h
        cases h
    · right
      have hfind : s.findDelay cfg model oldest t p = s.computeUsingHistoryList cfg t p :=
        if_neg hold
      by_cases hsize : s.freeIntervalList.length ≤ cfg.maxFreeIntervalListSize
      · simp only [fetch, bind, Except.bind, hfind, computeUsingHistoryList, require,
          if_pos hsize, pure, Except.pure] at h
        cases h
        exact ⟨hsize, rfl⟩
      · simp only [fetch, bind, Except.bind, hfind, computeUsingHistoryList, require,
          if_neg hsize] at h
        cases h

/-- The list that packets leave is in order, and short enough once a packet has been served. -/
theorem Reachable.ordered (hcfg : cfg.interleavingEnabled = true) (h : Reachable cfg model mg1 s) :
    Ordered s.freeIntervalList ∧ s.freeIntervalList.length ≤ max 1 cfg.maxFreeIntervalListSize := by
  induction h with
  | initial =>
    refine ⟨⟨?_, ?_, rfl⟩, le_max_left _ _⟩
    · exact pairwise_singleton _ _
    · simp [HistoryList.initial]
  | @packet s s' _ t p _ htime hstep ih =>
    obtain ⟨hord, hlength⟩ := ih
    rcases freeIntervalList_of_computeQueueDelay hstep with heq | ⟨hsize, heq⟩
    · rw [heq]
      exact ⟨hord, hlength⟩
    · rw [hcfg] at heq
      have hloop := (hord.scan (Nat.zero_le uint64Max) htime.served).1
      have hgrow := length_scan_le cfg.minProcessingTime t p (Nat.zero_le uint64Max)
        s.freeIntervalList
      have hpos : 0 < s.freeIntervalList.length := length_pos_of_ne_nil hord.endless.ne_nil
      rw [heq, trim]
      split
      next hlong =>
        have htail := hloop.endless.tail (by omega)
        refine ⟨⟨hloop.apart.sublist (tail_sublist _), ?_, htail⟩, ?_⟩
        · exact fun jv hjv ↦ hloop.forth jv (mem_of_mem_tail hjv)
        · rw [length_tail]
          omega
      next => exact ⟨hloop, by omega⟩

/-- The packet is served from the list, with exactly its processing time and with the delay of its
last piece. -/
def ServedExactly (cfg : HistoryListConfig) (s : HistoryList σ) (pktTime processingTime : ℕ) :
    Prop :=
  let r := scan cfg.minProcessingTime cfg.interleavingEnabled pktTime processingTime 0
    s.freeIntervalList
  (∃ s', s.computeUsingHistoryList cfg pktTime processingTime = .ok (r.queueDelay, s')) ∧
    Exact cfg.minProcessingTime pktTime processingTime s.freeIntervalList r

/-- A packet that comes to a reachable list is given exactly its processing time, with the delay of
the end of its last piece, just when the list may hold an interval, the free time is enough, and the
packet never starts in a free interval that is too short for what is left of it. -/
theorem interleaving_exact_iff (hcfg : cfg.interleavingEnabled = true)
    (h : Reachable cfg model mg1 s) (ht : t ≤ uint64Max) (hp : p ≤ uint64Max) :
    ServedExactly cfg s t p ↔ 0 < cfg.maxFreeIntervalListSize ∧
      p ≤ freeAfter t s.freeIntervalList ∧ ¬CutShort t p s.freeIntervalList := by
  obtain ⟨hord, hlength⟩ := h.ordered hcfg
  have hiff := hord.exact_iff cfg.minProcessingTime ht hp
  have hpos : 0 < s.freeIntervalList.length := length_pos_of_ne_nil hord.endless.ne_nil
  simp only [ServedExactly, hcfg, hiff, computeUsingHistoryList, require]
  by_cases hsize : s.freeIntervalList.length ≤ cfg.maxFreeIntervalListSize
  · rw [if_pos hsize]
    exact and_congr_left fun _ ↦ ⟨fun _ ↦ by omega, fun _ ↦ ⟨_, rfl⟩⟩
  · rw [if_neg hsize]
    refine and_congr_left fun _ ↦ ⟨?_, fun _ ↦ by omega⟩
    rintro ⟨_, hfail⟩
    cases hfail

/-- A configuration with interleaving and without the analytical model. -/
def interleaved : HistoryListConfig := ⟨100, false, true, 1⟩

/-- A model for old packets that never lets them wait. -/
def idleModel : AnalyticalModel Unit := ⟨fun _ _ _ ↦ 0, fun _ _ _ _ ↦ ()⟩

/-- The state after packets of ten at times ten and thirty. -/
def bookedTwice : HistoryList Unit := ⟨[(0, 10), (20, 30), (40, uint64Max)], (), 0⟩

theorem bookedTwice_reachable : Reachable interleaved idleModel () bookedTwice := by
  have hfirst : (initial ()).computeQueueDelay interleaved idleModel 10 10 =
      .ok (0, ⟨[(0, 10), (20, uint64Max)], (), 0⟩) := rfl
  have hsecond : computeQueueDelay interleaved idleModel ⟨[(0, 10), (20, uint64Max)], (), 0⟩ 30 10 =
      .ok (0, bookedTwice) := rfl
  have hreached := Reachable.packet 10 10 .initial ⟨by decide, fun _ ↦ by decide⟩ hfirst
  exact .packet 30 10 hreached ⟨by decide, fun _ ↦ by decide⟩ hsecond

/-- A packet of fifteen at time twelve takes all of the interval from 20 to 30 and the first five
after 40. -/
theorem interleaving_exact_iff_bookedTwice : ServedExactly interleaved bookedTwice 12 15 :=
  (interleaving_exact_iff rfl bookedTwice_reachable (by decide) (by decide)).mpr
    ⟨by decide, by decide, by decide⟩

/-- A packet of ten at time five is given the five up to ten and then ten more, from 20 to 30. -/
theorem interleaving_exact_fails :
    Reachable interleaved idleModel () bookedTwice ∧ ¬ServedExactly interleaved bookedTwice 5 10 ∧
      scan 1 true 5 10 0 bookedTwice.freeIntervalList =
        ⟨[(0, 5), (40, uint64Max)], 10, [(5, 10), (20, 30)], [(30, 30)]⟩ := by
  refine ⟨bookedTwice_reachable, ?_, by decide⟩
  rintro ⟨-, htotal, -⟩
  revert htotal
  decide

end HistoryList

end CarbonSim.Queue
