import CarbonSim.Lib.FirstFit
import CarbonSim.Lib.Outcome
import Mathlib.Algebra.Group.Nat.Defs

/-!
# The history-list queue model

`QueueModelHistoryList`: the delay that a packet sees in front of a port, computed from the list of
the intervals in which the port is free. `scan` is the loop of `computeUsingHistoryList`, with and
without interleaving. It also records the pieces of free time that the packet was given (`used`)
and the remainders that were too short to go back into the list (`discarded`), which the loop does
not look at.

Times are `UInt64`, and their sums wrap (`add64`). Every difference that the loop takes is of a time
and one that its conditions have shown to be no later, so no difference wraps. The iterator is moved
back by `curr_it --` after an erasure in the middle of the loop; in the ring that `std::list` is, the
`curr_it ++` of the loop then finds the interval after the erased one, also at the beginning.

The M/G/1 model for packets older than the history computes in floating point. It is a parameter
here (`AnalyticalModel`), shared with the history-tree model.
-/

namespace CarbonSim.Queue

open FirstFit

/-- `UINT64_MAX`. -/
def uint64Max : ℕ := 2 ^ 64 - 1

/-- A sum of `UInt64` values. -/
def add64 (a b : ℕ) : ℕ := (a + b) % 2 ^ 64

/-- The errors and assertions of the two history models. -/
inductive QueueFault
  /-- `computeQueueDelay`: the list of free intervals is empty. -/
  | listEmpty
  /-- `computeUsingHistoryList`: the list of free intervals is too long. -/
  | listTooLong
  /-- `QueueModelMG1::computeQueueDelay`: a service time of zero. -/
  | serviceTime
  /-- A `NULL` node. -/
  | nodeNull
  /-- `assert((pkt_time + processing_time) <= node->interval.second)`. -/
  | intervalTooShort
  /-- `assert(queue_delay != UINT64_MAX)`. -/
  | delayUnset
  /-- `allocateNode`: no memory block is free. -/
  | noFreeBlock
  /-- `releaseNode`: the node is not one of the memory blocks. -/
  | badBlock
  /-- `releaseNode`: all memory blocks are free. -/
  | allBlocksFree
  /-- `insertInTree`: a node with the same key. -/
  | sameKey
  /-- `balanceHeight`: the children have the same height. -/
  | equalHeights
  /-- `rebalanceAVLTree`: the subtree is not balanced. -/
  | notBalanced
  deriving DecidableEq, Repr

/-- The queue model for old packets: its waiting time, and what it learns of a packet. -/
structure AnalyticalModel (σ : Type) where
  waitingTime : σ → ℕ → ℕ → ℕ
  updateQueue : σ → ℕ → ℕ → ℕ → σ

/-- `QueueModelMG1::computeQueueDelay`. -/
def AnalyticalModel.computeQueueDelay {σ : Type} (model : AnalyticalModel σ) (s : σ)
    (pktTime serviceTime : ℕ) : Except QueueFault ℕ := do
  require (0 < serviceTime) .serviceTime
  return model.waitingTime s pktTime serviceTime

structure HistoryListConfig where
  maxFreeIntervalListSize : ℕ
  analyticalModelEnabled : Bool
  interleavingEnabled : Bool
  minProcessingTime : ℕ
  deriving DecidableEq, Repr

structure HistoryList (σ : Type) where
  freeIntervalList : List Interval
  queueModelMG1 : σ
  totalRequestsUsingAnalyticalModel : ℕ
  deriving DecidableEq, Repr

/-- What the loop makes of the intervals from its iterator on. -/
structure Scan where
  intervals : List Interval
  queueDelay : ℕ
  used : List Interval
  discarded : List Interval
  deriving DecidableEq, Repr

/-- The loop moves past an interval. -/
def Scan.pass (iv : Interval) (r : Scan) : Scan := { r with intervals := iv :: r.intervals }

/-- The loop has erased an interval: `piece` of it is used and `rest` is what precedes the piece. -/
def Scan.erased (least : ℕ) (rest piece : Interval) (r : Scan) : Scan where
  intervals := keep least rest ++ r.intervals
  queueDelay := r.queueDelay
  used := piece :: r.used
  discarded := shed least rest ++ r.discarded

/-- The loop of `computeUsingHistoryList`. -/
def scan (least : ℕ) (interleaving : Bool) (pktTime processingTime queueDelay : ℕ) :
    List Interval → Scan
  | [] => ⟨[], queueDelay, [], []⟩
  | iv :: rest =>
    if iv.1 ≤ pktTime ∧ add64 pktTime processingTime ≤ iv.2 then
      -- no additional delay: the packet is served in the middle of the interval
      let left : Interval := (iv.1, pktTime)
      let right : Interval := (add64 pktTime processingTime, iv.2)
      { intervals := keep least left ++ (keep least right ++ rest)
        queueDelay := queueDelay
        used := [(pktTime, add64 pktTime processingTime)]
        discarded := shed least left ++ shed least right }
    else if pktTime < iv.1 ∧ add64 iv.1 processingTime ≤ iv.2 then
      -- the packet waits for the start of the interval
      let right : Interval := (add64 iv.1 processingTime, iv.2)
      { intervals := keep least right ++ rest
        queueDelay := add64 queueDelay (iv.1 - pktTime)
        used := [(iv.1, add64 iv.1 processingTime)]
        discarded := shed least right }
    else if interleaving then
      if iv.1 ≤ pktTime ∧ pktTime < iv.2 then
        -- `pkt_time = interval.second` comes before `processing_time -= interval.second - pkt_time`
        let newTime := iv.2
        let newProcessing := processingTime - (iv.2 - newTime)
        (scan least interleaving newTime newProcessing queueDelay rest).erased least
          (iv.1, pktTime) (pktTime, iv.2)
      else if pktTime < iv.1 then
        let r := scan least interleaving iv.2 (processingTime - (iv.2 - iv.1))
          (add64 queueDelay (iv.1 - pktTime)) rest
        { r with used := iv :: r.used }
      else (scan least interleaving pktTime processingTime queueDelay rest).pass iv
    else (scan least interleaving pktTime processingTime queueDelay rest).pass iv

/-- The oldest interval is erased from a list that has become too long. -/
def trim (maxSize : ℕ) (l : List Interval) : List Interval :=
  if maxSize < l.length then l.tail else l

namespace HistoryList

variable {σ : Type}

/-- `QueueModelHistoryList::computeUsingHistoryList`. -/
def computeUsingHistoryList (cfg : HistoryListConfig) (s : HistoryList σ)
    (pktTime processingTime : ℕ) : Except QueueFault (ℕ × HistoryList σ) := do
  require (s.freeIntervalList.length ≤ cfg.maxFreeIntervalListSize) .listTooLong
  let r := scan cfg.minProcessingTime cfg.interleavingEnabled pktTime processingTime 0
    s.freeIntervalList
  return (r.queueDelay, { s with freeIntervalList := trim cfg.maxFreeIntervalListSize r.intervals })

/-- The packet is older than the history that is kept, and the analytical model is on. -/
def useAnalytical (enabled : Bool) (oldest : Interval) (pktTime processingTime : ℕ) : Bool :=
  enabled && decide (add64 pktTime processingTime < oldest.1)

/-- The two ways to find the delay. -/
def findDelay (cfg : HistoryListConfig) (model : AnalyticalModel σ) (s : HistoryList σ)
    (oldest : Interval) (pktTime processingTime : ℕ) : Except QueueFault (ℕ × HistoryList σ) :=
  if useAnalytical cfg.analyticalModelEnabled oldest pktTime processingTime then do
    let queueDelay ← model.computeQueueDelay s.queueModelMG1 pktTime processingTime
    return (queueDelay, { s with
      totalRequestsUsingAnalyticalModel := s.totalRequestsUsingAnalyticalModel + 1 })
  else s.computeUsingHistoryList cfg pktTime processingTime

/-- `QueueModelHistoryList::computeQueueDelay`. -/
def computeQueueDelay (cfg : HistoryListConfig) (model : AnalyticalModel σ) (s : HistoryList σ)
    (pktTime processingTime : ℕ) : Except QueueFault (ℕ × HistoryList σ) := do
  let oldest ← fetch s.freeIntervalList.head? .listEmpty
  let (queueDelay, s) ← s.findDelay cfg model oldest pktTime processingTime
  return (queueDelay, { s with
    queueModelMG1 := model.updateQueue s.queueModelMG1 pktTime processingTime queueDelay })

/-- The model after its constructor. -/
def initial (mg1 : σ) : HistoryList σ := ⟨[(0, uint64Max)], mg1, 0⟩

end HistoryList

/-- A queue model on a sequence of packets, each with its arrival and its processing time. -/
def runPackets {S : Type} (computeQueueDelay : S → ℕ → ℕ → Except QueueFault (ℕ × S)) :
    S → List (ℕ × ℕ) → Except QueueFault (List ℕ × S)
  | s, [] => .ok ([], s)
  | s, (pktTime, processingTime) :: rest => do
    let (queueDelay, s) ← computeQueueDelay s pktTime processingTime
    let (queueDelays, s) ← runPackets computeQueueDelay s rest
    return (queueDelay :: queueDelays, s)

/-! ### The loop without interleaving -/

theorem add64_of_le {a b : ℕ} (h : a + b ≤ uint64Max) : add64 a b = a + b :=
  Nat.mod_eq_of_lt (by unfold uint64Max at h; omega)

section Loop

variable {least t p delay : ℕ} {iv : Interval}

/-- An interval with room ends the loop. -/
theorem scan_of_fits (interleaving : Bool) (rest : List Interval) (hleast : 0 < least)
    (hroom : start t iv + p ≤ uint64Max) (hfits : Fits t p iv) :
    (scan least interleaving t p 0 (iv :: rest)).intervals =
        pieces least (start t iv) (start t iv + p) iv ++ rest ∧
      (scan least interleaving t p 0 (iv :: rest)).queueDelay = start t iv - t := by
  rcases Nat.lt_or_ge t iv.1 with hbefore | hin
  · have hstart : start t iv = iv.1 := max_eq_left hbefore.le
    rw [Fits, hstart] at hfits
    rw [hstart] at hroom ⊢
    have hsum : add64 iv.1 p = iv.1 + p := add64_of_le hroom
    have hleft : keep least (iv.1, iv.1) = [] := keep_of_lt (by simp only; omega)
    have hdelay : add64 0 (iv.1 - t) = iv.1 - t := (add64_of_le (by omega)).trans (Nat.zero_add _)
    rw [scan, if_neg (by omega), hsum, if_pos ⟨hbefore, hfits⟩, hdelay, pieces, hleft]
    exact ⟨rfl, rfl⟩
  · have hstart : start t iv = t := max_eq_right hin
    rw [Fits, hstart] at hfits
    rw [hstart] at hroom ⊢
    rw [scan, add64_of_le hroom, if_pos ⟨hin, hfits⟩, Nat.sub_self, pieces, List.append_assoc]
    exact ⟨rfl, rfl⟩

/-- Without interleaving the loop moves past an interval without room. -/
theorem scan_of_not_fits (rest : List Interval) (hroom : start t iv + p ≤ uint64Max)
    (hfits : ¬Fits t p iv) :
    scan least false t p delay (iv :: rest) = (scan least false t p delay rest).pass iv := by
  unfold Fits at hfits
  unfold start at hfits hroom
  have htime : add64 t p = t + p := add64_of_le (by omega)
  have hfirst : add64 iv.1 p = iv.1 + p := add64_of_le (by omega)
  rw [scan, htime, hfirst, if_neg (by omega), if_neg (by omega), if_neg (by simp)]

/-- Without interleaving the loop books the first interval with room for the packet. -/
theorem scan_eq_serve {b : ℕ} {l l' : List Interval} (hleast : 0 < least)
    (hroom : ∀ iv ∈ l, start t iv + p ≤ uint64Max) (h : serve least t p l = some (b, l')) :
    (scan least false t p 0 l).intervals = l' ∧ (scan least false t p 0 l).queueDelay = b - t := by
  induction l generalizing l' with
  | nil => cases h
  | cons iv rest ih =>
    have hiv := hroom iv List.mem_cons_self
    unfold serve at h
    split at h
    next hfits =>
      cases h
      exact scan_of_fits false rest hleast hiv hfits
    next hfits =>
      obtain ⟨⟨b', rest'⟩, hrest, hpair⟩ := Option.map_eq_some_iff.mp h
      cases hpair
      obtain ⟨hlist, hdelay⟩ := ih (fun jv hjv ↦ hroom jv (List.mem_cons_of_mem _ hjv)) hrest
      rw [scan_of_not_fits rest hiv hfits]
      exact ⟨congrArg _ hlist, hdelay⟩

end Loop

/-! ### Runs without interleaving -/

namespace HistoryList

variable {σ : Type} {cfg : HistoryListConfig} {model : AnalyticalModel σ} {s s' : HistoryList σ}
  {t p : ℕ}

/-- The free intervals are in order, the last of them is open, and they are not too many. -/
structure Sound (cfg : HistoryListConfig) (s : HistoryList σ) : Prop where
  separated : Separated cfg.minProcessingTime s.freeIntervalList
  endless : Endless uint64Max s.freeIntervalList
  size : s.freeIntervalList.length ≤ cfg.maxFreeIntervalListSize

/-- The packet is given to the analytical model. -/
def Old (cfg : HistoryListConfig) (s : HistoryList σ) (pktTime processingTime : ℕ) : Prop :=
  ∃ oldest ∈ s.freeIntervalList.head?,
    useAnalytical cfg.analyticalModelEnabled oldest pktTime processingTime = true

/-- The packet leaves time: served after everything that is booked, it would still leave
`min_processing_time` before `UINT64_MAX`, and so would the waiting time of the analytical model. -/
structure InTime (cfg : HistoryListConfig) (model : AnalyticalModel σ) (s : HistoryList σ)
    (pktTime processingTime : ℕ) : Prop where
  served : max (lastStart s.freeIntervalList) pktTime + processingTime + cfg.minProcessingTime ≤
    uint64Max
  waits : Old cfg s pktTime processingTime →
    pktTime + model.waitingTime s.queueModelMG1 pktTime processingTime + processingTime ≤ uint64Max

/-- What the packet does to the model: it waits as the analytical model says, or it is booked. -/
inductive Served (cfg : HistoryListConfig) (model : AnalyticalModel σ) (s : HistoryList σ)
    (pktTime processingTime : ℕ) : ℕ → HistoryList σ → Prop
  | old (queueDelay : ℕ) (hold : Old cfg s pktTime processingTime)
      (hdelay : queueDelay = model.waitingTime s.queueModelMG1 pktTime processingTime) :
      Served cfg model s pktTime processingTime queueDelay
        ⟨s.freeIntervalList, model.updateQueue s.queueModelMG1 pktTime processingTime queueDelay,
          s.totalRequestsUsingAnalyticalModel + 1⟩
  | booked (begins : ℕ) (l : List Interval) (hold : ¬Old cfg s pktTime processingTime)
      (hserve : serve cfg.minProcessingTime pktTime processingTime s.freeIntervalList =
        some (begins, l)) :
      Served cfg model s pktTime processingTime (begins - pktTime)
        ⟨trim cfg.maxFreeIntervalListSize l,
          model.updateQueue s.queueModelMG1 pktTime processingTime (begins - pktTime),
          s.totalRequestsUsingAnalyticalModel⟩

theorem trim_sublist (maxSize : ℕ) (l : List Interval) : (trim maxSize l).Sublist l := by
  unfold trim
  split
  · exact List.tail_sublist l
  · exact .refl l

/-- A packet keeps the free intervals in order. -/
theorem Sound.served {queueDelay : ℕ} (hsize : 0 < cfg.maxFreeIntervalListSize)
    (hs : Sound cfg s) (hp : 0 < p) (htime : InTime cfg model s t p)
    (h : Served cfg model s t p queueDelay s') : Sound cfg s' := by
  cases h with
  | old _ _ _ => exact ⟨hs.separated, hs.endless, hs.size⟩
  | booked begins l _ hserve =>
    have hlength := length_serve_le hserve
    have hend := hs.endless.serve htime.served hserve
    refine ⟨(hs.separated.serve hp hserve).sublist (trim_sublist _ l), ?_, ?_⟩
    · simp only [trim]
      split
      · exact hend.tail (by omega)
      · exact hend
    · have := hs.size
      simp only [trim]
      split
      · rw [List.length_tail]
        omega
      · omega

/-- The model serves every packet that leaves time. -/
theorem exists_served (hcfg : cfg.interleavingEnabled = false) (hleast : 0 < cfg.minProcessingTime)
    (hs : Sound cfg s) (hp : 0 < p) (htime : InTime cfg model s t p) :
    ∃ queueDelay s', s.computeQueueDelay cfg model t p = .ok (queueDelay, s') ∧
      Served cfg model s t p queueDelay s' := by
  obtain ⟨oldest, rest, hlist⟩ := List.exists_cons_of_ne_nil hs.endless.ne_nil
  have hhead : s.freeIntervalList.head? = some oldest := by rw [hlist]; rfl
  by_cases hold : useAnalytical cfg.analyticalModelEnabled oldest t p = true
  · refine ⟨_, _, ?_, .old _ ⟨oldest, hhead, hold⟩ rfl⟩
    rw [computeQueueDelay, hhead]
    have hfind : s.findDelay cfg model oldest t p = _ := if_pos hold
    simp only [fetch, Except.bind, bind, hfind, AnalyticalModel.computeQueueDelay, require,
      if_pos hp, pure, Except.pure]
  · have hnot : ¬Old cfg s t p := by
      rintro ⟨iv, hiv, huse⟩
      cases hhead.symm.trans hiv
      exact hold huse
    have htimes := htime.served
    obtain ⟨b, l, hserve⟩ := hs.endless.exists_serve cfg.minProcessingTime
      (show max (lastStart s.freeIntervalList) t + p ≤ uint64Max by omega)
    have hroom : ∀ iv ∈ s.freeIntervalList, start t iv + p ≤ uint64Max := by
      intro iv hiv
      have := hs.separated.le_lastStart hiv
      unfold start
      omega
    obtain ⟨hintervals, hdelay⟩ := scan_eq_serve hleast hroom hserve
    refine ⟨_, _, ?_, .booked b l hnot hserve⟩
    rw [computeQueueDelay, hhead]
    have hfind : s.findDelay cfg model oldest t p = s.computeUsingHistoryList cfg t p := if_neg hold
    simp only [fetch, Except.bind, bind, hfind, computeUsingHistoryList, require, if_pos hs.size,
      hcfg, hintervals, hdelay, pure, Except.pure]

end HistoryList

end CarbonSim.Queue
