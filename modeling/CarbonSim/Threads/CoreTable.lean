import Mathlib.Data.List.Nodup
import CarbonSim.Threads.ThreadManager

/-!
# Cores and the threads that wait for them

What scheduling is for, without the code: each core has a queue of thread indices whose front is the
thread that holds the core; a few cores run one thread that is not queued. A thread that runs, that
has been launched or that is blocked holds its core. `Table.Inv` states this, and the lemmas say how
it survives a change of the thread that holds a core, a thread that leaves and a thread that arrives.
-/

namespace CarbonSim.Threads

open Function

/-- What threads do and who waits for them to exit, the queues of the cores, the thread of each core
that was stalled last, the threads that are blocked and those that have been launched but have not
started. -/
@[ext]
structure Table where
  status : Slot → Status
  waiter : Slot → Option Slot
  queue : ℕ → List ℕ
  lastStalled : ℕ → Option ℕ
  blocked : List Slot
  launched : List Slot

namespace Table

variable {solo : ℕ → Prop} {bound : ℕ} {t : Table} {x y : Slot} {status : Status}
  {waiter : Option Slot}

/-- The thread holds its core: it is the front of the queue, or the one thread of a core without a
queue. -/
def Holds (solo : ℕ → Prop) (t : Table) (x : Slot) : Prop :=
  (solo x.tile ∧ x.index = 0) ∨ (¬ solo x.tile ∧ (t.queue x.tile).head? = some x.index)

theorem Holds.unique (hx : Holds solo t x) (hy : Holds solo t y) (htile : x.tile = y.tile) :
    x = y := by
  have hindex : x.index = y.index := by
    rcases hx with ⟨hsolo, hx⟩ | ⟨hsolo, hx⟩ <;> rcases hy with ⟨hsolo', hy⟩ | ⟨hsolo', hy⟩
    · rw [hx, hy]
    · exact absurd (htile ▸ hsolo) hsolo'
    · exact absurd (htile.symm ▸ hsolo') hsolo
    · rw [htile, hy] at hx
      exact (Option.some.inj hx).symm
  show Slot.mk x.tile x.index = y
  rw [htile, hindex]

/-- Somebody who has not exited is waited for by `y`. -/
def Joins (t : Table) (y : Slot) : Prop := ∃ x, t.status x ≠ .idle ∧ t.waiter x = some y

/-- A thread that is not idle changes its status. -/
theorem Joins.of_update {t' : Table} (h : t'.Joins y) (hx : t.status x ≠ .idle)
    (hstatus : t'.status = update t.status x status) (hwaiter : t'.waiter = t.waiter) :
    t.Joins y := by
  obtain ⟨z, hz, hzy⟩ := h
  rw [hwaiter] at hzy
  refine ⟨z, fun hidle ↦ ?_, hzy⟩
  have hzx : z ≠ x := fun heq ↦ hx (heq ▸ hidle)
  rw [hstatus, update_of_ne hzx] at hz
  exact hz hidle

/-- The queues hold the threads that are not idle; a thread that runs, has been launched, is blocked or
joins another one holds its core. -/
structure Inv (solo : ℕ → Prop) (bound : ℕ) (t : Table) : Prop where
  queued : ∀ c, ¬ solo c → ∀ j, t.status ⟨c, j⟩ ≠ .idle ↔ j ∈ t.queue c
  nodup : ∀ c, (t.queue c).Nodup
  alone : ∀ c, solo c → t.queue c = [] ∧ ∀ j, j ≠ 0 → t.status ⟨c, j⟩ = .idle
  running : ∀ x, t.status x = .running → Holds solo t x
  launched : ∀ x ∈ t.launched, t.status x = .initializing ∧ Holds solo t x
  blocked : ∀ x ∈ t.blocked,
    t.status x = .stalled ∧ Holds solo t x ∧ t.lastStalled x.tile = some x.index
  joining : ∀ y, t.Joins y → t.status y = .stalled ∧ Holds solo t y ∧ y ∉ t.blocked
  oneJoin : ∀ x x' y, t.status x ≠ .idle → t.status x' ≠ .idle → t.waiter x = some y →
    t.waiter x' = some y → x = x'
  bounded : ∀ x, t.status x ≠ .idle → x.index < bound

/-! ### The thread that holds a core changes its status -/

/-- The status of one thread, with new lists of the blocked and of the launched threads. -/
def restatus (t : Table) (x : Slot) (status : Status) (last : ℕ → Option ℕ)
    (blocked launched : List Slot) : Table :=
  { t with
    status := update t.status x status
    lastStalled := last
    blocked := blocked
    launched := launched }

theorem Inv.restatus (h : Inv solo bound t) {last : ℕ → Option ℕ} {blocked launched : List Slot}
    (hx : Holds solo t x) (hold : t.status x ≠ .idle) (hnew : status ≠ .idle)
    (hlast : ∀ c, c ≠ x.tile → last c = t.lastStalled c)
    (hlaunched : ∀ y ∈ launched, y ∈ t.launched ∧ y ≠ x ∨ y = x ∧ status = .initializing)
    (hblocked : ∀ y ∈ blocked,
      y ∈ t.blocked ∧ y ≠ x ∨ y = x ∧ status = .stalled ∧ last x.tile = some x.index)
    (hjoins : t.Joins x → status = .stalled ∧ x ∉ blocked) :
    Inv solo bound (t.restatus x status last blocked launched) := by
  have hidle : ∀ y, update t.status x status y ≠ .idle ↔ t.status y ≠ .idle :=
    (forall_update_iff t.status fun y new ↦ new ≠ .idle ↔ t.status y ≠ .idle).mpr
      ⟨iff_of_true hnew hold, fun _ _ ↦ .rfl⟩
  refine ⟨fun c hc j ↦ (hidle _).trans (h.queued c hc j), h.nodup, fun c hc ↦ ?_, fun y hy ↦ ?_,
    fun y hy ↦ ?_, fun y hy ↦ ?_, fun y hy ↦ ?_,
    fun z z' y hz hz' ↦ h.oneJoin z z' y ((hidle z).mp hz) ((hidle z').mp hz'),
    fun y hy ↦ h.bounded y ((hidle y).mp hy)⟩
  · refine ⟨(h.alone c hc).1, fun j hj ↦ ?_⟩
    by_contra hbusy
    exact (hidle _).mp hbusy ((h.alone c hc).2 j hj)
  · by_cases hyx : y = x
    · exact hyx ▸ hx
    · refine h.running y ?_
      have hy' : update t.status x status y = .running := hy
      rwa [update_of_ne hyx] at hy'
  · show update t.status x status y = _ ∧ Holds solo t y
    rcases hlaunched y hy with ⟨hmem, hyx⟩ | ⟨rfl, hstatus⟩
    · rw [update_of_ne hyx]
      exact h.launched y hmem
    · rw [update_self]
      exact ⟨hstatus, hx⟩
  · show update t.status x status y = _ ∧ Holds solo t y ∧ last y.tile = _
    rcases hblocked y hy with ⟨hmem, hyx⟩ | ⟨rfl, hstatus, hlasty⟩
    · obtain ⟨hstalled, hholds, hlasty⟩ := h.blocked y hmem
      have htile : y.tile ≠ x.tile := fun htile ↦ hyx (hholds.unique hx htile)
      rw [update_of_ne hyx, hlast _ htile]
      exact ⟨hstalled, hholds, hlasty⟩
    · rw [update_self]
      exact ⟨hstatus, hx, hlasty⟩
  · show update t.status x status y = _ ∧ Holds solo t y ∧ y ∉ blocked
    have hjoin : t.Joins y := hy.of_update hold rfl rfl
    obtain ⟨hstalled, hholds, hfree⟩ := h.joining y hjoin
    by_cases hyx : y = x
    · subst hyx
      rw [update_self]
      exact ⟨(hjoins hjoin).1, hholds, (hjoins hjoin).2⟩
    · rw [update_of_ne hyx]
      refine ⟨hstalled, hholds, fun hmem ↦ ?_⟩
      rcases hblocked y hmem with ⟨hmem, -⟩ | ⟨heq, -⟩
      · exact hfree hmem
      · exact hyx heq

/-! ### Joins -/

def setWaiter (t : Table) (x : Slot) (waiter : Option Slot) : Table :=
  { t with waiter := update t.waiter x waiter }

theorem Inv.setWaiter (h : Inv solo bound t) (x : Slot)
    (hwaiter : ∀ y ∈ waiter, t.status x ≠ .idle → t.status y = .stalled ∧ Holds solo t y ∧
      y ∉ t.blocked ∧ ∀ z, t.status z ≠ .idle → t.waiter z = some y → z = x) :
    Inv solo bound (t.setWaiter x waiter) := by
  have hcases : ∀ z y, update t.waiter x waiter z = some y →
      z = x ∧ waiter = some y ∨ t.waiter z = some y := by
    intro z y hzy
    rw [update_apply] at hzy
    split_ifs at hzy with hzx
    · exact .inl ⟨hzx, hzy⟩
    · exact .inr hzy
  refine ⟨h.queued, h.nodup, h.alone, h.running, h.launched, h.blocked, ?_, ?_, h.bounded⟩
  · rintro y ⟨z, hz, hzy⟩
    rcases hcases z y hzy with ⟨rfl, hy⟩ | hzy
    · obtain ⟨hstalled, hholds, hfree, -⟩ := hwaiter y hy hz
      exact ⟨hstalled, hholds, hfree⟩
    · exact h.joining y ⟨z, hz, hzy⟩
  · intro z z' y hz hz' hzy hzy'
    rcases hcases z y hzy with ⟨rfl, hy⟩ | hold <;> rcases hcases z' y hzy' with ⟨rfl, hy'⟩ | hold'
    · rfl
    · exact ((hwaiter y hy hz).2.2.2 z' hz' hold').symm
    · exact (hwaiter y hy' hz').2.2.2 z hz hold
    · exact h.oneJoin z z' y hz hz' hold hold'

/-! ### A thread leaves its core -/

def remove (t : Table) (x : Slot) : Table :=
  { t with
    status := update t.status x .idle
    queue := update t.queue x.tile ((t.queue x.tile).filter (· ≠ x.index)) }

theorem head?_filter {l : List ℕ} {p : ℕ → Bool} {j : ℕ} (hl : l.head? = some j) (hj : p j = true) :
    (l.filter p).head? = some j := by
  cases l with
  | nil => cases hl
  | cons i rest =>
    cases hl
    rw [List.filter_cons_of_pos hj]
    rfl

/-- Another thread that holds its core still does. -/
theorem Holds.remove (hy : Holds solo t y) (hyx : y ≠ x) : Holds solo (t.remove x) y := by
  refine hy.imp_right (And.imp_right fun hhead ↦ ?_)
  show (update t.queue x.tile _ y.tile).head? = _
  by_cases htile : y.tile = x.tile
  · rw [htile, update_self]
    refine head?_filter (htile ▸ hhead) (decide_eq_true fun hindex ↦ hyx ?_)
    show Slot.mk y.tile y.index = x
    rw [htile, hindex]
  · rw [update_of_ne htile]
    exact hhead

theorem busy_of_remove (hy : (t.remove x).status y ≠ .idle) : y ≠ x ∧ t.status y ≠ .idle := by
  have hy' : update t.status x .idle y ≠ .idle := hy
  rw [update_apply] at hy'
  split_ifs at hy' with hyx
  · exact absurd rfl hy'
  · exact ⟨hyx, hy'⟩

theorem Inv.remove (h : Inv solo bound t) (hlaunched : x ∉ t.launched) (hblocked : x ∉ t.blocked)
    (hjoin : ∀ z, z ≠ x → t.status z ≠ .idle → t.waiter z ≠ some x) :
    Inv solo bound (t.remove x) := by
  have hsame : ∀ {y}, y ≠ x → (t.remove x).status y = t.status y := fun hyx ↦ update_of_ne hyx ..
  refine ⟨fun c hc j ↦ ?_, (forall_update_iff t.queue fun _ queue ↦ queue.Nodup).mpr
      ⟨(h.nodup _).filter _, fun c _ ↦ h.nodup c⟩,
    fun c hc ↦ ⟨?_, fun j hj ↦ ?_⟩, fun y hy ↦ ?_, fun y hy ↦ ?_, fun y hy ↦ ?_, ?_,
    fun z z' y hz hz' ↦ h.oneJoin z z' y (busy_of_remove hz).2 (busy_of_remove hz').2,
    fun y hy ↦ h.bounded y (busy_of_remove hy).2⟩
  · show _ ↔ j ∈ update t.queue x.tile _ c
    by_cases hctile : c = x.tile
    · subst hctile
      rw [update_self, List.mem_filter, ← h.queued _ hc j]
      constructor
      · intro hj
        obtain ⟨hjx, hj⟩ := busy_of_remove hj
        exact ⟨hj, decide_eq_true fun hindex ↦ hjx (hindex ▸ rfl)⟩
      · rintro ⟨hj, hindex⟩
        have hjx : (⟨x.tile, j⟩ : Slot) ≠ x := fun heq ↦
          of_decide_eq_true hindex (congrArg Slot.index heq)
        rw [hsame hjx]
        exact hj
    · have hjx : (⟨c, j⟩ : Slot) ≠ x := fun heq ↦ hctile (congrArg Slot.tile heq)
      rw [update_of_ne hctile, hsame hjx]
      exact h.queued c hc j
  · show update t.queue x.tile _ c = []
    by_cases hctile : c = x.tile
    · subst hctile
      rw [update_self, (h.alone _ hc).1]
      rfl
    · rw [update_of_ne hctile]
      exact (h.alone c hc).1
  · by_contra hbusyj
    exact (busy_of_remove hbusyj).2 ((h.alone c hc).2 j hj)
  · have hbusy : (t.remove x).status y ≠ .idle := hy ▸ nofun
    have hyx := (busy_of_remove hbusy).1
    rw [hsame hyx] at hy
    exact (h.running y hy).remove hyx
  · have hyx : y ≠ x := fun heq ↦ hlaunched (heq ▸ hy)
    rw [hsame hyx]
    exact ⟨(h.launched y hy).1, (h.launched y hy).2.remove hyx⟩
  · have hyx : y ≠ x := fun heq ↦ hblocked (heq ▸ hy)
    rw [hsame hyx]
    exact ⟨(h.blocked y hy).1, (h.blocked y hy).2.1.remove hyx, (h.blocked y hy).2.2⟩
  · rintro y ⟨z, hz, hzy⟩
    obtain ⟨hzx, hz⟩ := busy_of_remove hz
    have hyx : y ≠ x := fun heq ↦ hjoin z hzx hz (heq ▸ hzy)
    obtain ⟨hstalled, hholds, hfree⟩ := h.joining y ⟨z, hz, hzy⟩
    rw [hsame hyx]
    exact ⟨hstalled, hholds.remove hyx, hfree⟩

/-! ### A thread arrives at a core -/

def append (t : Table) (x : Slot) (status : Status) (waiter : Option Slot) : Table :=
  { t with
    status := update t.status x status
    waiter := update t.waiter x waiter
    queue := update t.queue x.tile (t.queue x.tile ++ [x.index]) }

/-- A thread that holds its core still does. -/
theorem Holds.append (hy : Holds solo t y) : Holds solo (t.append x status waiter) y := by
  refine hy.imp_right (And.imp_right fun hhead ↦ ?_)
  show (update t.queue x.tile _ y.tile).head? = _
  rw [update_apply]
  split_ifs with htile
  · rw [← htile, List.head?_append, hhead]
    rfl
  · exact hhead

theorem eq_some_of_update {waiter : Slot → Option Slot} {z : Slot}
    (h : update waiter x none z = some y) : z ≠ x ∧ waiter z = some y := by
  rw [update_apply] at h
  split_ifs at h with hzx
  exact ⟨hzx, h⟩

/-- Joins after a thread without a waiter has arrived. -/
theorem Joins.of_append (h : (t.append x status none).Joins y) : t.Joins y := by
  obtain ⟨z, hz, hzy⟩ := h
  obtain ⟨hzx, hzy⟩ := eq_some_of_update hzy
  have hz' : update t.status x status z ≠ .idle := hz
  rw [update_of_ne hzx] at hz'
  exact ⟨z, hz', hzy⟩

/-- Nobody waits yet for the thread that arrives. -/
theorem Inv.append_none (h : Inv solo bound t) (hsolo : ¬ solo x.tile) (hidle : t.status x = .idle)
    (hnew : status ≠ .idle) (hrest : status ≠ .running) (hbound : x.index < bound) :
    Inv solo bound (t.append x status none) := by
  have hself : (t.append x status none).status x = status := update_self ..
  have hsame : ∀ {y}, y ≠ x → (t.append x status none).status y = t.status y := fun hyx ↦
    update_of_ne hyx ..
  have hapart : ∀ {y}, t.status y ≠ .idle → y ≠ x := fun hy heq ↦ hy (heq ▸ hidle)
  refine ⟨fun c hc j ↦ ?_, (forall_update_iff t.queue fun _ queue ↦ queue.Nodup).mpr
      ⟨List.nodup_append.mpr ⟨h.nodup _, List.nodup_singleton _, ?_⟩, fun c _ ↦ h.nodup c⟩,
    fun c hc ↦ ⟨?_, fun j hj ↦ ?_⟩, fun y hy ↦ ?_, fun y hy ↦ ?_, fun y hy ↦ ?_, fun y hy ↦ ?_, ?_,
    fun y hy ↦ ?_⟩
  · show _ ↔ j ∈ update t.queue x.tile _ c
    by_cases hctile : c = x.tile
    · subst hctile
      rw [update_self, List.mem_append, List.mem_singleton, ← h.queued _ hc j]
      by_cases hj : j = x.index
      · subst hj
        rw [hself]
        exact ⟨fun _ ↦ .inr rfl, fun _ ↦ hnew⟩
      · have hjx : (⟨x.tile, j⟩ : Slot) ≠ x := fun heq ↦ hj (congrArg Slot.index heq)
        rw [hsame hjx]
        exact ⟨.inl, fun hmem ↦ hmem.resolve_right hj⟩
    · have hjx : (⟨c, j⟩ : Slot) ≠ x := fun heq ↦ hctile (congrArg Slot.tile heq)
      rw [update_of_ne hctile, hsame hjx]
      exact h.queued c hc j
  · intro i hi j hj hij
    rw [hij, List.mem_singleton.mp hj] at hi
    exact (h.queued _ hsolo x.index).mpr hi hidle
  · have hctile : c ≠ x.tile := fun heq ↦ hsolo (heq ▸ hc)
    show update t.queue x.tile _ c = []
    rw [update_of_ne hctile]
    exact (h.alone c hc).1
  · have hjx : (⟨c, j⟩ : Slot) ≠ x := fun heq ↦ hsolo (heq ▸ hc)
    rw [hsame hjx]
    exact (h.alone c hc).2 j hj
  · by_cases hyx : y = x
    · subst hyx
      rw [hself] at hy
      exact absurd hy hrest
    · rw [hsame hyx] at hy
      exact (h.running y hy).append
  · obtain ⟨hstatus, hholds⟩ := h.launched y hy
    rw [hsame (hapart (hstatus ▸ nofun))]
    exact ⟨hstatus, hholds.append⟩
  · obtain ⟨hstatus, hholds, hlast⟩ := h.blocked y hy
    rw [hsame (hapart (hstatus ▸ nofun))]
    exact ⟨hstatus, hholds.append, hlast⟩
  · obtain ⟨hstalled, hholds, hfree⟩ := h.joining y hy.of_append
    rw [hsame (hapart (hstalled ▸ nofun))]
    exact ⟨hstalled, hholds.append, hfree⟩
  · intro z z' y hz hz' hzy hzy'
    obtain ⟨hzx, hzy⟩ := eq_some_of_update hzy
    obtain ⟨hzx', hzy'⟩ := eq_some_of_update hzy'
    rw [hsame hzx] at hz
    rw [hsame hzx'] at hz'
    exact h.oneJoin z z' y hz hz' hzy hzy'
  · by_cases hyx : y = x
    · exact hyx ▸ hbound
    · rw [hsame hyx] at hy
      exact h.bounded y hy

/-- A thread that moves takes its waiter along. -/
theorem Joins.of_move {z : Slot} (hbusy : t.status x ≠ .idle)
    (h : ((t.remove x).append y status (t.waiter x)).Joins z) : t.Joins z := by
  obtain ⟨w, hw, hwz⟩ := h
  have hw' : update (t.remove x).status y status w ≠ .idle := hw
  have hwz' : update t.waiter y (t.waiter x) w = some z := hwz
  by_cases hwy : w = y
  · subst hwy
    rw [update_self] at hwz'
    exact ⟨x, hbusy, hwz'⟩
  · rw [update_of_ne hwy] at hwz' hw'
    exact ⟨w, (busy_of_remove hw').2, hwz'⟩

/-! ### Moving and requeueing -/

/-- A thread of a core that another one holds does not run, has not been launched, is not blocked and
joins nobody. -/
theorem Inv.behind (h : Inv solo bound t) (hx : ¬ Holds solo t x) :
    t.status x ≠ .running ∧ x ∉ t.launched ∧ x ∉ t.blocked ∧ ¬ t.Joins x :=
  ⟨fun hrun ↦ hx (h.running x hrun), fun hmem ↦ hx (h.launched x hmem).2,
    fun hmem ↦ hx (h.blocked x hmem).2.1, fun hjoin ↦ hx (h.joining x hjoin).2.1⟩

/-- A running thread has not been launched, is not blocked and joins nobody. -/
theorem Inv.active (h : Inv solo bound t) (hx : t.status x = .running) :
    x ∉ t.launched ∧ x ∉ t.blocked ∧ ¬ t.Joins x := by
  refine ⟨fun hmem ↦ ?_, fun hmem ↦ ?_, fun hjoin ↦ ?_⟩
  · exact absurd (hx.symm.trans (h.launched x hmem).1) nofun
  · exact absurd (hx.symm.trans (h.blocked x hmem).1) nofun
  · exact absurd (hx.symm.trans (h.joining x hjoin).1) nofun

/-- A thread that nothing depends on moves to an idle place of another core, with its waiter. -/
theorem Inv.move (h : Inv solo bound t) (hbusy : t.status x ≠ .idle) (hlaunched : x ∉ t.launched)
    (hblocked : x ∉ t.blocked) (hjoin : ¬ t.Joins x) (hsolo : ¬ solo y.tile)
    (hidle : (t.remove x).status y = .idle) (hnew : status ≠ .idle) (hrest : status ≠ .running)
    (hbound : y.index < bound) : Inv solo bound ((t.remove x).append y status (t.waiter x)) := by
  have hremoved : Inv solo bound (t.remove x) :=
    h.remove hlaunched hblocked fun z _ hz hzx ↦ hjoin ⟨z, hz, hzx⟩
  have hset : ((t.remove x).append y status none).setWaiter y (t.waiter x) =
      (t.remove x).append y status (t.waiter x) := by
    simp only [Table.append, Table.setWaiter, update_idem]
  refine hset ▸ (hremoved.append_none hsolo hidle hnew hrest hbound).setWaiter y fun z hz _ ↦ ?_
  obtain ⟨hstalled, hholds, hfree⟩ := h.joining z ⟨x, hbusy, hz⟩
  have hzx : z ≠ x := fun heq ↦ hjoin ⟨x, hbusy, heq ▸ hz⟩
  have hsame : (t.remove x).status z = .stalled := (update_of_ne hzx ..).trans hstalled
  have hzy : z ≠ y := fun heq ↦ absurd ((heq ▸ hsame).symm.trans hidle) nofun
  refine ⟨(update_of_ne hzy ..).trans hsame, (hholds.remove hzx).append, hfree, fun w hw hwz ↦ ?_⟩
  obtain ⟨v, hv, hvz⟩ := Joins.of_append ⟨w, hw, hwz⟩
  obtain ⟨hvx, hv⟩ := busy_of_remove hv
  exact absurd (h.oneJoin v x z hv hbusy hvz hz) hvx

end Table

end CarbonSim.Threads
