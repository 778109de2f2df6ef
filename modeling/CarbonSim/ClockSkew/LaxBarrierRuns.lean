import CarbonSim.ClockSkew.LaxBarrierServer
import CarbonSim.Lib.Runs
import CarbonSim.Threads.Consistency

/-!
# Tiles and the server of the lax barrier

The clients of the lax barrier on the tiles, the messages in flight, the states of the threads and the
server. A thread that waits for its release does nothing else. In every run whose times stay one
interval below `2 ^ 64` each wait is answered once, a tile that has to wait is released when no thread
runs on a tile that is behind, and as long as a tile waits some tile that is behind can go on.
-/

namespace CarbonSim.ClockSkew

open Function List Server

open Threads (Master Slot)

/-- The server, the states of the threads, for each tile the time at which its client sent the wait that
it has not returned from and the time of its next wait, and the messages in flight. The numbers of
waits sent, of releases sent and of releases received are kept for each tile. -/
structure System where
  server : Server
  master : Master
  pending : ℕ → Option ℕ
  nextSync : ℕ → ℕ
  inbox : List (ℕ × ℕ)
  waits : ℕ → ℕ
  releases : ℕ → ℕ
  received : ℕ → ℕ

/-- What happens next: a client calls `synchronize`, the server takes a wait, a client takes its
release, or a thread is placed, starts, stalls, is resumed or exits. -/
inductive Event
  | synchronize (tile time : ℕ)
  | barrierWait (tile time : ℕ)
  | receive (tile : ℕ)
  | place (x : Slot)
  | start (x : Slot)
  | stall (x : Slot)
  | resume (x : Slot)
  | exit (x : Slot)
  deriving DecidableEq, Repr

namespace System

variable (p : Params) (σ : System)

def start : System where
  server := Server.start p
  master := Master.start p.threads
  pending _ := none
  nextSync _ := p.interval
  inbox := []
  waits _ := 0
  releases _ := 0
  received _ := 0

/-- `LaxBarrierSyncClient::synchronize` up to the wait for the release, with the time of the global
clock. -/
def synchronize (tile time : ℕ) : Except Fault System := do
  require (tile < p.applicationTiles ∧ σ.pending tile = none ∧ Occupied p σ.master tile) .disabled
  if σ.nextSync tile ≤ time then
    return { σ with
      pending := update σ.pending tile (some time)
      inbox := σ.inbox ++ [(tile, time)]
      waits := update σ.waits tile (σ.waits tile + 1) }
  else return σ

/-- The server has changed and releases some tiles. -/
def answer (r : Server × List ℕ) : System :=
  { σ with
    server := r.1
    releases := fun t ↦ σ.releases t + r.2.count t }

def barrierWait (tile time : ℕ) : Except Fault System := do
  require ((tile, time) ∈ σ.inbox) .disabled
  let r ← σ.server.barrierWait p σ.master tile time
  return { σ with inbox := σ.inbox.erase (tile, time) }.answer r

/-- The end of `LaxBarrierSyncClient::synchronize`. -/
def receive (tile : ℕ) : Except Fault System := do
  let time ← fetch (σ.pending tile) .disabled
  require (σ.received tile < σ.releases tile) .disabled
  return { σ with
    pending := update σ.pending tile none
    nextSync := update σ.nextSync tile (time / p.interval * p.interval + p.interval)
    received := update σ.received tile (σ.received tile + 1) }

def setStatus (x : Slot) (status : Threads.Status) : System :=
  { σ with master := σ.master.setStatus x status }

/-- The server looks at the threads again. -/
def signal : Except Fault System := do
  let r ← σ.server.signal p σ.master
  return σ.answer r

def step : Event → Except Fault System
  | .synchronize tile time => σ.synchronize p tile time
  | .barrierWait tile time => σ.barrierWait p tile time
  | .receive tile => σ.receive p tile
  | .place x => do
    require (σ.master.status x = .idle) .disabled
    return σ.setStatus x .initializing
  | .start x => do
    require (σ.master.status x = .initializing) .disabled
    return σ.setStatus x .running
  | .stall x => do
    -- a thread that waits for its release makes no call
    require (σ.master.status x = .running ∧ σ.pending x.tile = none) .disabled
    { σ with master := σ.master.stallThread x }.signal p
  | .resume x => do
    require (σ.master.status x = .stalled) .disabled
    return σ.setStatus x .running
  | .exit x => do
    require (σ.master.status x = .running ∧ σ.pending x.tile = none) .disabled
    (σ.setStatus x .idle).signal p

/-- The times that the clients report stay one interval below the largest. -/
def Meets (p : Params) (_ : System) : Event → Prop
  | .synchronize _ time => time + p.interval < 2 ^ 64
  | _ => True

instance (p : Params) (σ : System) (e : Event) : Decidable (σ.Meets p e) :=
  match e with
  | .synchronize _ _ => inferInstanceAs (Decidable (_ < _))
  | .barrierWait _ _ | .receive _ | .place _ | .start _ | .stall _ | .resume _ | .exit _ =>
    inferInstanceAs (Decidable True)

def machine (p : Params) : Machine System Event Fault := ⟨start p, fun σ e ↦ σ.step p e⟩

/-- The states of the runs whose times stay in range. -/
def Reached (p : Params) (σ : System) : Prop := (machine p).Reached (Meets p) σ

/-! ### The invariant -/

/-- The waits of a tile in the inbox of the server. -/
def queued (σ : System) (t : ℕ) : ℕ := (σ.inbox.map Prod.fst).count t

variable {p σ} {σ' : System} {tile time : ℕ} {m : Master} {status : Threads.Status}
  {released : List ℕ} {x : Slot}

/-- Every wait is in the inbox, held by the server with its time or answered, and a tile with a wait
has a thread. -/
structure Tokens (p : Params) (σ : System) : Prop where
  server : σ.server.Inv p
  count : ∀ t, σ.waits t = σ.releases t + σ.queued t + (σ.server.acquired t).toNat
  pending : ∀ t, σ.waits t = σ.received t + (σ.pending t).isSome.toNat
  received : ∀ t, σ.received t ≤ σ.releases t
  inbox : ∀ t time, (t, time) ∈ σ.inbox → σ.pending t = some time
  clock : ∀ t, σ.server.acquired t = true → σ.pending t = some (σ.server.localClock t)
  inRange : ∀ t time, (t, time) ∈ σ.inbox → t < p.applicationTiles ∧ time + p.interval < 2 ^ 64
  occupied : ∀ t, (σ.pending t).isSome = true → Occupied p σ.master t

/-- While the server holds a wait, a tile that is behind has a thread that can go on. -/
def Progress (p : Params) (σ : System) : Prop :=
  ∀ t, σ.server.acquired t = true → ∃ u < p.applicationTiles,
    σ.server.localClock u < σ.server.nextBarrierTime ∧ Occupied p σ.master u

structure Inv (p : Params) (σ : System) : Prop where
  tokens : Tokens p σ
  progress : Progress p σ

theorem inv_start (p : Params) : Inv p (start p) where
  tokens :=
    { server := Server.inv_start p
      count := fun _ ↦ rfl
      pending := fun _ ↦ rfl
      received := fun _ ↦ Nat.le_refl 0
      inbox := fun _ _ hmem ↦ absurd hmem not_mem_nil
      clock := nofun
      inRange := fun _ _ hmem ↦ absurd hmem not_mem_nil
      occupied := nofun }
  progress := nofun

theorem Tokens.held (h : Tokens p σ) (t : ℕ) (ht : σ.server.acquired t = true) :
    Occupied p σ.master t :=
  h.occupied t (Option.isSome_of_eq_some (h.clock t ht))

/-- A tile whose wait has been answered has no other one. -/
theorem Tokens.answered (h : Tokens p σ) {t : ℕ} (ht : σ.received t < σ.releases t) :
    σ.queued t = 0 ∧ σ.server.acquired t = false := by
  have hcount := h.count t
  have hpending := h.pending t
  have hle := Bool.toNat_le (σ.pending t).isSome
  cases hacquired : σ.server.acquired t with
  | false => exact ⟨by omega, rfl⟩
  | true =>
    rw [hacquired, Bool.toNat_true] at hcount
    omega

/-! ### Releases -/

/-- What a step does to the barrier: tiles are released at once when their wait comes late, or in a
round, when no thread runs on a tile below the barrier time in force. The barrier time only moves when
a tile is released. -/
structure Releases (p : Params) (σ σ' : System) (late : ℕ → Prop) : Prop where
  inForce : ∀ t, σ.releases t < σ'.releases t → late t ∨
    ∃ time, σ'.server.nextBarrierTime = time + p.interval ∧ σ.server.nextBarrierTime ≤ time ∧
      ∀ u < p.applicationTiles, Runs p σ'.master u → time ≤ σ'.server.localClock u
  moves : σ'.server.nextBarrierTime ≠ σ.server.nextBarrierTime → ∃ t, σ.releases t < σ'.releases t

theorem Releases.refl {late : ℕ → Prop} (hserver : σ'.server.nextBarrierTime = σ.server.nextBarrierTime)
    (hreleases : σ'.releases = σ.releases) : Releases p σ σ' late :=
  ⟨fun _ ht ↦ absurd (hreleases ▸ ht) (Nat.lt_irrefl _), fun hmoves ↦ absurd hserver hmoves⟩

/-- A tile is released once, and the server no longer holds its wait. -/
theorem count_round {s s' : Server} (hround : Server.Round p s s' released) (hinv : s.Inv p)
    (t : ℕ) : (s.acquired t).toNat = released.count t + (s'.acquired t).toNat := by
  have hnodup : released.Nodup := by
    rw [hround.tiles]
    exact nodup_range.filter _
  by_cases hmem : t ∈ released
  · obtain ⟨-, hclock, hacquired⟩ := hround.mem.mp hmem
    have hafter : s'.acquired t = false := by
      rw [Bool.eq_false_iff]
      exact fun h ↦ Nat.not_le.mpr hclock ((hround.acquired t).mp h).2
    rw [count_eq_one_of_mem hnodup hmem, hacquired, hafter]
    rfl
  · have hsame : s'.acquired t = s.acquired t := by
      rw [Bool.eq_iff_iff, hround.acquired t]
      refine ⟨And.left, fun hacquired ↦ ⟨hacquired, ?_⟩⟩
      by_contra hclock
      exact hmem (hround.mem.mpr ⟨((hinv.acquired_iff t).mp hacquired).1, Nat.not_le.mp hclock,
        hacquired⟩)
    rw [count_eq_zero_of_not_mem hmem, hsame, Nat.zero_add]

theorem Tokens.answer {s' : Server} (h : Tokens p σ) (hserver : s'.Inv p)
    (hclock : s'.localClock = σ.server.localClock)
    (hcount : ∀ t, (σ.server.acquired t).toNat = released.count t + (s'.acquired t).toNat) :
    Tokens p (σ.answer (s', released)) where
  server := hserver
  count t := by
    have hold := h.count t
    have hnew := hcount t
    show σ.waits t = σ.releases t + released.count t + σ.queued t + (s'.acquired t).toNat
    omega
  pending := h.pending
  received t := Nat.le_trans (h.received t) (Nat.le_add_right _ _)
  inbox := h.inbox
  clock t ht := by
    have hacquired : s'.acquired t = true := ht
    have hnew := hcount t
    rw [hacquired, Bool.toNat_true] at hnew
    show σ.pending t = some (s'.localClock t)
    rw [hclock]
    refine h.clock t ?_
    cases hold : σ.server.acquired t with
    | true => rfl
    | false =>
      rw [hold, Bool.toNat_false] at hnew
      omega
  inRange := h.inRange
  occupied := h.occupied

/-- A signal keeps the tokens and leaves no tile waiting without need. -/
theorem Tokens.signal (h : Tokens p σ) :
    Outcome (σ.signal p) (fun σ' ↦ Inv p σ' ∧ σ'.master = σ.master ∧ ∀ late, Releases p σ σ' late)
      Fault.IsThread := by
  refine (signal_spec h.server).bind ?_
  rintro ⟨s', released⟩ (⟨heq, hidles⟩ | ⟨hround, hreaches⟩)
  · cases heq
    refine ⟨⟨h.answer h.server rfl fun t ↦ (Nat.zero_add _).symm, fun t ht ↦ ?_⟩, rfl,
      fun late ↦ .refl rfl rfl⟩
    obtain ⟨hlt, hclock⟩ := (h.server.acquired_iff t).mp ht
    rcases hidles with ⟨u, hu, hbehind, j, hj, hrunning⟩ | hall
    · exact ⟨u, hu, hbehind, j, hj, .inl hrunning⟩
    · exact absurd (hall t hlt) (Nat.not_lt.mpr hclock)
  · obtain ⟨u, hu⟩ := exists_mem_of_ne_nil released hround.nonempty
    obtain ⟨hult, hclock, hacquired⟩ := hround.mem.mp hu
    have hcount : σ.releases u < σ.releases u + released.count u :=
      Nat.lt_add_of_pos_right (count_pos_iff.mpr hu)
    refine ⟨⟨h.answer (hround.inv h.server) hround.clock (count_round hround h.server),
    fun _ _ ↦ ?_⟩, rfl,
      fun late ↦ ⟨fun t _ ↦ .inr ?_, fun _ ↦ ⟨u, hcount⟩⟩⟩
    · refine ⟨u, hult, ?_, h.held u hacquired⟩
      show s'.localClock u < s'.nextBarrierTime
      rw [hround.clock]
      exact hclock
    · obtain ⟨time, htime, hle, hreached⟩ := hround.inForce
      refine ⟨time, htime, hle, fun v hv hruns ↦ ?_⟩
      show time ≤ s'.localClock v
      rw [hround.clock]
      by_cases hbehind : σ.server.localClock v < σ.server.nextBarrierTime
      · exact absurd hruns (hreaches.behind v (mem_range.mpr hv) hbehind)
      · exact hreached v ((h.server.acquired_iff v).mpr ⟨hv, Nat.not_lt.mp hbehind⟩)

/-! ### The threads -/

/-- A tile keeps its thread when another thread changes or a thread starts to run. -/
theorem occupied_setStatus {t : ℕ} (h : Occupied p m t)
    (hkeep : (status = .running ∨ status = .initializing) ∨ x.tile ≠ t) :
    Occupied p (m.setStatus x status) t := by
  obtain ⟨j, hj, hbusy⟩ := h
  refine ⟨j, hj, ?_⟩
  rw [Master.status_setStatus]
  by_cases hx : (⟨t, j⟩ : Slot) = x
  · rw [hx, update_self]
    exact hkeep.resolve_right fun htile ↦ htile (congrArg Slot.tile hx).symm
  · rw [update_of_ne hx]
    exact hbusy

/-- The tokens do not depend on the threads of tiles that do not wait. -/
theorem Tokens.threads (h : Tokens p σ)
    (hkeep : ∀ t, (σ.pending t).isSome = true → Occupied p σ.master t → Occupied p m t) :
    Tokens p { σ with master := m } :=
  ⟨h.server, h.count, h.pending, h.received, h.inbox, h.clock, h.inRange,
    fun t ht ↦ hkeep t ht (h.occupied t ht)⟩

/-- A thread is placed, starts or is resumed. -/
theorem Inv.busier (h : Inv p σ) (hbusy : status = .running ∨ status = .initializing) :
    Inv p (σ.setStatus x status) ∧ ∀ late, Releases p σ (σ.setStatus x status) late := by
  refine ⟨⟨h.tokens.threads fun t _ ht ↦ occupied_setStatus ht (.inl hbusy), fun t ht ↦ ?_⟩,
    fun late ↦ .refl rfl rfl⟩
  obtain ⟨u, hu, hclock, hocc⟩ := h.progress t ht
  exact ⟨u, hu, hclock, occupied_setStatus hocc (.inl hbusy)⟩

/-- A thread of a tile that does not wait stops running, and the server looks again. -/
theorem Inv.stops (h : Inv p σ) (hx : σ.pending x.tile = none)
    (hkeep : ∀ t, x.tile ≠ t → Occupied p σ.master t → Occupied p m t) :
    Outcome ({ σ with master := m }.signal p)
      (fun σ' ↦ Inv p σ' ∧ ∀ late, Releases p σ σ' late) Fault.IsThread := by
  have htokens : Tokens p { σ with master := m } := by
    refine h.tokens.threads fun t ht ↦ hkeep t fun heq ↦ ?_
    rw [← heq, hx] at ht
    cases ht
  refine htokens.signal.imp (fun σ' ⟨hinv, _, hreleases⟩ ↦ ⟨hinv, fun late ↦ ?_⟩)
  exact ⟨(hreleases late).inForce, (hreleases late).moves⟩

/-! ### The clients -/

theorem Inv.synchronize (h : Inv p σ) (htime : time + p.interval < 2 ^ 64) :
    Outcome (σ.synchronize p tile time) (fun σ' ↦ Inv p σ' ∧ ∀ late, Releases p σ σ' late)
      fun fault ↦ fault = .disabled ∨ fault.IsThread := by
  refine .require_bind (fun ⟨htile, hnone, hocc⟩ ↦ ?_) fun _ ↦ .inl rfl
  by_cases hsync : σ.nextSync tile ≤ time
  · rw [if_pos hsync]
    -- the other tiles keep their waits
    have hkeep {t time' : ℕ} (ht : σ.pending t = some time') :
        update σ.pending tile (some time) t = some time' := by
      rw [update_of_ne, ht]
      rintro rfl
      cases hnone.symm.trans ht
    refine ⟨⟨⟨h.tokens.server, fun t ↦ ?_, fun t ↦ ?_, h.tokens.received, fun t time' hmem ↦ ?_,
      fun t ht ↦ hkeep (h.tokens.clock t ht), fun t time' hmem ↦ ?_, fun t ht ↦ ?_⟩, h.progress⟩,
      fun late ↦ .refl rfl rfl⟩
    · have hcount := h.tokens.count t
      show update σ.waits tile (σ.waits tile + 1) t = σ.releases t +
        ((σ.inbox ++ [(tile, time)]).map Prod.fst).count t + (σ.server.acquired t).toNat
      rw [map_append, count_append]
      by_cases ht : t = tile
      · subst ht
        have hself : ([(t, time)].map Prod.fst).count t = 1 := count_singleton_self
        rw [update_self, hself]
        unfold queued at hcount
        omega
      · have hother : ([(tile, time)].map Prod.fst).count t = 0 :=
          count_eq_zero_of_not_mem fun hmem ↦ ht (mem_singleton.mp hmem)
        rw [update_of_ne ht, hother]
        exact hcount
    · have hpending := h.tokens.pending t
      show update σ.waits tile (σ.waits tile + 1) t =
        σ.received t + (update σ.pending tile (some time) t).isSome.toNat
      by_cases ht : t = tile
      · subst ht
        rw [hnone] at hpending
        rw [update_self, update_self, hpending]
        rfl
      · rw [update_of_ne ht, update_of_ne ht]
        exact hpending
    · rcases mem_append.mp hmem with hmem | hmem
      · exact hkeep (h.tokens.inbox t time' hmem)
      · cases mem_singleton.mp hmem
        exact update_self ..
    · rcases mem_append.mp hmem with hmem | hmem
      · exact h.tokens.inRange t time' hmem
      · cases mem_singleton.mp hmem
        exact ⟨htile, htime⟩
    · by_cases hself : t = tile
      · rw [hself]
        exact hocc
      · have ht' : (update σ.pending tile (some time) t).isSome = true := ht
        rw [update_of_ne hself] at ht'
        exact h.tokens.occupied t ht'
  · rw [if_neg hsync]
    exact ⟨h, fun late ↦ .refl rfl rfl⟩

theorem Inv.receive (h : Inv p σ) (tile : ℕ) :
    Outcome (σ.receive p tile) (fun σ' ↦ Inv p σ' ∧ ∀ late, Releases p σ σ' late)
      fun fault ↦ fault = .disabled ∨ fault.IsThread := by
  refine .fetch_bind (fun time hpending ↦ ?_) fun _ ↦ .inl rfl
  refine .require_bind (fun hreceived ↦ ?_) fun _ ↦ .inl rfl
  obtain ⟨hqueued, hfree⟩ := h.tokens.answered hreceived
  refine ⟨⟨⟨h.tokens.server, h.tokens.count, fun t ↦ ?_, fun t ↦ ?_, fun t time' hmem ↦ ?_,
    fun t ht ↦ ?_, h.tokens.inRange, fun t ht ↦ ?_⟩, h.progress⟩, fun late ↦ .refl rfl rfl⟩
  · have hold := h.tokens.pending t
    show σ.waits t = update σ.received tile (σ.received tile + 1) t +
      (update σ.pending tile none t).isSome.toNat
    by_cases ht : t = tile
    · subst ht
      rw [hpending] at hold
      rw [update_self, update_self, hold]
      rfl
    · rw [update_of_ne ht, update_of_ne ht]
      exact hold
  · show update σ.received tile (σ.received tile + 1) t ≤ σ.releases t
    by_cases ht : t = tile
    · subst ht
      rw [update_self]
      exact hreceived
    · rw [update_of_ne ht]
      exact h.tokens.received t
  · have ht : t ≠ tile := by
      rintro rfl
      exact (count_eq_zero.mp hqueued) (mem_map_of_mem hmem)
    exact (update_of_ne ht ..).trans (h.tokens.inbox t time' hmem)
  · have hne : t ≠ tile := by
      rintro rfl
      cases hfree.symm.trans ht
    exact (update_of_ne hne ..).trans (h.tokens.clock t ht)
  · have ht' : (update σ.pending tile none t).isSome = true := ht
    by_cases hself : t = tile
    · rw [hself, update_self] at ht'
      cases ht'
    · rw [update_of_ne hself] at ht'
      exact h.tokens.occupied t ht'

/-- A wait is taken from the inbox. -/
theorem queued_erase (hmem : (tile, time) ∈ σ.inbox) (t : ℕ) :
    σ.queued t = ((σ.inbox.erase (tile, time)).map Prod.fst).count t +
      if tile = t then 1 else 0 := by
  have hperm : (σ.inbox.map Prod.fst).Perm
      (tile :: (σ.inbox.erase (tile, time)).map Prod.fst) :=
    (perm_cons_erase hmem).map Prod.fst
  unfold queued
  rw [hperm.count_eq, count_cons]
  simp only [beq_iff_eq]

/-- The wait of a tile comes late and is answered at once. -/
theorem Inv.late (h : Inv p σ) (hmem : (tile, time) ∈ σ.inbox) :
    Inv p ({ σ with inbox := σ.inbox.erase (tile, time) }.answer (σ.server, [tile])) := by
  refine ⟨⟨h.tokens.server, fun t ↦ ?_, h.tokens.pending, fun t ↦ ?_, fun t time' hmem' ↦ ?_,
    h.tokens.clock, fun t time' hmem' ↦ ?_, h.tokens.occupied⟩, h.progress⟩
  · have hcount := h.tokens.count t
    have hqueued := queued_erase hmem t
    show σ.waits t = σ.releases t + [tile].count t +
      ((σ.inbox.erase (tile, time)).map Prod.fst).count t + (σ.server.acquired t).toNat
    have hone : [tile].count t = if tile = t then 1 else 0 := by
      rw [count_singleton]
      simp only [beq_iff_eq]
    omega
  · exact Nat.le_trans (h.tokens.received t) (Nat.le_add_right _ _)
  · exact h.tokens.inbox t time' (mem_of_mem_erase hmem')
  · exact h.tokens.inRange t time' (mem_of_mem_erase hmem')

/-- The wait of a tile that has reached the barrier time is held. -/
theorem Inv.hold (h : Inv p σ) (hmem : (tile, time) ∈ σ.inbox)
    (htime : σ.server.nextBarrierTime ≤ time) :
    Tokens p { σ with
      inbox := σ.inbox.erase (tile, time)
      server := σ.server.acquire tile time } := by
  obtain ⟨htile, hwrap⟩ := h.tokens.inRange tile time hmem
  have hqueued := queued_erase hmem tile
  rw [if_pos rfl] at hqueued
  -- the tile has one wait, which is in the inbox
  have hfree : σ.server.acquired tile = false := by
    have hcount := h.tokens.count tile
    have hpending := h.tokens.pending tile
    have hreceived := h.tokens.received tile
    have hle := Bool.toNat_le (σ.pending tile).isSome
    cases hacquired : σ.server.acquired tile with
    | false => rfl
    | true =>
      rw [hacquired] at hcount
      simp only [Bool.toNat_true] at hcount
      omega
  refine ⟨h.tokens.server.acquire htile htime hwrap, fun t ↦ ?_, h.tokens.pending, h.tokens.received,
    fun t time' hmem' ↦ h.tokens.inbox t time' (mem_of_mem_erase hmem'), fun t ht ↦ ?_,
    fun t time' hmem' ↦ h.tokens.inRange t time' (mem_of_mem_erase hmem'), h.tokens.occupied⟩
  swap
  · have ht' : update σ.server.acquired tile true t = true := ht
    show σ.pending t = some (update σ.server.localClock tile time t)
    by_cases hself : t = tile
    · rw [hself, update_self]
      exact h.tokens.inbox tile time hmem
    · rw [update_of_ne hself] at ht' ⊢
      exact h.tokens.clock t ht'
  have hcount := h.tokens.count t
  have hqueued' := queued_erase hmem t
  show σ.waits t = σ.releases t + ((σ.inbox.erase (tile, time)).map Prod.fst).count t +
    (update σ.server.acquired tile true t).toNat
  by_cases ht : t = tile
  · subst ht
    rw [hfree] at hcount
    rw [update_self]
    simp only [Bool.toNat_true, Bool.toNat_false] at hcount ⊢
    omega
  · rw [if_neg (Ne.symm ht)] at hqueued'
    rw [update_of_ne ht]
    omega

theorem Inv.barrierWait (h : Inv p σ) (tile time : ℕ) :
    Outcome (σ.barrierWait p tile time)
      (fun σ' ↦ Inv p σ' ∧
        Releases p σ σ' fun t ↦ t = tile ∧ time < σ.server.nextBarrierTime)
      fun fault ↦ fault = .disabled ∨ fault.IsThread := by
  refine .require_bind (fun hmem ↦ ?_) fun _ ↦ .inl rfl
  obtain ⟨htile, -⟩ := h.tokens.inRange tile time hmem
  unfold Server.barrierWait
  cases hcalled : isCoreRunning p σ.master tile with
  | error fault => exact .inr ((isCoreRunning_spec tile).of_eq_error hcalled)
  | ok running =>
    by_cases hlate : time < σ.server.nextBarrierTime
    · rw [if_pos hlate]
      refine ⟨h.late hmem, fun t ht ↦ .inl ⟨?_, hlate⟩, fun hmoves ↦ absurd rfl hmoves⟩
      have ht' : σ.releases t < σ.releases t + [tile].count t := ht
      have hpos : 0 < [tile].count t := Nat.lt_add_right_iff_pos.mp ht'
      exact mem_singleton.mp (count_pos_iff.mp hpos)
    · rw [if_neg hlate, require, if_pos htile]
      have hsignal := (h.hold hmem (Nat.not_lt.mp hlate)).signal
      refine hsignal.mono (fun σ' hσ' ↦ ?_) fun _ hf ↦ .inr hf
      obtain ⟨hinv, -, hreleases⟩ := hσ'
      have hround := hreleases fun t ↦ t = tile ∧ time < σ.server.nextBarrierTime
      exact ⟨hinv, hround.inForce, hround.moves⟩

/-! ### Whole runs -/

/-- The wait that the event hands to the server comes late: the barrier time is above it. -/
def IsLate (σ : System) (t : ℕ) : Event → Prop
  | .barrierWait tile time => t = tile ∧ time < σ.server.nextBarrierTime
  | _ => False

theorem Inv.event (h : Inv p σ) {e : Event} (hmeets : σ.Meets p e) :
    Outcome (σ.step p e) (fun σ' ↦ Inv p σ' ∧ Releases p σ σ' (σ.IsLate · e))
      fun fault ↦ fault = .disabled ∨ fault.IsThread := by
  cases e with
  | synchronize tile time =>
    exact (h.synchronize hmeets).imp (fun σ' ⟨hinv, hreleases⟩ ↦ ⟨hinv, hreleases _⟩)
  | barrierWait tile time => exact h.barrierWait tile time
  | receive tile =>
    exact (h.receive tile).imp (fun σ' ⟨hinv, hreleases⟩ ↦ ⟨hinv, hreleases _⟩)
  | place x =>
    refine .require_bind (fun _ ↦ ?_) fun _ ↦ .inl rfl
    exact (h.busier (.inr rfl)).imp_right fun hreleases ↦ hreleases _
  | start x | resume x =>
    refine .require_bind (fun _ ↦ ?_) fun _ ↦ .inl rfl
    exact (h.busier (.inl rfl)).imp_right fun hreleases ↦ hreleases _
  | stall x | exit x =>
    refine .require_bind (fun ⟨_, hfree⟩ ↦ ?_) fun _ ↦ .inl rfl
    refine (h.stops hfree fun t ht hocc ↦ ?_).mono
      (fun σ' ⟨hinv, hreleases⟩ ↦ ⟨hinv, hreleases _⟩) fun _ hf ↦ .inr hf
    exact occupied_setStatus hocc (.inr ht)

theorem Reached.inv (hσ : Reached p σ) : Inv p σ :=
  Machine.Reached.invariant hσ (inv_start p) fun _ _ _ hinv hmeets hstep ↦
    ((hinv.event hmeets).of_eq_ok hstep).1

/-- In every run whose times stay in range: each wait of a tile is in the inbox, held by the server
or answered by one release, and its client has one wait at most; the server holds the waits of the
tiles whose clock has reached the barrier time, and the clock of such a tile is the time of its
wait; while it holds one, a tile that is behind has a thread that can go on. A step that is possible
ends, and fails only on an assertion of the thread manager; a tile that it releases was late, or no
thread runs on a tile below the barrier time in force; the barrier time moves only with a release.
-/
theorem lax_barrier_releases (hσ : Reached p σ) :
    (∀ t, σ.waits t = σ.releases t + σ.queued t + (σ.server.acquired t).toNat ∧
      σ.received t ≤ σ.releases t ∧ σ.waits t = σ.received t + (σ.pending t).isSome.toNat) ∧
    (∀ t < p.applicationTiles,
      σ.server.acquired t = true ↔ σ.server.nextBarrierTime ≤ σ.server.localClock t) ∧
    (∀ t, σ.server.acquired t = true → σ.pending t = some (σ.server.localClock t)) ∧
    (∀ t, σ.server.acquired t = true → ∃ u < p.applicationTiles,
      σ.server.localClock u < σ.server.nextBarrierTime ∧ Occupied p σ.master u) ∧
    ∀ e, σ.Meets p e →
      (∀ fault, σ.step p e = .error fault → fault = .disabled ∨ fault.IsThread) ∧
      ∀ σ', σ.step p e = .ok σ' →
        (∀ t, σ.releases t < σ'.releases t → σ.IsLate t e ∨
          ∃ time, σ'.server.nextBarrierTime = time + p.interval ∧
            σ.server.nextBarrierTime ≤ time ∧
            ∀ u < p.applicationTiles, Runs p σ'.master u → time ≤ σ'.server.localClock u) ∧
        (σ'.server.nextBarrierTime ≠ σ.server.nextBarrierTime →
          ∃ t, σ.releases t < σ'.releases t) := by
  have hinv := hσ.inv
  refine ⟨fun t ↦ ⟨hinv.tokens.count t, hinv.tokens.received t, hinv.tokens.pending t⟩,
    fun t ht ↦ ?_, hinv.tokens.clock, hinv.progress,
    fun e hmeets ↦ ⟨fun fault hfault ↦ ?_, fun σ' hσ' ↦ ?_⟩⟩
  · rw [hinv.tokens.server.acquired_iff t]
    exact and_iff_right ht
  · exact (hinv.event hmeets).of_eq_error hfault
  · have hreleases := ((hinv.event hmeets).of_eq_ok hσ').2
    exact ⟨hreleases.inForce, hreleases.moves⟩

/-- Two application tiles with one thread each; the barrier is at every tenth cycle. -/
def twoTiles : Params where
  threads := ⟨2, 1, 1, .full, .roundRobin, fun _ ↦ 0⟩
  interval := 10
  interval_pos := by decide

/-- Tile 0 waits for tile 1, which runs; when tile 1 has come as far, both are released. -/
theorem lax_barrier_releases_both :
    ∃ σ σ', Reached twoTiles σ ∧ σ.step twoTiles (.barrierWait 1 10) = .ok σ' ∧
      σ.releases 0 = 0 ∧ σ'.releases 0 = 1 ∧
      ∃ time, σ'.server.nextBarrierTime = time + 10 ∧
        ∀ u < 2, Runs twoTiles σ'.master u → time ≤ σ'.server.localClock u := by
  have hrun : Reached twoTiles _ := Machine.Reached.start.exec
    [.place ⟨1, 0⟩, .start ⟨1, 0⟩, .synchronize 0 12, .barrierWait 0 12, .synchronize 1 10] rfl rfl
  refine ⟨_, _, hrun, rfl, rfl, rfl, ?_⟩
  obtain ⟨hreleased, -⟩ := ((lax_barrier_releases hrun).2.2.2.2 (.barrierWait 1 10) trivial).2 _ rfl
  obtain ⟨-, hlate⟩ | ⟨time, htime, -, hclock⟩ := hreleased 0 (by decide)
  · exact absurd hlate (by decide)
  · exact ⟨time, htime, hclock⟩

/-- Tile 0 has been released at time 12, and the barrier time is 20. The first wait of tile 1, at time
12, is answered at once, although the thread of tile 0 runs and its clock is below the barrier time. -/
theorem late_wait_released_at_once :
    ∃ σ σ', (machine twoTiles).exec (start twoTiles)
        [.synchronize 0 12, .barrierWait 0 12, .receive 0, .place ⟨1, 0⟩, .start ⟨1, 0⟩,
          .synchronize 1 12] = .ok σ ∧
      σ.step twoTiles (.barrierWait 1 12) = .ok σ' ∧ σ.releases 1 < σ'.releases 1 ∧
      σ'.server.nextBarrierTime = σ.server.nextBarrierTime ∧ Runs twoTiles σ'.master 0 ∧
      σ'.server.localClock 0 < σ'.server.nextBarrierTime :=
  ⟨_, _, rfl, rfl, by decide, rfl, ⟨0, by decide, rfl⟩, by decide⟩

end System

end CarbonSim.ClockSkew
