import CarbonSim.Lib.Runs
import CarbonSim.Msi.Coherence

/-!
# The times of misses

`ShmemPerfModel` keeps one clock for the application thread of a tile and one for the thread that
handles its messages. `MainCore::initiateMemoryAccess` sets the first one to its `initial_time`,
accesses the lines of its operand one after the other, and requires at its end that the clock is not
behind `initial_time`. While an access waits for a line its clock is set by the handler of the
reply, whose own clock is the time of a message. Clocks of different tiles have nothing to do with
each other, so the clock of the reply has to be carried along the request: through the queue of the
directory and whatever else the directory waits for.

The source counts cycles in 64 bits. Clocks are natural numbers here, which assumes that no clock of
a run and no time that a message carries reaches `2 ^ 64`: otherwise a sum wraps around, and the
order of two times is lost. -/

namespace CarbonSim.Msi

open Function List Directory Option Outcome

/-- The memory system with the clocks of the application threads: `_cycle_count[_APP_THREAD]`, the
`initial_time` of the `initiateMemoryAccess` under way, and the time at which the last miss was
issued. -/
structure Timed (A : Type) (N : ℕ) where
  sys : Sys A N
  clock : Fin N → ℕ
  initial : Fin N → Option ℕ
  issued : Fin N → ℕ

/-- What the application threads and the network may do. -/
inductive TimedEvent (A : Type) (N : ℕ)
  /-- `initiateMemoryAccess` starts; `time` is its argument or the cycle count of the core. -/
  | initiate (t : Fin N) (time : ℕ)
  | access (t : Fin N) (acc : Access A) (modeled : Bool)
  | retry (t : Fin N) (modeled : Bool)
  | deliver (src dst : Fin N)
  /-- The loop of `initiateMemoryAccess` has ended. -/
  | finish (t : Fin N)

/-- A check of the memory system, or the one at the end of `initiateMemoryAccess`. -/
inductive TimedFault
  | memory (e : Fault)
  | finalTime

namespace Timed

variable {A : Type} {N : ℕ}

/-- Before any access. -/
def start : Timed A N := ⟨.start, fun _ ↦ 0, fun _ ↦ none, fun _ ↦ 0⟩

variable [DecidableEq A] (cfg : Config A N) (env : Env A)

/-- What a round of the loop of `processMemOpFromTile` adds to the clock; `completed` is false if it
misses in the L2. -/
def attemptCost (tcfg : TileConfig A) (t : Tile A) (acc : Access A) (completed : Bool) : ℕ :=
  if acc.op.permissible (t.l1State tcfg acc.comp acc.address) then
    tcfg.l1Cost acc.comp .dataAndTags
  else if completed then
    tcfg.l1Cost acc.comp .tags + tcfg.l2Cost .dataAndTags + tcfg.l1Cost acc.comp .dataAndTags
  else
    tcfg.l1Cost acc.comp .tags + tcfg.l2Cost .tags

/-- The clocks after a round. -/
def attempted (x : Timed A N) (t : Fin N) (acc : Access A) (r : Sys A N × Obs A N) : Timed A N :=
  let completed := r.2.completed.isSome
  let time := x.clock t + attemptCost (cfg.tile t) (x.sys.tile t) acc completed
  { x with
    sys := r.1
    clock := update x.clock t time
    issued := if completed then x.issued else update x.issued t time }

/-- The clocks after a message: the end of `handleMsgFromDramDirectory` sets the one of the
application thread, to the time of the request if the miss is not modeled. -/
def delivered (x : Timed A N) (dst : Fin N) (p : Packet A N) (s : Sys A N) : Timed A N :=
  let now := if p.msg.modeled then p.time + env.delay else (x.sys.tile dst).outstandingTime
  { x with
    sys := s
    clock := if p.msg.type.isRep then
      update x.clock dst (now + (cfg.tile dst).l2Cost .dataAndTags) else x.clock }

/-- An event, if it is enabled. -/
def perform (x : Timed A N) (ev : TimedEvent A N) : Option (Except TimedFault (Timed A N)) :=
  match ev with
  | .initiate t time =>
    match (x.sys.tile t).app, x.initial t with
    | .idle, none => some (.ok { x with
        clock := update x.clock t time
        initial := update x.initial t (some time) })
    | _, _ => none
  | .access t acc modeled =>
    match x.initial t with
    | some _ => (x.sys.perform cfg env (.access t acc modeled (x.clock t))).map fun r ↦
        x.attempted cfg t acc <$> r.mapError .memory
    | none => none
  | .retry t modeled =>
    match (x.sys.tile t).app with
    | .filled acc _ => (x.sys.perform cfg env (.retry t modeled (x.clock t))).map fun r ↦
        x.attempted cfg t acc <$> r.mapError .memory
    | _ => none
  | .deliver src dst =>
    match x.sys.chan src dst with
    | p :: _ => (x.sys.perform cfg env (.deliver src dst)).map fun r ↦
        (fun y ↦ x.delivered cfg env dst p y.1) <$> r.mapError .memory
    | [] => none
  | .finish t =>
    match (x.sys.tile t).app, x.initial t with
    | .idle, some initial => some do
        require (initial ≤ x.clock t) .finalTime
        return { x with initial := update x.initial t none }
    | _, _ => none

/-- The tile that an event is of. -/
def actor : TimedEvent A N → Fin N
  | .initiate t _ => t
  | .access t _ _ => t
  | .retry t _ => t
  | .deliver _ dst => dst
  | .finish t => t

/-- An event in an environment; one that is not enabled ends the run without a fault. -/
def step (x : Timed A N) (i : Env A × TimedEvent A N) : Except (Option TimedFault) (Timed A N) :=
  match x.perform cfg i.1 i.2 with
  | some r => r.mapError some
  | none => .error none

def machine : Machine (Timed A N) (Env A × TimedEvent A N) (Option TimedFault) := ⟨start, step cfg⟩

/-- The environment is one of the tile that the event is of. -/
def Meets (_ : Timed A N) (i : Env A × TimedEvent A N) : Prop := i.1.Valid (cfg.tile (actor i.2))

/-- The states that runs reach, with any initial times and any delays of the network. -/
def Run (x : Timed A N) : Prop := (machine cfg).Reached (Meets cfg) x

/-! ### Steps of the memory system -/

variable {cfg env} {x x' : Timed A N} {s s' : Sys A N} {mem mem' : A → Block} {t : Tile A}
  {allowed : Fin N → A → L1Kind → Prop} {listed : Prop}

/-- The request of a round that misses carries the clock after the round. -/
theorem attempt_request (tcfg : TileConfig A) (self : Fin N) (t : Tile A) (way : L1Kind → ℕ)
    (acc : Access A) (n : ℕ) (modeled : Bool) (now : ℕ) :
    Yields (Tile.afterAttempt acc n <$> t.attempt tcfg self way acc modeled now)
      (fun r ↦ r.2.1 = none → r.2.2 = [⟨self, ⟨Tile.l1Request self acc modeled,
        now + attemptCost tcfg t acc false⟩⟩]) := by
  refine bind (m := fun r ↦ r.2.1 = none → r.2.2 = [⟨self, ⟨Tile.l1Request self acc modeled,
    now + attemptCost tcfg t acc false⟩⟩]) ?_ fun _ hr ↦ hr
  unfold Tile.attempt
  by_cases hperm : acc.op.permissible (t.l1State tcfg acc.comp acc.address) = true
  · rw [if_pos hperm]
    refine Yields.skip fun r ↦ ?_
    simp
  · have hcost : attemptCost tcfg t acc false
        = tcfg.l1Cost acc.comp .tags + tcfg.l2Cost .tags := by simp [attemptCost, hperm]
    rw [if_neg hperm, hcost, ← Nat.add_assoc]
    refine Yields.skip fun t₁ ↦ ?_
    refine Yields.skip fun r ↦ ?_
    dsimp only
    split_ifs with hmiss
    · exact fun _ ↦ rfl
    · refine .skip fun r ↦ ?_
      simp

/-- A message changes only the tile that handles it and the channels from it. -/
theorem handle_frame (s : Sys A N) (src dst : Fin N) (p : Packet A N) :
    Yields (s.handleMsgFromNetwork cfg env src dst p)
      (fun r ↦ (∀ u, u ≠ dst → r.1.tile u = s.tile u ∧ r.1.chan u = s.chan u) ∧
        ∃ more, r.1.chan dst dst = s.chan dst dst ++ more) := by
  have hpost (s₁ : Sys A N) (sends : List (Send A N)) (u : Fin N) (hu : u ≠ dst) :
      (s₁.post dst sends).chan u = s₁.chan u := update_of_ne hu _ _
  have hmore (s₁ : Sys A N) (sends : List (Send A N)) :
      ∃ more, (s₁.post dst sends).chan dst dst = s₁.chan dst dst ++ more :=
    ⟨Sys.packetsTo dst sends, by simp [Sys.post]⟩
  unfold Sys.handleMsgFromNetwork
  cases p.msg.route with
  | fromL1 comp =>
    refine .check fun _ ↦ ?_
    refine .skip fun r ↦ ?_
    exact ⟨fun u hu ↦ ⟨update_of_ne hu _ _, hpost _ _ u hu⟩, hmore _ _⟩
  | fromDirectory =>
    refine .skip fun r ↦ ?_
    exact ⟨fun u hu ↦ ⟨update_of_ne hu _ _, hpost _ _ u hu⟩, hmore _ _⟩
  | toDirectory =>
    refine .skip fun d ↦ ?_
    exact ⟨fun u hu ↦ ⟨rfl, hpost _ _ u hu⟩, hmore _ _⟩

/-- What a message does to the miss of the tile that handles it. -/
def MissAfter (t : Tile A) (p : Packet A N) (now : ℕ) (t' : Tile A) : Prop :=
  if p.fromL1 then t'.app = t.app ∧ t'.outstanding ≠ none ∧ t'.outstandingTime = now
  else if p.msg.type.isRep then
    t.outstanding ≠ none ∧ t'.outstanding = none ∧ ∀ acc n, t'.app ≠ .missed acc n
  else t'.app = t.app ∧ t'.outstanding = t.outstanding ∧ t'.outstandingTime = t.outstandingTime

variable {src dst : Fin N} {p : Packet A N} {rest : List (Packet A N)} {acc : Access A} {now : ℕ}
  {modeled : Bool} {more : List (Packet A N)} {y : Sys A N × Obs A N} {n : ℕ}

omit [DecidableEq A] in
theorem MissAfter.of_same {t' : Tile A} (hp : p.fromL1 = false) (hrep : p.msg.type.isRep = false)
    (happ : t'.app = t.app) (hout : t'.outstanding = t.outstanding)
    (htime : t'.outstandingTime = t.outstandingTime) : MissAfter t p now t' := by
  rw [MissAfter, hp, hrep]
  exact ⟨happ, hout, htime⟩

/-- A reply fills the tile that waits for it, and a request of the directory leaves the miss of the
tile alone. -/
theorem missAfter_fromDirectory (h : Coherent cfg allowed listed s mem)
    (hc : s.chan src dst = p :: rest) (henv : env.Valid (cfg.tile dst))
    (hroute : p.msg.route = .fromDirectory) :
    Outcome ((s.tile dst).handleMsgFromDramDirectory (cfg.tile dst) cfg.home dst env.l1Way env.l2Way
        src p.msg cfg.capacityModeled (p.time + env.delay))
      (fun r ↦ MissAfter (s.tile dst) p (p.time + env.delay) r.1) (· ≠ .outstandingTime) := by
  have hp : p.fromL1 = false := by simp [Packet.fromL1, hroute]
  have hshape := (h.wf src dst p (by simp [hc])).shape
  rw [hroute] at hshape
  have hreply {cstate : CState} (hst : cstate = .shared ∨ cstate = .modified)
      (hrep : p.msg.type.isRep = true) :
      Outcome ((s.tile dst).processRepFromDramDirectory (cfg.tile dst) cfg.home dst env.l1Way
          env.l2Way p.msg cstate cfg.capacityModeled (p.time + env.delay))
        (fun r ↦ MissAfter (s.tile dst) p (p.time + env.delay) r.1) (· ≠ .outstandingTime) := by
    refine ((h.tile dst).processRepFromDramDirectory henv.l1Way henv.l2Way hst).mono ?_ ?_
    · rintro r ⟨acc, n, data, evicted, -, -, hfill, -⟩
      rw [MissAfter, hp, hrep]
      exact ⟨by simp [hfill.outstanding], hfill.outstanding', by simp [hfill.app']⟩
    · intro e he
      rw [(h.repFault hc hroute hrep (Nat.le_add_right _ _) he).1]
      decide
  have hserve (hrep : p.msg.type.isRep = false) {a : A} {held : Option (CState × Block)}
      {t : Tile A} (ht : Tile.Served (cfg.tile dst) (allowed dst) (s.tile dst) a held t) :
      MissAfter (s.tile dst) p (p.time + env.delay) t :=
    .of_same hp hrep ht.app ht.outstanding ht.time
  unfold Tile.handleMsgFromDramDirectory
  cases ht : p.msg.type with
  | exRep => exact hreply (.inr rfl) (by simp [ht, MsgType.isRep])
  | shRep => exact hreply (.inl rfl) (by simp [ht, MsgType.isRep])
  | invReq =>
    refine (h.tile dst).processInvReqFromDramDirectory.mono ?_ fun e he ↦ by simp [he.1]
    exact fun r hr ↦ hserve (by simp [ht, MsgType.isRep]) hr.1
  | flushReq =>
    refine (h.tile dst).processFlushReqFromDramDirectory.mono ?_ fun e he ↦ by simp [he.1]
    exact fun r hr ↦ hserve (by simp [ht, MsgType.isRep]) hr.1
  | wbReq =>
    refine (h.tile dst).processWbReqFromDramDirectory.mono ?_ fun e he ↦ by simp [he.1]
    rintro r (⟨hr, -⟩ | ⟨d, time, -, -, hr, -⟩)
    all_goals exact hserve (by simp [ht, MsgType.isRep]) hr
  | _ => simp [ht] at hshape

/-- What a message does to the miss of its receiver; the time of a reply is not behind that of the
miss. -/
theorem missAfter_deliver (h : Coherent cfg allowed listed s mem)
    (hc : s.chan src dst = p :: rest) (henv : env.Valid (cfg.tile dst)) :
    Outcome ((s.setChan src dst rest).handleMsgFromNetwork cfg env src dst p)
      (fun r ↦ MissAfter (s.tile dst) p (p.time + env.delay) (r.1.tile dst))
      fun e ↦ p.msg.type.isRep = true → e ≠ .outstandingTime := by
  have hwf := h.wf src dst p (by simp [hc])
  have hset (s₁ : Sys A N) (t : Tile A) (sends : List (Send A N)) :
      ((s₁.setTile dst t).post dst sends).tile dst = t := update_self _ _ _
  unfold Sys.handleMsgFromNetwork
  cases hroute : p.msg.route with
  | fromL1 comp =>
    obtain ⟨rfl, acc, n, modeled, happ, hout, rfl, hmsg, -⟩ := h.ask hc hroute
    have hp : p.fromL1 = true := by simp [Packet.fromL1, hroute]
    refine .require_pos rfl ?_
    rw [hmsg]
    refine .bind_mono ((h.tile src).handleMsgFromL1Cache happ hout) (fun _ hf ↦ hf.elim) ?_
    rintro ⟨t, sends⟩ ⟨hreq, -⟩
    have hsome : t.outstanding = some (acc.address, acc.comp) := hreq.outstanding
    rw [pure_iff, hset, MissAfter, if_pos hp]
    exact ⟨hreq.app, by simp [hsome], hreq.time⟩
  | fromDirectory =>
    have hdir := missAfter_fromDirectory h hc henv hroute
    refine .bind_mono hdir (fun _ he _ ↦ he) ?_
    rintro ⟨t, sends⟩ ht
    rw [pure_iff, hset]
    exact ht
  | toDirectory =>
    have hp : p.fromL1 = false := by simp [Packet.fromL1, hroute]
    have hrep : p.msg.type.isRep = false := by
      have hshape := hwf.shape
      cases ht : p.msg.type <;> simp_all [MsgType.isRep]
    refine .bind_mono .unknown (fun _ _ ht ↦ absurd ht (by simp [hrep])) fun d _ ↦ ?_
    exact .of_same hp hrep rfl rfl rfl

/-! ### The invariant of the clocks -/

/-- The time of a miss is carried from the clock of the core to the request and from there to
`_outstanding_shmem_msg_time`; `loop` are the messages from the tile to itself. -/
structure CausalAt (t : Tile A) (loop : List (Packet A N)) (clock issued : ℕ)
    (initial : Option ℕ) : Prop where
  asked : ∀ p ∈ loop, p.fromL1 = true → issued ≤ p.time
  arrived : t.outstanding ≠ none → issued ≤ t.outstandingTime
  missed : ∀ acc n, t.app = .missed acc n → clock ≤ issued
  begun : ∀ i, initial = some i → i ≤ clock

/-- The times of all tiles. -/
def Causal (x : Timed A N) : Prop :=
  ∀ t, CausalAt (x.sys.tile t) (x.sys.chan t t) (x.clock t) (x.issued t) (x.initial t)

omit [DecidableEq A] in
theorem Causal.start : (start : Timed A N).Causal := fun _ ↦
  ⟨fun _ hp ↦ absurd hp (by simp [Timed.start, Sys.start]), fun ht ↦ absurd rfl ht,
    fun _ _ _ ↦ Nat.le_refl 0, fun _ h ↦ absurd h (by simp [Timed.start])⟩

/-- A tile that does not wait, or whose request has arrived, has no request to its L2 cache. -/
theorem no_request (h : Coherent cfg allowed listed s mem) {t : Fin N}
    (ht : (∀ acc n, (s.tile t).app ≠ .missed acc n) ∨ (s.tile t).outstanding ≠ none)
    (hp : p ∈ s.chan t t) : p.fromL1 = false := by
  have hasks := h.asks t
  have hnil : l1Asks s t = [] := by
    unfold AsksFor at hasks
    split at hasks
    · next acc n happ hout => exact absurd ht (by simp [happ, hout])
    · exact hasks
  by_contra hne
  have hmem : p.msg ∈ l1Asks s t :=
    mem_map.mpr ⟨p, mem_filter.mpr ⟨hp, by simpa using hne⟩, rfl⟩
  simp [hnil] at hmem

omit [DecidableEq A] in
/-- A core starts an access of its operand; its tile waits for nothing. -/
theorem Causal.initiate (hx : x.Causal) {t : Fin N} (happ : (x.sys.tile t).app = .idle) (time : ℕ) :
    Causal { x with
      clock := update x.clock t time
      initial := update x.initial t (some time) } := by
  intro u
  dsimp only
  by_cases hut : u = t
  · subst hut
    rw [update_self, update_self]
    exact ⟨(hx u).asked, (hx u).arrived, by simp [happ], fun i hi ↦ (some.inj hi).ge⟩
  · rw [update_of_ne hut, update_of_ne hut]
    exact hx u

omit [DecidableEq A] in
theorem Causal.finish (hx : x.Causal) (t : Fin N) :
    Causal { x with initial := update x.initial t none } := by
  intro u
  refine ⟨(hx u).asked, (hx u).arrived, (hx u).missed, fun i hi ↦ (hx u).begun i ?_⟩
  by_cases hut : u = t
  · simp [hut] at hi
  · simpa only [update_of_ne hut] using hi

/-- A round of the loop of a memory operation: a miss is issued at the time on the clock. -/
theorem Causal.attempted (hx : x.Causal) (h : Coherent cfg allowed listed x.sys mem)
    {t : Fin N} {r : Tile A × Option (List UInt8) × List (Send A N)}
    (happ : ∀ acc n, (x.sys.tile t).app ≠ .missed acc n)
    (hpost : Tile.RoundPost (cfg.tile t) (allowed t) t (x.sys.tile t) acc n modeled (x.clock t) r)
    (hreq : r.2.1 = none → r.2.2 = [⟨t, ⟨Tile.l1Request t acc modeled,
      x.clock t + attemptCost (cfg.tile t) (x.sys.tile t) acc false⟩⟩]) :
    (x.attempted cfg t acc (x.sys.finish t acc r)).Causal := by
  have hdone : (x.sys.finish t acc r).2.completed.isSome = r.2.1.isSome := by simp [Sys.finish]
  intro u
  unfold Timed.attempted
  dsimp only
  rw [hdone]
  by_cases hut : u = t
  · subst hut
    have htile : (x.sys.finish u acc r).1.tile u = r.1 := update_self _ _ _
    have hchan : (x.sys.finish u acc r).1.chan u u = x.sys.chan u u ++ Sys.packetsTo u r.2.2 := by
      simp [Sys.finish, Sys.post, Sys.setTile]
    rw [htile, hchan, update_self]
    have hinit (cost i : ℕ) (hi : x.initial u = some i) : i ≤ x.clock u + cost :=
      ((hx u).begun i hi).trans (Nat.le_add_right _ _)
    cases hb : r.2.1 with
    | some bytes =>
      obtain ⟨happ', hsends, -⟩ := hpost.hit bytes hb
      rw [hsends]
      refine ⟨fun p hp hl1 ↦ ?_, fun ho ↦ absurd hpost.outstanding ho, by simp [happ'], hinit _⟩
      simp [no_request h (.inl happ) (by simpa [Sys.packetsTo] using hp)] at hl1
    | none =>
      rw [hreq hb]
      refine ⟨fun p hp hl1 ↦ ?_, fun ho ↦ absurd hpost.outstanding ho, by simp, hinit _⟩
      rcases mem_append.mp hp with hold | hnew
      · simp [no_request h (.inl happ) hold] at hl1
      · obtain rfl : p = _ := by simpa [Sys.packetsTo] using hnew
        simp
  · have htile : (x.sys.finish t acc r).1.tile u = x.sys.tile u := update_of_ne hut _ _
    have hchan : (x.sys.finish t acc r).1.chan u = x.sys.chan u := update_of_ne hut _ _
    have hissued (time : ℕ) : (if r.2.1.isSome then x.issued else
        update x.issued t time) u = x.issued u := by
      split_ifs
      · rfl
      · exact update_of_ne hut _ _
    rw [htile, hchan, update_of_ne hut, hissued]
    exact hx u

omit [DecidableEq A] in
/-- The requests to the L2 cache of a tile whose request has not arrived. -/
theorem asks_length (h : AsksFor dst t (l1Asks s dst)) (happ : t.app = .missed acc n)
    (hout : t.outstanding = none) : (l1Asks s dst).length = 1 := by
  unfold AsksFor at h
  rw [happ, hout] at h
  obtain ⟨modeled, hmsgs⟩ := h
  rw [hmsgs]
  rfl

/-- A message puts no request to the L2 cache into the network. -/
theorem mem_of_fromL1 (h : Coherent cfg allowed listed s mem)
    (h' : Coherent cfg allowed listed s' mem') (hc : s.chan src dst = p :: rest)
    (htile : MissAfter (s.tile dst) p now (s'.tile dst))
    (hmore : s'.chan dst dst = (s.setChan src dst rest).chan dst dst ++ more) {q : Packet A N}
    (hq : q ∈ s'.chan dst dst) (hl1 : q.fromL1 = true) : q ∈ s.chan dst dst := by
  obtain ⟨⟨acc, n, happ⟩, hout⟩ :
      (∃ acc n, (s'.tile dst).app = .missed acc n) ∧ (s'.tile dst).outstanding = none := by
    by_contra hno
    rw [Classical.not_and_iff_not_or_not] at hno
    have hnone := no_request h' (hno.imp_left fun hn acc n happ ↦ hn ⟨acc, n, happ⟩) hq
    simp [hnone] at hl1
  have hsub : (s.setChan src dst rest).chan dst dst ⊆ s.chan dst dst := by
    rw [chan_setChan]
    split_ifs with hd
    · rw [hd.1] at hc ⊢
      exact hc ▸ subset_cons_self _ _
    · exact .refl _
  unfold MissAfter at htile
  split_ifs at htile with hp hrep
  · exact absurd hout htile.2.1
  · exact absurd happ (htile.2.2 acc n)
  · -- the request was there before, and there is only one
    obtain ⟨happ', hout', -⟩ := htile
    have hone := asks_length (h.asks dst) (happ'.symm.trans happ) (hout'.symm.trans hout)
    have hone' := asks_length (h'.asks dst) happ hout
    rw [← l1Asks_setChan hc (by simpa using hp)] at hone
    have hnil : more.filter Packet.fromL1 = [] := by
      unfold l1Asks at hone hone'
      rw [hmore, filter_append, map_append, length_append, hone] at hone'
      simpa using hone'
    rw [hmore] at hq
    rcases mem_append.mp hq with hold | hnew
    · exact hsub hold
    · have hmem := mem_filter.mpr ⟨hnew, hl1⟩
      simp [hnil] at hmem

omit [DecidableEq A] in
/-- A request to the L2 cache stays in its tile and is no reply. -/
theorem request_ends {home : A → Fin N} (hwf : p.msg.WF home src dst) (hl1 : p.fromL1 = true) :
    src = dst ∧ p.msg.type.isRep = false := by
  have hshape := hwf.shape
  have hends := hwf.ends
  unfold Packet.fromL1 at hl1
  cases hroute : p.msg.route with
  | fromL1 comp =>
    rw [hroute] at hshape hends
    refine ⟨hends, ?_⟩
    cases ht : p.msg.type <;> simp_all [MsgType.isRep]
  | toDirectory | fromDirectory => simp [hroute] at hl1

/-- A message is handled: a request of the tile itself sets `_outstanding_shmem_msg_time`, and a
reply sets the clock of the core to a later time. -/
theorem Causal.delivered (hx : x.Causal) (h : Coherent cfg allowed listed x.sys mem)
    (h' : Coherent cfg allowed listed s' mem') (hc : x.sys.chan src dst = p :: rest)
    (htile : MissAfter (x.sys.tile dst) p (p.time + env.delay) (s'.tile dst))
    (hframe : ∀ u, u ≠ dst → s'.tile u = x.sys.tile u ∧
      s'.chan u = (x.sys.setChan src dst rest).chan u)
    (hmore : s'.chan dst dst = (x.sys.setChan src dst rest).chan dst dst ++ more) :
    (x.delivered cfg env dst p s').Causal := by
  have hp : p ∈ x.sys.chan src dst := by simp [hc]
  intro u
  unfold Timed.delivered
  dsimp only
  by_cases hu : u = dst
  · subst hu
    have hasked (q : Packet A N) (hq : q ∈ s'.chan u u) (hl1 : q.fromL1 = true) :
        x.issued u ≤ q.time := (hx u).asked q (mem_of_fromL1 h h' hc htile hmore hq hl1) hl1
    unfold MissAfter at htile
    by_cases hl1 : p.fromL1 = true
    · rw [if_pos hl1] at htile
      obtain ⟨happ', -, htime'⟩ := htile
      obtain ⟨rfl, hrep⟩ := request_ends (h.wf src u p hp) hl1
      rw [hrep]
      refine ⟨hasked, fun _ ↦ ?_, fun acc n ha ↦ (hx src).missed acc n (happ'.symm.trans ha),
        (hx src).begun⟩
      rw [htime']
      exact ((hx src).asked p hp hl1).trans (Nat.le_add_right _ _)
    rw [if_neg hl1] at htile
    by_cases hrep : p.msg.type.isRep = true
    · rw [if_pos hrep] at htile
      obtain ⟨hout, hout', happ'⟩ := htile
      rw [if_pos hrep, update_self]
      refine ⟨hasked, fun ho ↦ absurd hout' ho, fun acc n ha ↦ absurd ha (happ' acc n),
        fun i hi ↦ ?_⟩
      obtain ⟨acc, n, happ⟩ : ∃ acc n, (x.sys.tile u).app = .missed acc n := by
        by_contra hno
        push Not at hno
        exact hout ((h.tile u).outstanding hno)
      have hreply : (x.sys.tile u).outstandingTime ≤ p.time := (h.timely u).reply src p hp hrep
      calc i ≤ x.clock u := (hx u).begun i hi
        _ ≤ x.issued u := (hx u).missed acc n happ
        _ ≤ (x.sys.tile u).outstandingTime := (hx u).arrived hout
        _ ≤ _ := by split_ifs <;> omega
    · rw [if_neg hrep] at htile
      obtain ⟨happ', hout', htime'⟩ := htile
      rw [if_neg hrep]
      refine ⟨hasked, fun ho ↦ ?_, fun acc n ha ↦ (hx u).missed acc n (happ'.symm.trans ha),
        (hx u).begun⟩
      rw [htime']
      exact (hx u).arrived (hout' ▸ ho)
  · obtain ⟨htile', hchan⟩ := hframe u hu
    have hloop : s'.chan u u = x.sys.chan u u := by
      rw [hchan, chan_setChan, if_neg fun hd ↦ hu hd.2]
    have hclock (time : ℕ) : (if p.msg.type.isRep then update x.clock dst time
        else x.clock) u = x.clock u := by
      split_ifs
      · exact update_of_ne hu _ _
      · rfl
    rw [htile', hloop, hclock]
    exact hx u

/-! ### Runs -/

/-- The delivery of a message. -/
theorem perform_deliver {r : Except Fault (Sys A N × Obs A N)} (hc : s.chan src dst = p :: rest)
    (h : s.perform cfg env (.deliver src dst) = some r) :
    (fun y ↦ (y.1, ⟨some (src, dst, p.msg), y.2.map fun z ↦ (dst, z), none⟩)) <$>
      (s.setChan src dst rest).handleMsgFromNetwork cfg env src dst p = r := by
  simp only [Sys.perform, hc] at h
  split at h
  · next q rest' hq =>
    obtain ⟨rfl, rfl⟩ := List.cons.inj hq
    exact some.inj h
  · cases h

/-- A round of the loop of a memory operation, as a step of the memory system. -/
structure Round (cfg : Config A N) (env : Env A) (s : Sys A N) (act : Action A N) (t : Fin N)
    (acc : Access A) (n : ℕ) (modeled : Bool) (now : ℕ)
    (r : Tile A × Option (List UInt8) × List (Send A N)) : Prop where
  actor : Sys.actor act = t
  app : ∀ acc n, (s.tile t).app ≠ .missed acc n
  attempt : Tile.afterAttempt acc n <$>
    (s.tile t).attempt (cfg.tile t) t env.l1Way acc modeled now = .ok r
  perform : s.perform cfg env act = some (.ok (s.finish t acc r))

theorem Round.of_access {t : Fin N}
    (h : s.perform cfg env (.access t acc modeled now) = some (.ok y)) :
    ∃ r, Round cfg env s (.access t acc modeled now) t acc 1 modeled now r ∧
      s.finish t acc r = y := by
  have hperform := h
  dsimp only [Sys.perform] at h
  split at h
  · next happ =>
    obtain ⟨r, hr, rfl⟩ := map_eq_ok (some.inj h)
    exact ⟨r, ⟨rfl, by simp [happ], hr, hperform⟩, rfl⟩
  · cases h

theorem Round.of_retry {t : Fin N} (happ : (s.tile t).app = .filled acc n)
    (h : s.perform cfg env (.retry t modeled now) = some (.ok y)) :
    ∃ r, Round cfg env s (.retry t modeled now) t acc (n + 1) modeled now r ∧
      s.finish t acc r = y := by
  have hperform := h
  dsimp only [Sys.perform] at h
  rw [happ] at h
  obtain ⟨r, hr, rfl⟩ := map_eq_ok (some.inj h)
  exact ⟨r, ⟨rfl, by simp [happ], (require_bind_eq_ok.mp hr).2, hperform⟩, rfl⟩

/-- What an event can do. -/
theorem perform_cases {ev : TimedEvent A N} (h : x.perform cfg env ev = some (.ok x')) :
    (∃ t time, (x.sys.tile t).app = .idle ∧ x' = { x with
      clock := update x.clock t time
      initial := update x.initial t (some time) }) ∨
    (∃ t, x' = { x with initial := update x.initial t none }) ∨
    (∃ act acc n modeled r, Round cfg env x.sys act (actor ev) acc n modeled (x.clock (actor ev)) r ∧
      x' = x.attempted cfg (actor ev) acc (x.sys.finish (actor ev) acc r)) ∨
    ∃ src p rest y o, x.sys.chan src (actor ev) = p :: rest ∧
      (x.sys.setChan src (actor ev) rest).handleMsgFromNetwork cfg env src (actor ev) p = .ok y ∧
      x.sys.perform cfg env (.deliver src (actor ev)) = some (.ok (y.1, o)) ∧
      x' = x.delivered cfg env (actor ev) p y.1 := by
  cases ev with
  | initiate t time =>
    dsimp only [Timed.perform] at h
    split at h
    · next happ _ =>
      exact .inl ⟨t, time, happ, (Except.ok.inj (some.inj h)).symm⟩
    · cases h
  | access t acc modeled =>
    dsimp only [Timed.perform] at h
    split at h
    · obtain ⟨z, hz, hmap⟩ := map_eq_some_iff.mp h
      obtain ⟨y, hy, rfl⟩ := map_eq_ok hmap
      obtain ⟨r, hr, rfl⟩ := Round.of_access (hz.trans (congrArg some (mapError_eq_ok hy)))
      exact .inr (.inr (.inl ⟨_, acc, 1, modeled, r, hr, rfl⟩))
    · cases h
  | retry t modeled =>
    dsimp only [Timed.perform] at h
    split at h
    · next acc n happ =>
      obtain ⟨z, hz, hmap⟩ := map_eq_some_iff.mp h
      obtain ⟨y, hy, rfl⟩ := map_eq_ok hmap
      obtain ⟨r, hr, rfl⟩ := Round.of_retry happ (hz.trans (congrArg some (mapError_eq_ok hy)))
      exact .inr (.inr (.inl ⟨_, acc, n + 1, modeled, r, hr, rfl⟩))
    · cases h
  | deliver src dst =>
    dsimp only [Timed.perform] at h
    split at h
    · next p rest hc =>
      obtain ⟨z, hz, hmap⟩ := map_eq_some_iff.mp h
      obtain ⟨y, hy, rfl⟩ := map_eq_ok hmap
      obtain rfl := mapError_eq_ok hy
      obtain ⟨w, hw, rfl⟩ := map_eq_ok (perform_deliver hc hz)
      exact .inr (.inr (.inr ⟨src, p, rest, w, _, hc, hw, hz, rfl⟩))
    · cases h
  | finish t =>
    dsimp only [Timed.perform] at h
    split at h
    · obtain ⟨-, hx⟩ := require_bind_eq_ok.mp (some.inj h)
      exact .inr (.inl ⟨t, (Except.ok.inj hx).symm⟩)
    · cases h

/-- Without the clocks an event is a step of the memory system, or nothing happens there. -/
theorem step_sys {ev : TimedEvent A N} (henv : env.Valid (cfg.tile (actor ev)))
    (hstep : x.perform cfg env ev = some (.ok x')) :
    x'.sys = x.sys ∨ ∃ o, x.sys.Step cfg (fun _ _ _ ↦ True) o x'.sys := by
  have hpermits (act : Action A N) : Sys.Permits (fun _ _ _ ↦ True) act := by cases act <;> trivial
  rcases perform_cases hstep with ⟨t, time, -, rfl⟩ | ⟨t, rfl⟩ | ⟨act, acc, n, modeled, r, hr, rfl⟩ |
    ⟨src, p, rest, y, o, -, -, hperform, rfl⟩
  · exact .inl rfl
  · exact .inl rfl
  · exact .inr ⟨_, env, act, hpermits act, hr.actor ▸ henv, hr.perform⟩
  · exact .inr ⟨o, env, .deliver src (actor ev), hpermits _, henv, hperform⟩

theorem perform_of_step {i : Env A × TimedEvent A N} (h : x.step cfg i = .ok x') :
    x.perform cfg i.1 i.2 = some (.ok x') := by
  unfold Timed.step at h
  split at h
  · next r hr => rw [hr, mapError_eq_ok h]
  · cases h

/-- Without the clocks a run is a run of the memory system. -/
theorem Run.sys (h : Run cfg x) : ∃ trace mem, Sys.Run cfg (fun _ _ _ ↦ True) trace x.sys mem := by
  induction h with
  | start => exact ⟨_, _, .start⟩
  | step _ henv hstep ih =>
    obtain ⟨trace, mem, hrun⟩ := ih
    rcases step_sys henv (perform_of_step hstep) with hsame | ⟨o, ho⟩
    · exact ⟨trace, mem, hsame ▸ hrun⟩
    · exact ⟨_, _, hrun.step ho⟩

theorem Run.good (hscheme : cfg.scheme ≠ .limitedBroadcast) (h : Run cfg x) :
    ∃ mem, Coherent cfg (fun _ _ _ ↦ True) False x.sys mem := by
  obtain ⟨trace, mem, hrun⟩ := h.sys
  exact ⟨mem, Good.run (Config.supported_unlisted hscheme) hrun⟩

/-- The invariant of the clocks holds along every run. -/
theorem Run.causal (hscheme : cfg.scheme ≠ .limitedBroadcast) (h : Run cfg x) : x.Causal := by
  induction h with
  | start => exact .start
  | @step x x' i hrun henv hstep ih =>
    obtain ⟨env, ev⟩ := i
    obtain ⟨mem, hgood⟩ := Run.good hscheme hrun
    obtain ⟨mem', hgood'⟩ := Run.good hscheme (hrun.step henv hstep)
    rcases perform_cases (perform_of_step hstep) with ⟨t, time, happ, rfl⟩ | ⟨t, rfl⟩ |
      ⟨act, acc, n, modeled, r, hr, rfl⟩ | ⟨src, p, rest, y, o, hc, hy, -, rfl⟩
    · exact ih.initiate happ time
    · exact ih.finish t
    · have hpost := ((hgood.tile (actor ev)).round hr.app henv.l1Way trivial).of_eq_ok hr.attempt
      exact ih.attempted hgood hr.app hpost
        ((attempt_request _ _ _ _ acc n modeled _).of_eq_ok hr.attempt)
    · obtain ⟨hframe, more, hmore⟩ := (handle_frame _ src (actor ev) p).of_eq_ok hy
      exact ih.delivered hgood hgood' hc ((missAfter_deliver hgood hc henv).of_eq_ok hy) hframe hmore

/-- The tile that a reply is for waits for the line of the reply. -/
theorem reply_waiting (h : Coherent cfg allowed listed s mem)
    (hp : p ∈ s.chan src dst) (hrep : p.msg.type.isRep = true) :
    ∃ acc n, (s.tile dst).app = .missed acc n ∧ acc.address = p.msg.address ∧
      (s.tile dst).outstanding ≠ none := by
  obtain ⟨hends, m, hdown, hm⟩ := downMsg_of_isRep (h.wf src dst p hp) hrep
  obtain ⟨L, hv, hL, -⟩ := h.line p.msg.address
  have hmem : m ∈ downs cfg s p.msg.address dst :=
    mem_filterMap.mpr ⟨p, hends ▸ hp, hdown⟩
  obtain ⟨acc, n, happ, ha, hout, -⟩ := hv.waiting hL (h.tile dst) hmem hm
  exact ⟨acc, n, happ, ha, by simp [hout]⟩

/-- In every run, whatever the initial times of the cores and the delays of the network, a tile
handles the reply to its miss no earlier than it has issued the miss, so neither the check of
`_outstanding_shmem_msg_time` nor the one of `final_time` fails. -/
theorem miss_times_causal (hscheme : cfg.scheme ≠ .limitedBroadcast) (hrun : Run cfg x) :
    (∀ env src dst p rest, env.Valid (cfg.tile dst) → x.sys.chan src dst = p :: rest →
      p.msg.type.isRep = true →
        (∃ acc n, (x.sys.tile dst).app = .missed acc n ∧ acc.address = p.msg.address) ∧
        x.issued dst ≤ p.time + env.delay ∧
        x.perform cfg env (.deliver src dst) ≠ some (.error (.memory .outstandingTime))) ∧
      ∀ env t, x.perform cfg env (.finish t) ≠ some (.error .finalTime) := by
  obtain ⟨mem, hgood⟩ := hrun.good hscheme
  have hcausal := hrun.causal hscheme
  constructor
  · intro env src dst p rest henv hc hrep
    have hp : p ∈ x.sys.chan src dst := by simp [hc]
    obtain ⟨acc, n, happ, ha, hout⟩ := reply_waiting hgood hp hrep
    refine ⟨⟨acc, n, happ, ha⟩, ?_, fun hfail ↦ ?_⟩
    · calc x.issued dst ≤ (x.sys.tile dst).outstandingTime := (hcausal dst).arrived hout
        _ ≤ p.time := (hgood.timely dst).reply src p hp hrep
        _ ≤ p.time + env.delay := Nat.le_add_right _ _
    · simp only [Timed.perform, hc] at hfail
      obtain ⟨z, hz, hmap⟩ := map_eq_some_iff.mp hfail
      obtain ⟨e, rfl, he⟩ := mapError_eq_error (map_eq_error hmap)
      obtain rfl : e = .outstandingTime := TimedFault.memory.inj he
      exact (missAfter_deliver hgood hc henv).of_eq_error
        (map_eq_error (perform_deliver hc hz)) hrep rfl
  · intro env t hfail
    dsimp only [Timed.perform] at hfail
    split at hfail
    · next initial _ hinitial =>
      rw [require, if_pos ((hcausal t).begun initial hinitial)] at hfail
      cases hfail
    · cases hfail

/-- Tile 1 issues a miss at time 102; the clock of its home has not moved. -/
def lateMiss {N : ℕ} [NeZero N] : List (Env Unit × TimedEvent Unit N) :=
  [.initiate 1 100, .access 1 ⟨.dcache, .read 1, (), 0⟩ true, .deliver 1 1, .deliver 1 0].map
    (oneWay, ·)

theorem miss_times_causal_lateMiss : ∃ (x : Timed Unit 2) (p : Packet Unit 2),
    Run (oneLine 2 .ackwise) x ∧ x.sys.chan 0 1 = [p] ∧ p.msg.type = .shRep ∧ x.clock 0 = 0 ∧
      x.issued 1 = 102 ∧ x.issued 1 ≤ p.time + 1 := by
  have hmeets : ∀ i ∈ lateMiss, ∀ x, Meets (oneLine 2 .ackwise) x i := by
    intro i hi x
    obtain ⟨ev, -, rfl⟩ := mem_map.mp hi
    exact oneWay_valid 2 .ackwise _
  have hrun : Run (oneLine 2 .ackwise) _ :=
    Machine.Reached.start.exec_of_forall lateMiss hmeets rfl
  exact ⟨_, _, hrun, rfl, rfl, rfl, rfl,
    ((miss_times_causal (by decide) hrun).1 oneWay 0 1 _ [] (oneWay_valid 2 .ackwise 1) rfl rfl).2.1⟩

end Timed

end CarbonSim.Msi
