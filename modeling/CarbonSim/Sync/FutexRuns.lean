import CarbonSim.Sync.Futex

/-!
# Runs of the futex calls

The cores store to memory and send futex requests, in any order and with any interleaving of the
stores with the accesses of the server; a core that sleeps does neither. Along every such run each
sleeper is in one queue, and a request wakes, moves or puts to sleep exactly whom it should.
-/

namespace CarbonSim.Futex

open List Function

open WaitQueues (Apart Asleep push pop move pop_self pop_of_ne pop_zero move_source move_target
  move_of_ne asleep_push)

/-- What happens in a step. -/
inductive Action (Core Addr : Type)
  | store (addr : Addr) (value : Word)
  | request (core : Core) (time : ℕ) (meanwhile : List (Addr × Word)) (req : Request Addr)

/-- A step with the messages that the server sends in it. -/
structure Event (Core Addr : Type) where
  before : Server Core Addr
  action : Action Core Addr
  replies : List (Core × Reply)
  after : Server Core Addr

variable {Core Addr : Type} [DecidableEq Core] [DecidableEq Addr] {s s' : Server Core Addr}
  {meanwhile : List (Addr × Word)} {trace : List (Event Core Addr)} {e : Event Core Addr} {time : ℕ}
  {core : Core} {req : Request Addr} {replies : List (Core × Reply)}

/-- No core sleeps; the memory is arbitrary. -/
def Server.start (memory : Addr → Word) : Server Core Addr :=
  ⟨fun _ ↦ [], memory, ⟨fun _ ↦ .running, fun _ ↦ false⟩⟩

/-- Runs, the first step first. -/
inductive Run : Server Core Addr → List (Event Core Addr) → Server Core Addr → Prop
  | nil {s : Server Core Addr} : Run s [] s
  | store {s last : Server Core Addr} {rest : List (Event Core Addr)} (addr : Addr) (value : Word)
      (hrest : Run (s.stores [(addr, value)]) rest last) :
      Run s (⟨s, .store addr value, [], s.stores [(addr, value)]⟩ :: rest) last
  | request {s mid last : Server Core Addr} {rest : List (Event Core Addr)} {core : Core} {time : ℕ}
      {meanwhile : List (Addr × Word)} {req : Request Addr} {replies : List (Core × Reply)}
      (hawake : ¬ Asleep s.futexes core) (hreq : req.Distinct)
      (hstep : s.handle core time meanwhile req = .ok (replies, mid)) (hrest : Run mid rest last) :
      Run s (⟨s, .request core time meanwhile req, replies, mid⟩ :: rest) last

namespace Event

/-- A request that was served as it should be, from a state in which each sleeper is in one queue. -/
structure Served (e : Event Core Addr) : Prop where
  inv : e.before.Inv
  inv' : e.after.Inv
  store : ∀ addr value, e.action = .store addr value →
    e.after.memory = update e.before.memory addr value
  serve : ∀ core time meanwhile req, e.action = .request core time meanwhile req →
    ¬ Asleep e.before.futexes core ∧ req.Distinct ∧
      e.before.lot.serve core time meanwhile req = .ok (e.replies, e.after.lot)

end Event

omit [DecidableEq Core] [DecidableEq Addr] in
theorem Server.start_inv (memory : Addr → Word) : (start memory : Server Core Addr).Inv where
  apart := ⟨fun _ ↦ nodup_nil, fun h ↦ nomatch h⟩
  asleep := by
    rintro c ⟨addr, hc⟩
    cases hc
  awake := fun _ ↦ rfl

/-- A handler that returns has done what the request should do. -/
theorem Server.Inv.serve_of_handle (h : s.Inv) (hawake : ¬ Asleep s.futexes core)
    (hreq : req.Parted) (hstep : s.handle core time meanwhile req = .ok (replies, s')) :
    s.lot.serve core time meanwhile req = .ok (replies, s'.lot) ∧ s'.Inv := by
  have hrefines := h.handle meanwhile time hawake hreq
  cases hserve : s.lot.serve core time meanwhile req with
  | error e =>
    rw [hserve, hstep] at hrefines
    cases hrefines
  | ok r =>
    rw [hserve, hstep] at hrefines
    obtain ⟨t, heq, hinv⟩ := hrefines
    obtain ⟨rfl, rfl⟩ : replies = r.1 ∧ s' = Server.ofLot r.2 t := by
      simpa using heq
    exact ⟨rfl, hinv⟩

theorem Run.served (hrun : Run s trace s') (h : s.Inv) : s'.Inv ∧ ∀ e ∈ trace, e.Served := by
  induction hrun with
  | nil => exact ⟨h, by simp⟩
  | store addr value _ ih =>
    have hinv := h.stores [(addr, value)]
    obtain ⟨hlast, hserved⟩ := ih hinv
    refine ⟨hlast, fun e he ↦ ?_⟩
    rcases mem_cons.mp he with rfl | he
    · refine ⟨h, hinv, ?_, nofun⟩
      rintro addr value ⟨⟩
      rfl
    · exact hserved e he
  | request hawake hreq hstep _ ih =>
    obtain ⟨hserve, hinv⟩ := h.serve_of_handle hawake hreq.parted hstep
    obtain ⟨hlast, hserved⟩ := ih hinv
    refine ⟨hlast, fun e he ↦ ?_⟩
    rcases mem_cons.mp he with rfl | he
    · refine ⟨h, hinv, nofun, ?_⟩
      rintro core time meanwhile req ⟨⟩
      exact ⟨hawake, hreq, hserve⟩
    · exact hserved e he

/-! ### The words of memory -/

omit [DecidableEq Core] in
theorem getLastD_append (l l' : List Word) (w : Word) :
    (l ++ l').getLastD w = l'.getLastD (l.getLastD w) := by
  induction l generalizing w with
  | nil => rfl
  | cons x l ih => rw [cons_append, getLastD_cons, getLastD_cons, ih]

omit [DecidableEq Core] in
/-- After some stores a word has the last value stored to it. -/
theorem storeAll_apply (memory : Addr → Word) (stores : List (Addr × Word)) (addr : Addr) :
    storeAll memory stores addr =
      ((stores.filter fun x ↦ x.1 = addr).map Prod.snd).getLastD (memory addr) := by
  induction stores generalizing memory with
  | nil => rfl
  | cons x rest ih =>
    obtain ⟨addr', value⟩ := x
    rw [storeAll, ih]
    by_cases heq : addr' = addr
    · subst heq
      rw [filter_cons_of_pos (by simp), map_cons, getLastD_cons,
        update_self]
    · rw [filter_cons_of_neg (by simpa using heq), update_of_ne (Ne.symm heq)]

/-- The store of a request itself. -/
def Request.own (req : Request Addr) (memory : Addr → Word) : List (Addr × Word) :=
  match req with
  | .wakeOp _ _ _ addr2 val3 =>
    (newVal val3 (memory addr2)).toOption.toList.map fun newval ↦ (addr2, newval)
  | _ => []

/-- The values that a step writes to a word, in order. -/
def Event.writes (e : Event Core Addr) (addr : Addr) : List Word :=
  match e.action with
  | .store addr' value => if addr' = addr then [value] else []
  | .request _ _ meanwhile req =>
    ((meanwhile ++ req.own e.before.memory).filter fun x ↦ x.1 = addr).map Prod.snd

omit [DecidableEq Core] in
theorem storeAll_append (memory : Addr → Word) (stores stores' : List (Addr × Word)) :
    storeAll memory (stores ++ stores') = storeAll (storeAll memory stores) stores' := by
  induction stores generalizing memory with
  | nil => rfl
  | cons x rest ih => exact ih _

omit [DecidableEq Core] in
/-- What a request leaves in memory: the stores of the cores, and then its own. -/
theorem Lot.memory_of_serve {l l' : Lot Core Addr}
    (h : l.serve core time meanwhile req = .ok (replies, l')) :
    l'.memory = storeAll l.memory (meanwhile ++ req.own l.memory) := by
  rw [storeAll_append]
  cases req with
  | wait addr val | cmpRequeue addr1 val1 val2 addr2 val3 =>
    simp only [serve] at h
    split at h <;> cases h <;> rfl
  | waitClockReal addr val =>
    simp only [serve] at h
    split at h
    · cases h
      rfl
    · cases h
  | wake addr val =>
    cases h
    rfl
  | wakeOp addr1 val1 val2 addr2 val3 =>
    obtain ⟨newval, hnew, h⟩ := Outcome.bind_eq_ok h
    obtain ⟨cond, -, h⟩ := Outcome.bind_eq_ok h
    have hown : (Request.wakeOp addr1 val1 val2 addr2 val3).own l.memory = [(addr2, newval)] := by
      simp [Request.own, hnew, Except.toOption]
    rw [hown]
    cases cond <;> cases h <;> rfl

omit [DecidableEq Core] in
/-- After a step a word has the last value written to it. -/
theorem Event.Served.memory_eq (h : e.Served) (addr : Addr) :
    e.after.memory addr = (e.writes addr).getLastD (e.before.memory addr) := by
  cases haction : e.action with
  | store addr' value =>
    rw [h.store addr' value haction]
    simp only [Event.writes, haction]
    by_cases heq : addr' = addr
    · subst heq
      rw [update_self, if_pos rfl]
      rfl
    · rw [update_of_ne (Ne.symm heq), if_neg heq]
      rfl
  | request core time meanwhile req =>
    obtain ⟨-, -, hserve⟩ := h.serve core time meanwhile req haction
    have hmemory : e.after.memory =
        storeAll e.before.memory (meanwhile ++ req.own e.before.memory) :=
      Lot.memory_of_serve hserve
    simp only [Event.writes, haction]
    rw [hmemory, storeAll_apply]

theorem Run.of_cons {rest : List (Event Core Addr)} (hrun : Run s (e :: rest) s') :
    e.before = s ∧ Run e.after rest s' := by
  cases hrun with
  | store addr value hrest | request hawake hreq hstep hrest => exact ⟨rfl, hrest⟩

theorem Run.of_append {first rest : List (Event Core Addr)} (hrun : Run s (first ++ rest) s') :
    ∃ mid, Run s first mid ∧ Run mid rest s' := by
  induction first generalizing s with
  | nil => exact ⟨s, .nil, hrun⟩
  | cons e first ih =>
    cases hrun with
    | store addr value hrest =>
      obtain ⟨mid, hfirst, hrest⟩ := ih hrest
      exact ⟨mid, .store addr value hfirst, hrest⟩
    | request hawake hreq hstep hrest =>
      obtain ⟨mid, hfirst, hrest⟩ := ih hrest
      exact ⟨mid, .request hawake hreq hstep hfirst, hrest⟩

theorem Run.memory_eq (hrun : Run s trace s') (hserved : ∀ e ∈ trace, e.Served) (addr : Addr) :
    s'.memory addr = (trace.flatMap fun e ↦ e.writes addr).getLastD (s.memory addr) := by
  induction trace generalizing s with
  | nil =>
    cases hrun
    rfl
  | cons e rest ih =>
    obtain ⟨rfl, hrest⟩ := hrun.of_cons
    rw [flatMap_cons, getLastD_append, ← (hserved e mem_cons_self).memory_eq]
    exact ih hrest fun x hx ↦ hserved x (mem_cons_of_mem e hx)

/-! ### Sleeping and waking -/

/-- The core is in exactly one queue, exactly once. -/
def Server.SleepsOnce (s : Server Core Addr) (c : Core) : Prop :=
  ∃ addr, (s.futexes addr).count c = 1 ∧ ∀ other, other ≠ addr → c ∉ s.futexes other

omit [DecidableEq Addr] in
theorem Server.Inv.sleepsOnce {s : Server Core Addr} (h : s.Inv) {c : Core}
    (hc : Asleep s.futexes c) : s.SleepsOnce c := by
  obtain ⟨addr, hmem⟩ := hc
  refine ⟨addr, count_eq_one_of_mem (h.apart.nodup addr) hmem, ?_⟩
  exact fun other hne hmem' ↦ hne (h.apart.unique hmem' hmem)

omit [DecidableEq Core] [DecidableEq Addr] in
theorem Server.Inv.stalled_iff {s : Server Core Addr} (h : s.Inv) {c : Core} :
    s.threads.status c = .stalled ↔ Asleep s.futexes c := by
  constructor
  · intro hstalled
    by_contra hc
    rw [h.awake hc] at hstalled
    cases hstalled
  · exact fun hc ↦ (h.asleep hc).1

omit [DecidableEq Addr] in
/-- Among the replies of a request that wakes some cores, each of them has one. -/
theorem filter_wakeUps {woken : List Core} {core c : Core} {result : ℤ} (hnodup : woken.Nodup)
    (hcore : core ∉ woken) (hc : c ∈ woken) :
    (Lot.wakeUps woken time ++ [(core, (⟨result, time⟩ : Reply))]).filter (fun r ↦ r.1 = c) =
      [(c, ⟨0, time⟩)] := by
  have hne : core ≠ c := fun heq ↦ hcore (heq ▸ hc)
  rw [filter_append, filter_cons_of_neg (by simpa using hne), filter_nil,
    append_nil]
  induction woken with
  | nil => cases hc
  | cons x rest ih =>
    obtain ⟨hx, hrest⟩ := nodup_cons.mp hnodup
    by_cases heq : x = c
    · subst heq
      have hnone : (Lot.wakeUps rest time).filter (fun r ↦ r.1 = x) = [] := by
        rw [filter_eq_nil_iff]
        intro r hr
        obtain ⟨y, hy, rfl⟩ := mem_map.mp hr
        simpa using fun hyx : y = x ↦ hx (hyx ▸ hy)
      show List.filter _ ((x, _) :: Lot.wakeUps rest time) = _
      rw [filter_cons_of_pos (by simp), hnone]
    · have hmem : c ∈ rest := (mem_cons.mp hc).resolve_left (Ne.symm heq)
      show List.filter _ ((x, _) :: Lot.wakeUps rest time) = _
      rw [filter_cons_of_neg (by simpa using heq)]
      exact ih hrest (fun h ↦ hcore (mem_cons_of_mem x h)) hmem

/-- `WAKE n` wakes the longest waiting cores of the word, as many as there are up to `n`, in the order
in which they came to its queue. Each has one reply, and nobody else is woken. -/
def Event.Wakes (e : Event Core Addr) : Prop :=
  ∀ core time meanwhile addr val, e.action = .request core time meanwhile (.wake addr val) →
    let woken := (e.before.futexes addr).take (rounds val)
    woken.length = min (rounds val) (e.before.futexes addr).length ∧
    e.replies = Lot.wakeUps woken time ++ [(core, ⟨woken.length, time⟩)] ∧
    (∀ c ∈ woken, e.replies.filter (fun r ↦ r.1 = c) = [(c, ⟨0, time⟩)] ∧
      e.after.threads.status c = .running) ∧
    e.before.futexes addr = woken ++ e.after.futexes addr ∧
    ∀ other, other ≠ addr → e.after.futexes other = e.before.futexes other

/-- `WAKE_OP` wakes the longest waiting cores of its first word and, if the second word had a value
as it asks for, those of the second. Each has one reply, and nobody else is woken. -/
def Event.WakesOp (e : Event Core Addr) : Prop :=
  ∀ core time meanwhile addr1 val1 val2 addr2 val3,
    e.action = .request core time meanwhile (.wakeOp addr1 val1 val2 addr2 val3) →
    ∃ cond, condition val3 (e.before.memory addr2) = .ok cond ∧
      let woken1 := (e.before.futexes addr1).take (rounds val1)
      let woken2 := (e.before.futexes addr2).take (if cond then rounds val2 else 0)
      e.replies = Lot.wakeUps (woken1 ++ woken2) time ++
        [(core, ⟨woken1.length + woken2.length, time⟩)] ∧
      (∀ c ∈ woken1 ++ woken2, e.replies.filter (fun r ↦ r.1 = c) = [(c, ⟨0, time⟩)] ∧
        e.after.threads.status c = .running) ∧
      e.before.futexes addr1 = woken1 ++ e.after.futexes addr1 ∧
      e.before.futexes addr2 = woken2 ++ e.after.futexes addr2 ∧
      ∀ other, other ≠ addr1 → other ≠ addr2 → e.after.futexes other = e.before.futexes other

/-- `CMP_REQUEUE` wakes the first cores of one queue and moves those behind them, in order, to the
tail of the other. Those that are moved go on sleeping and have no reply. -/
def Event.Requeues (e : Event Core Addr) : Prop :=
  ∀ core time meanwhile addr1 val1 val2 addr2 val3,
    e.action = .request core time meanwhile (.cmpRequeue addr1 val1 val2 addr2 val3) →
    if val3 = e.before.memory addr1 then
      let woken := (e.before.futexes addr1).take (rounds val1)
      let moved := ((e.before.futexes addr1).drop (rounds val1)).take (rounds val2)
      e.replies = Lot.wakeUps woken time ++ [(core, ⟨woken.length + moved.length, time⟩)] ∧
      e.before.futexes addr1 = woken ++ moved ++ e.after.futexes addr1 ∧
      e.after.futexes addr2 = e.before.futexes addr2 ++ moved ∧
      (∀ other, other ≠ addr1 → other ≠ addr2 → e.after.futexes other = e.before.futexes other) ∧
      ∀ c ∈ moved, e.after.threads.status c = .stalled ∧ ∀ r ∈ e.replies, r.1 ≠ c
    else e.replies = [(core, ⟨eWouldBlock, time⟩)] ∧ e.after.futexes = e.before.futexes

theorem Event.Served.wakes (h : e.Served) : e.Wakes := by
  intro core time meanwhile addr val haction
  obtain ⟨hawake, -, hserve⟩ := h.serve _ _ _ _ haction
  have hpair := Except.ok.inj hserve
  have hreplies : Lot.wakeUps ((e.before.futexes addr).take (rounds val)) time ++
      [(core, ⟨((e.before.futexes addr).take (rounds val)).length, time⟩)] = e.replies :=
    congrArg Prod.fst hpair
  have hqueues : pop e.before.futexes addr (rounds val) = e.after.futexes :=
    congrArg (fun r ↦ r.2.queues) hpair
  refine ⟨length_take, hreplies.symm, fun c hc ↦ ⟨?_, ?_⟩, ?_, fun other hne ↦ ?_⟩
  · rw [← hreplies]
    exact filter_wakeUps ((h.inv.apart.nodup addr).sublist (take_sublist _ _))
      (fun hmem ↦ hawake ⟨addr, mem_of_mem_take hmem⟩) hc
  · apply h.inv'.awake
    rw [← hqueues, h.inv.apart.asleep_pop]
    exact fun hsleep ↦ hsleep.2 hc
  · rw [← hqueues, pop_self, take_append_drop]
  · rw [← hqueues, pop_of_ne hne]

omit [DecidableEq Core] in
/-- The two wakes of `WAKE_OP`; the second has no rounds if its condition fails. -/
theorem Lot.serve_wakeOp {l l' : Lot Core Addr} {addr1 addr2 : Addr} {val1 val2 val3 : Word}
    (h : l.serve core time meanwhile (.wakeOp addr1 val1 val2 addr2 val3) = .ok (replies, l')) :
    ∃ cond, condition val3 (l.memory addr2) = .ok cond ∧
      let n := if cond then rounds val2 else 0
      let woken1 := (l.queues addr1).take (rounds val1)
      let woken2 := (pop l.queues addr1 (rounds val1) addr2).take n
      replies = wakeUps (woken1 ++ woken2) time ++
        [(core, ⟨woken1.length + woken2.length, time⟩)] ∧
      l'.queues = pop (pop l.queues addr1 (rounds val1)) addr2 n := by
  obtain ⟨newval, -, h⟩ := Outcome.bind_eq_ok h
  obtain ⟨cond, hcond, h⟩ := Outcome.bind_eq_ok h
  refine ⟨cond, hcond, ?_⟩
  cases cond with
  | false =>
    cases h
    simp only [Bool.false_eq_true, if_false, take_zero, append_nil, pop_zero]
    exact ⟨rfl, rfl⟩
  | true =>
    cases h
    exact ⟨rfl, rfl⟩

theorem Event.Served.wakesOp (h : e.Served) : e.WakesOp := by
  intro core time meanwhile addr1 val1 val2 addr2 val3 haction
  obtain ⟨hawake, hreq, hserve⟩ := h.serve _ _ _ _ haction
  have hne : addr1 ≠ addr2 := hreq
  obtain ⟨cond, hcond, hreplies, hqueues⟩ := Lot.serve_wakeOp hserve
  have hpop : pop e.before.lot.queues addr1 (rounds val1) addr2 = e.before.futexes addr2 :=
    pop_of_ne (Ne.symm hne)
  rw [hpop] at hreplies
  refine ⟨cond, hcond, hreplies, ?_⟩
  generalize (if cond then rounds val2 else 0) = n at hreplies hqueues ⊢
  change e.after.futexes = pop (pop e.before.futexes addr1 (rounds val1)) addr2 n at hqueues
  refine ⟨fun c hc ↦ ⟨?_, ?_⟩, ?_, ?_, fun other h₁ h₂ ↦ ?_⟩
  · rw [hreplies]
    have hnodup := h.inv.apart.nodup_take addr1 addr2 (rounds val1) n
    rw [pop_of_ne (Ne.symm hne)] at hnodup
    refine filter_wakeUps hnodup (fun hmem ↦ hawake ?_) hc
    rcases mem_append.mp hmem with hmem | hmem
    · exact ⟨addr1, mem_of_mem_take hmem⟩
    · exact ⟨addr2, mem_of_mem_take hmem⟩
  · apply h.inv'.awake
    rw [hqueues, h.inv.apart.pop.asleep_pop, h.inv.apart.asleep_pop, pop_of_ne (Ne.symm hne)]
    rintro ⟨⟨-, h₁⟩, h₂⟩
    exact (mem_append.mp hc).elim h₁ h₂
  · rw [hqueues, pop_of_ne hne, pop_self, take_append_drop]
  · rw [hqueues, pop_self, pop_of_ne (Ne.symm hne), take_append_drop]
  · rw [hqueues, pop_of_ne h₂, pop_of_ne h₁]

omit [DecidableEq Core] in
theorem Event.Served.requeues (h : e.Served) : e.Requeues := by
  intro core time meanwhile addr1 val1 val2 addr2 val3 haction
  obtain ⟨hawake, hreq, hserve⟩ := h.serve _ _ _ _ haction
  have hne : addr1 ≠ addr2 := hreq
  by_cases hval : val3 = e.before.memory addr1
  · rw [if_pos hval]
    have hlot : ¬ val3 ≠ e.before.lot.memory addr1 := fun hne ↦ hne hval
    simp only [Lot.serve, if_neg hlot] at hserve
    have hpair := Except.ok.inj hserve
    have hreplies : Lot.wakeUps ((e.before.futexes addr1).take (rounds val1)) time ++
        [(core, ⟨((e.before.futexes addr1).take (rounds val1)).length +
          ((pop e.before.futexes addr1 (rounds val1) addr1).take (rounds val2)).length, time⟩)] =
        e.replies := congrArg Prod.fst hpair
    have hqueues : move (pop e.before.futexes addr1 (rounds val1)) addr1 addr2 (rounds val2) =
        e.after.futexes := congrArg (fun r ↦ r.2.queues) hpair
    have hpop : pop e.before.futexes addr1 (rounds val1) addr1 =
        (e.before.futexes addr1).drop (rounds val1) := pop_self ..
    rw [hpop] at hreplies
    have hsource : e.after.futexes addr1 =
        ((e.before.futexes addr1).drop (rounds val1)).drop (rounds val2) := by
      rw [← hqueues, move_source hne, hpop]
    have htarget : e.after.futexes addr2 = e.before.futexes addr2 ++
        ((e.before.futexes addr1).drop (rounds val1)).take (rounds val2) := by
      rw [← hqueues, move_target, hpop, pop_of_ne (Ne.symm hne)]
    refine ⟨?_, ?_, htarget, fun other h₁ h₂ ↦ ?_, fun c hc ↦ ⟨?_, fun r hr ↦ ?_⟩⟩
    · exact hreplies.symm
    · rw [hsource, append_assoc, take_append_drop, take_append_drop]
    · rw [← hqueues, move_of_ne h₁ h₂, pop_of_ne h₁]
    · exact (h.inv'.asleep ⟨addr2, by rw [htarget]; exact mem_append_right _ hc⟩).1
    · -- the cores with a reply are the first of the queue and the one that is awake
      have hdrop : c ∈ (e.before.futexes addr1).drop (rounds val1) := mem_of_mem_take hc
      rintro rfl
      rw [← hreplies] at hr
      rcases mem_append.mp hr with hr | hr
      · obtain ⟨c', hwoken, rfl⟩ := mem_map.mp hr
        have hnodup := h.inv.apart.nodup addr1
        rw [← take_append_drop (rounds val1) (e.before.futexes addr1)] at hnodup
        exact (nodup_append'.mp hnodup).2.2 hwoken hdrop
      · obtain rfl := mem_singleton.mp hr
        exact hawake ⟨addr1, mem_of_mem_drop hdrop⟩
  · rw [if_neg hval]
    have hlot : val3 ≠ e.before.lot.memory addr1 := hval
    simp only [Lot.serve, if_pos hlot] at hserve
    have hpair := Except.ok.inj hserve
    exact ⟨(congrArg Prod.fst hpair).symm, (congrArg (fun r ↦ r.2.queues) hpair).symm⟩

omit [DecidableEq Core] in
/-- A wait for a value that the word does not have is answered at once, another one sleeps. -/
theorem Event.Served.wait (h : e.Served) {addr : Addr} {val : Word}
    (haction : e.action = .request core time meanwhile (.wait addr val)) :
    (Asleep e.after.futexes core ↔ e.before.memory addr = val) ∧
      (e.before.memory addr ≠ val → e.replies = [(core, ⟨-eWouldBlock, time⟩)]) := by
  obtain ⟨hawake, -, hserve⟩ := h.serve _ _ _ _ haction
  by_cases hval : e.before.memory addr = val
  · have hlot : ¬ val ≠ e.before.lot.memory addr := fun hne ↦ hne hval.symm
    simp only [Lot.serve, if_neg hlot] at hserve
    have hqueues : push e.before.futexes addr core = e.after.futexes :=
      congrArg (fun r ↦ r.2.queues) (Except.ok.inj hserve)
    refine ⟨⟨fun _ ↦ hval, fun _ ↦ ?_⟩, fun hne ↦ absurd hval hne⟩
    rw [← hqueues]
    exact asleep_push.mpr (.inr rfl)
  · have hlot : val ≠ e.before.lot.memory addr := Ne.symm hval
    simp only [Lot.serve, if_pos hlot] at hserve
    have hpair := Except.ok.inj hserve
    have hqueues : e.before.futexes = e.after.futexes := congrArg (fun r ↦ r.2.queues) hpair
    refine ⟨⟨fun hsleep ↦ absurd (hqueues ▸ hsleep) hawake, fun heq ↦ absurd heq hval⟩, fun _ ↦ ?_⟩
    exact (congrArg Prod.fst hpair).symm

/-- No wakeup is lost: a wait sleeps exactly if the last value written to the word before it is
handled is the one it waits for. So after a store of a new value and the wake of the writer a wait for
the old value does not sleep, unless the old value has been written again. -/
def NoLostWakeup (memory : Addr → Word) (trace : List (Event Core Addr)) : Prop :=
  ∀ (first last : List (Event Core Addr)) (wait : Event Core Addr) (addr : Addr) (val : Word)
    (core : Core) (time : ℕ) (meanwhile : List (Addr × Word)),
    trace = first ++ wait :: last →
    wait.action = .request core time meanwhile (.wait addr val) →
    let latest := (first.flatMap fun e ↦ e.writes addr).getLastD (memory addr)
    (Asleep wait.after.futexes core ↔ latest = val) ∧
      (latest ≠ val → wait.replies = [(core, ⟨-eWouldBlock, time⟩)])

theorem Run.noLostWakeup (hrun : Run s trace s') (h : s.Inv) : NoLostWakeup s.memory trace := by
  intro first last wait addr val core time meanwhile htrace hwait
  obtain ⟨-, hserved⟩ := hrun.served h
  subst htrace
  obtain ⟨mid, hfirst, hrun⟩ := hrun.of_append
  obtain ⟨rfl, -⟩ := hrun.of_cons
  have hbefore := hfirst.memory_eq (fun e he ↦ hserved e (mem_append_left _ he)) addr
  rw [← hbefore]
  exact (hserved wait (by simp)).wait hwait

omit [DecidableEq Core] in
/-- A request fails only if it is not supported. -/
theorem Lot.serve_error {l : Lot Core Addr} {e : FutexFault}
    (h : l.serve core time meanwhile req = .error e) (fault : Sync.SyncFault) :
    e ≠ .sync fault := by
  rintro rfl
  cases req with
  | wait addr val | waitClockReal addr val | cmpRequeue addr1 val1 val2 addr2 val3 =>
    simp only [serve] at h
    split at h <;> cases h
  | wake addr val => cases h
  | wakeOp addr1 val1 val2 addr2 val3 =>
    simp only [serve, newVal, condition] at h
    split at h <;> split at h <;> cases h

/-- The futex calls, along every run from a state in which no core sleeps. -/
theorem futex_semantics (memory : Addr → Word) (trace : List (Event Core Addr))
    (s : Server Core Addr) (hrun : Run (.start memory) trace s) :
    (∀ c, s.threads.status c = .stalled ↔ s.SleepsOnce c) ∧
    (∀ e ∈ trace, e.Wakes ∧ e.WakesOp ∧ e.Requeues) ∧ NoLostWakeup memory trace ∧
    ∀ core time meanwhile req, s.threads.status core ≠ .stalled → req.Distinct →
      Outcome (s.handle core time meanwhile req) (fun _ ↦ True)
        (fun e ↦ ∀ fault, e ≠ .sync fault) := by
  have hstart : (Server.start memory : Server Core Addr).Inv := Server.start_inv memory
  obtain ⟨hinv, hserved⟩ := hrun.served hstart
  refine ⟨fun c ↦ ?_, fun e he ↦ ?_, hrun.noLostWakeup hstart, ?_⟩
  · rw [hinv.stalled_iff]
    refine ⟨hinv.sleepsOnce, ?_⟩
    rintro ⟨addr, hcount, -⟩
    exact ⟨addr, count_pos_iff.mp (by omega)⟩
  · exact ⟨(hserved e he).wakes, (hserved e he).wakesOp, (hserved e he).requeues⟩
  · intro core time meanwhile req hawake hreq
    rw [ne_eq, hinv.stalled_iff] at hawake
    have hrefines := hinv.handle meanwhile time hawake hreq.parted
    cases hserve : s.lot.serve core time meanwhile req with
    | ok r =>
      rw [hserve] at hrefines
      obtain ⟨t, hhandle, -⟩ := hrefines
      rw [hhandle]
      trivial
    | error e =>
      rw [hserve] at hrefines
      rw [show s.handle core time meanwhile req = .error e from hrefines]
      exact Lot.serve_error hserve

instance (qs : Fin 2 → List (Fin 3)) (c : Fin 3) : Decidable (Asleep qs c) :=
  inferInstanceAs (Decidable (∃ q, c ∈ qs q))

/-- Core 0 sleeps until core 1 has stored and wakes it; core 2 comes too late to sleep. -/
theorem futex_semantics_storeAndWake : ∃ (trace : List (Event (Fin 3) (Fin 2)))
    (s : Server (Fin 3) (Fin 2)), Run (.start fun _ ↦ 0) trace s ∧ trace.map Event.replies =
        [[], [], [(0, ⟨0, 1⟩), (1, ⟨1, 1⟩)], [(2, ⟨-eWouldBlock, 2⟩)]] ∧
      ∀ e ∈ trace, e.Wakes ∧ e.WakesOp ∧ e.Requeues := by
  have hrun : Run (.start fun _ : Fin 2 ↦ 0) [⟨_, .request (0 : Fin 3) 0 [] (.wait 0 0), _, _⟩,
      ⟨_, .store 0 1, _, _⟩, ⟨_, .request 1 1 [] (.wake 0 5), _, _⟩,
      ⟨_, .request 2 2 [] (.wait 0 0), _, _⟩] _ :=
    .request (by decide) trivial rfl <| .store 0 1 <| .request (by decide) trivial rfl <|
      .request (by decide) trivial rfl .nil
  exact ⟨_, _, hrun, rfl, (futex_semantics _ _ _ hrun).2.1⟩

/-- The words of `FUTEX_WAKE_OP` are read and written in two accesses. Core 1 stores 5 to word 1
between them, and the handler writes back the value 0 that it has read (an or with 0). The wake of
core 1 finds nobody, and core 2, which waits for 0 after it, sleeps. -/
theorem wakeOp_loses_wakeup : ∃ (trace : List (Event (Fin 3) (Fin 2)))
    (s : Server (Fin 3) (Fin 2)), Run (.start fun _ ↦ 0) trace s ∧
      trace.map Event.action = [.request 0 0 [(1, 5)] (.wakeOp 0 1 1 1 0x20000000),
        .request 1 1 [] (.wake 1 1), .request 2 2 [] (.wait 1 0)] ∧
      trace.map Event.replies = [[(0, ⟨0, 0⟩)], [(1, ⟨0, 1⟩)], []] ∧ s.SleepsOnce 2 := by
  have hrun : Run (.start fun _ : Fin 2 ↦ 0)
      [⟨_, .request (0 : Fin 3) 0 [(1, 5)] (.wakeOp 0 1 1 1 0x20000000), _, _⟩,
        ⟨_, .request 1 1 [] (.wake 1 1), _, _⟩, ⟨_, .request 2 2 [] (.wait 1 0), _, _⟩] _ :=
    .request (by decide) (by decide : (0 : Fin 2) ≠ 1) rfl <|
      .request (by decide) trivial rfl <| .request (by decide) trivial rfl .nil
  have hlast := (hrun.served (Server.start_inv _)).1
  exact ⟨_, _, hrun, rfl, rfl, hlast.sleepsOnce ⟨1, by decide⟩⟩

end CarbonSim.Futex
