import CarbonSim.Lib.Runs
import CarbonSim.Sync.FutexRuns
import Mathlib.Data.Set.Card

/-!
# The values that futex calls return

A caller should be able to tell the failure of a call from a count of cores. The counts of
`FUTEX_WAKE` and `FUTEX_WAKE_OP` are right, also if both words are the same. `FUTEX_CMP_REQUEUE`
returns `EWOULDBLOCK` with the wrong sign, and if waiters are moved within one queue it counts the
rounds of its loop and not the waiters.
-/

namespace CarbonSim.Futex

open List Except

open WaitQueues (Apart Asleep push pop move spin pop_self push_self)

variable {Core Addr : Type} [DecidableEq Core] [DecidableEq Addr] {replies : List (Core × Reply)}

namespace Server

variable {s s' : Server Core Addr} {addr addr1 addr2 : Addr} {core : Core} {time : ℕ}

/-! ### Waiters moved within one queue -/

/-- If both words are the same, each round of the loop finds a waiter, unless there is none. -/
theorem Inv.requeueLoop_self (addr : Addr) (n : ℕ) (h : s.Inv) :
    ∃ t, Server.requeueLoop addr addr n s =
        .ok (if s.futexes addr = [] then 0 else n, s.withQueues (spin s.futexes addr n) t) ∧
      (s.withQueues (spin s.futexes addr n) t).Inv := by
  induction n generalizing s with
  | zero =>
    rw [WaitQueues.spin_zero, ite_self]
    exact ⟨s.threads, rfl, h⟩
  | succ n ih =>
    cases hq : s.futexes addr with
    | nil =>
      refine ⟨s.threads, ?_, ?_⟩
      · rw [WaitQueues.spin_of_eq_nil hq, Server.requeueLoop, Server.dequeueWaiter]
        simp only [hq]
        rfl
      · rw [WaitQueues.spin_of_eq_nil hq]
        exact h
    | cons core rest =>
      obtain ⟨t, hdequeue, hinv⟩ := h.dequeueWaiter hq
      obtain ⟨t', henqueue, hinv'⟩ := hinv.enqueueWaiter addr (h.apart.not_asleep_pop hq)
      obtain ⟨t'', hloop, hinv''⟩ := ih hinv'
      have hspin := WaitQueues.spin_push_pop (n := n) hq
      have hnonempty : push (pop s.futexes addr 1) addr core addr ≠ [] := by
        rw [push_self]
        exact append_ne_nil_of_right_ne_nil _ (cons_ne_nil core [])
      refine ⟨t'', ?_, hspin ▸ hinv''⟩
      rw [Server.requeueLoop, hdequeue]
      show (Server.enqueueWaiter _ addr core >>= _) = _
      rw [henqueue]
      show (Server.requeueLoop addr addr n _ >>= _) = _
      rw [hloop, ← hspin]
      show ok ((if push (pop s.futexes addr 1) addr core addr = [] then 0 else n) + 1, _) = _
      rw [if_neg hnonempty]
      rfl

/-- The waiters that the loop of `futexCmpRequeue` takes from the first queue, in order. -/
def requeued (addr1 addr2 : Addr) : ℕ → Server Core Addr → List Core
  | 0, _ => []
  | n + 1, s =>
    match s.dequeueWaiter addr1 with
    | .ok (some core, s) =>
      match s.enqueueWaiter addr2 core with
      | .ok s => core :: requeued addr1 addr2 n s
      | .error _ => [core]
    | _ => []

/-- A waiter that goes to the tail of its own queue is met again only after all others. -/
theorem Inv.mem_requeued (n : ℕ) (h : s.Inv) (c : Core) :
    c ∈ requeued addr1 addr2 n s ↔ c ∈ (s.futexes addr1).take n := by
  induction n generalizing s with
  | zero => simp [requeued]
  | succ n ih =>
    cases hq : s.futexes addr1 with
    | nil => simp [requeued, Server.dequeueWaiter, hq]
    | cons core rest =>
      obtain ⟨t, hdequeue, hinv⟩ := h.dequeueWaiter hq
      obtain ⟨t', henqueue, hinv'⟩ := hinv.enqueueWaiter addr2 (h.apart.not_asleep_pop hq)
      simp only [requeued, hdequeue, henqueue]
      rw [mem_cons, ih hinv', take_succ_cons, mem_cons]
      show c = core ∨ c ∈ (push (pop s.futexes addr1 1) addr2 core addr1).take n ↔ _
      by_cases hne : addr1 = addr2
      · subst hne
        rw [push_self, pop_self, hq, drop_one, tail_cons,
          take_append, mem_append]
        constructor
        · rintro (hc | hc | hc)
          · exact .inl hc
          · exact .inr hc
          · exact .inl (mem_singleton.mp (mem_of_mem_take hc))
        · rintro (hc | hc)
          · exact .inl hc
          · exact .inr (.inl hc)
      · rw [WaitQueues.push_of_ne hne, pop_self, hq, drop_one, tail_cons]

/-- `FUTEX_CMP_REQUEUE` with the same word twice. -/
theorem Inv.handle_cmpRequeue_self (h : s.Inv) (meanwhile : List (Addr × Word)) (time : ℕ)
    {val1 val2 val3 : Word} (hval : s.memory addr = val3) :
    ∃ t, s.handle core time meanwhile (.cmpRequeue addr val1 val2 addr val3) =
        .ok (Lot.wakeUps ((s.futexes addr).take (rounds val1)) time ++
            [(core, ⟨((s.futexes addr).take (rounds val1)).length +
              ((if (s.futexes addr).drop (rounds val1) = [] then 0 else rounds val2 : ℕ) : ℤ),
                time⟩)],
          (s.stores meanwhile).withQueues
            (spin (pop s.futexes addr (rounds val1)) addr (rounds val2)) t) ∧
      ((s.stores meanwhile).withQueues
        (spin (pop s.futexes addr (rounds val1)) addr (rounds val2)) t).Inv := by
  obtain ⟨t, hwake, hinv⟩ := (h.stores meanwhile).futexWake addr val1 time
  obtain ⟨t', hloop, hinv'⟩ := hinv.requeueLoop_self addr (rounds val2)
  refine ⟨t', ?_, hinv'⟩
  have heq : ¬ val3 ≠ s.memory addr := fun hne ↦ hne hval.symm
  simp only [Server.handle, if_neg heq]
  rw [hwake]
  show (Server.requeueLoop addr addr (rounds val2) _ >>= _) = _
  rw [hloop]
  rw [length_wakeUps]
  show ok (_ ++ [(core, (⟨_ + ((if pop s.futexes addr (rounds val1) addr = [] then 0
    else rounds val2 : ℕ) : ℤ), time⟩ : Reply))], _) = _
  rw [pop_self]
  rfl

/-- The cores that a request has woken. -/
def woken (s s' : Server Core Addr) : Set Core := {c | Asleep s.futexes c ∧ ¬ Asleep s'.futexes c}

/-- The waiters that `FUTEX_CMP_REQUEUE` moves once it has woken some. -/
def moved (s : Server Core Addr) (time : ℕ) (addr1 : Addr) (val1 val2 : Word) (addr2 : Addr) :
    Set Core :=
  match s.futexWake addr1 val1 time with
  | .ok (_, s) => {c | c ∈ requeued addr1 addr2 (rounds val2) s}
  | .error _ => ∅

/-- The core is sent one message, with the value. -/
def Answers (core : Core) (replies : List (Core × Reply)) (value : ℤ) : Prop :=
  ∃ time, ∀ r, (core, r) ∈ replies ↔ r = ⟨value, time⟩

/-- The caller is told how many cores its request woke or moved, or that it failed. -/
def ReplyRight (s : Server Core Addr) (core : Core) (time : ℕ) (meanwhile : List (Addr × Word))
    (req : Request Addr) : Prop :=
  match req with
  | .wait _ _ => True
  | .waitClockReal _ _ => True
  | .wake _ _ => ∃ replies s', s.handle core time meanwhile req = .ok (replies, s') ∧
      Answers core replies (woken s s').ncard
  -- The handler fails on operations and comparisons that it does not know.
  | .wakeOp _ _ _ _ _ => ∀ replies s', s.handle core time meanwhile req = .ok (replies, s') →
      Answers core replies (woken s s').ncard
  | .cmpRequeue addr1 val1 val2 addr2 val3 => ∃ replies s' value,
      s.handle core time meanwhile req = .ok (replies, s') ∧ Answers core replies value ∧
      (value < 0 ↔ s.memory addr1 ≠ val3) ∧
      (s.memory addr1 = val3 →
        value = (woken s s' ∪ (s.stores meanwhile).moved time addr1 val1 val2 addr2).ncard)

/-- The word has the value that the caller of `FUTEX_CMP_REQUEUE` expects, and if waiters are moved
within its queue, the loop does not come back to one that it has moved. -/
def Countable (s : Server Core Addr) : Request Addr → Prop
  | .cmpRequeue addr1 val1 val2 addr2 val3 => s.memory addr1 = val3 ∧
      (addr1 ≠ addr2 ∨ (s.futexes addr1).drop (rounds val1) = [] ∨
        rounds val2 ≤ ((s.futexes addr1).drop (rounds val1)).length)
  | _ => True

/-! ### Counting -/

omit [DecidableEq Addr] [DecidableEq Core] in
theorem Answers.unique {value value' : ℤ}
    (h : Answers core replies value) (h' : Answers core replies value') : value = value' := by
  obtain ⟨time, h⟩ := h
  obtain ⟨time', h'⟩ := h'
  have hreply := (h' _).mp ((h ⟨value, time⟩).mpr rfl)
  exact congrArg Reply.result hreply

omit [DecidableEq Core] in
theorem answers_wakeUps {cores : List Core} (hcore : core ∉ cores) (time : ℕ) (value : ℤ) :
    Answers core (Lot.wakeUps cores time ++ [(core, ⟨value, time⟩)]) value := by
  refine ⟨time, fun r ↦ ?_⟩
  simp only [Lot.wakeUps, mem_append, mem_map, Prod.mk.injEq, mem_singleton, true_and]
  constructor
  · rintro (⟨c, hc, rfl, -⟩ | hr)
    · exact absurd hc hcore
    · exact hr
  · exact .inr

theorem ncard_mem {cores : List Core} (h : cores.Nodup) : {c | c ∈ cores}.ncard = cores.length := by
  rw [← coe_toFinset, Set.ncard_coe_finset, toFinset_card_of_nodup h]

omit [DecidableEq Core] in
/-- Those who sleep no more when the first cores have left a queue. -/
theorem Inv.woken_pop (h : s.Inv) (n : ℕ) {s' : Server Core Addr}
    (hs' : ∀ c, Asleep s'.futexes c ↔ Asleep (pop s.futexes addr n) c) :
    woken s s' = {c | c ∈ (s.futexes addr).take n} := by
  ext c
  rw [woken, Set.mem_ofPred_eq, Set.mem_ofPred_eq, hs', h.apart.asleep_pop, not_and, not_not]
  constructor
  · exact fun hc ↦ hc.2 hc.1
  · exact fun hc ↦ ⟨⟨addr, mem_of_mem_take hc⟩, fun _ ↦ hc⟩

theorem Inv.ncard_woken_pop (h : s.Inv) (addr : Addr) (n : ℕ) {s' : Server Core Addr}
    (hs' : ∀ c, Asleep s'.futexes c ↔ Asleep (pop s.futexes addr n) c) :
    (woken s s').ncard = ((s.futexes addr).take n).length := by
  rw [h.woken_pop n hs', ncard_mem ((h.apart.nodup addr).sublist (take_sublist n _))]

/-- The first cores of two queues leave, which may be the same one. -/
theorem Inv.ncard_woken_pop_pop (h : s.Inv) (n m : ℕ)
    (hs' : s'.futexes = pop (pop s.futexes addr1 n) addr2 m) :
    (woken s s').ncard = ((s.futexes addr1).take n).length +
      ((pop s.futexes addr1 n addr2).take m).length := by
  have hwoken : woken s s' =
      {c | c ∈ (s.futexes addr1).take n ++ (pop s.futexes addr1 n addr2).take m} := by
    ext c
    rw [woken, Set.mem_ofPred_eq, Set.mem_ofPred_eq, hs', h.apart.pop.asleep_pop, h.apart.asleep_pop,
      mem_append]
    constructor
    · rintro ⟨hasleep, hawake⟩
      by_contra hc
      exact hawake ⟨⟨hasleep, fun hc' ↦ hc (.inl hc')⟩, fun hc' ↦ hc (.inr hc')⟩
    · rintro (hc | hc)
      · exact ⟨⟨addr1, mem_of_mem_take hc⟩, fun hasleep ↦ hasleep.1.2 hc⟩
      · have hleft := (h.apart.mem_pop.mp (mem_of_mem_take hc)).1
        exact ⟨⟨addr2, hleft⟩, fun hasleep ↦ hasleep.2 hc⟩
  rw [hwoken, ncard_mem (h.apart.nodup_take addr1 addr2 n m), length_append]

/-- The waiters that are woken and those that are moved are the first ones of the queue. -/
theorem Inv.ncard_woken_union_moved (h : s.Inv) (addr2 : Addr) (meanwhile : List (Addr × Word)) (time : ℕ)
    (val1 val2 : Word)
    (hs' : ∀ c, Asleep s'.futexes c ↔ Asleep (pop s.futexes addr1 (rounds val1)) c) :
    (woken s s' ∪ (s.stores meanwhile).moved time addr1 val1 val2 addr2).ncard =
      ((s.futexes addr1).take (rounds val1)).length +
        (((s.futexes addr1).drop (rounds val1)).take (rounds val2)).length := by
  obtain ⟨t, hwake, hinv⟩ := (h.stores meanwhile).futexWake addr1 val1 time
  have hmoved : (s.stores meanwhile).moved time addr1 val1 val2 addr2 =
      {c | c ∈ ((s.futexes addr1).drop (rounds val1)).take (rounds val2)} := by
    ext c
    simp only [moved, hwake, Set.mem_ofPred_eq]
    rw [hinv.mem_requeued]
    show c ∈ (pop s.futexes addr1 (rounds val1) addr1).take (rounds val2) ↔ _
    rw [pop_self]
  have hunion : woken s s' ∪ (s.stores meanwhile).moved time addr1 val1 val2 addr2 =
      {c | c ∈ (s.futexes addr1).take (rounds val1 + rounds val2)} := by
    ext c
    rw [h.woken_pop _ hs', hmoved, take_add, Set.mem_ofPred_eq, mem_append]
    rfl
  rw [hunion, ncard_mem ((h.apart.nodup addr1).sublist (take_sublist _ _)), take_add, length_append]

/-! ### The three calls -/

omit [DecidableEq Core] [DecidableEq Addr] in
theorem notMem_take (hcore : ¬ Asleep s.futexes core) (n : ℕ) : core ∉ (s.futexes addr).take n :=
  fun hc ↦ hcore ⟨addr, mem_of_mem_take hc⟩

section

variable (h : s.Inv) (hcore : ¬ Asleep s.futexes core) (time) (meanwhile : List (Addr × Word))

include h hcore

theorem Inv.replyRight_wake (addr : Addr) (val : Word) :
    s.ReplyRight core time meanwhile (.wake addr val) := by
  have hrefines : Refines _ (s.handle core time meanwhile (.wake addr val)) :=
    h.handle meanwhile time hcore trivial
  obtain ⟨t, hhandle, -⟩ := hrefines
  refine ⟨_, _, hhandle, ?_⟩
  rw [h.ncard_woken_pop addr (rounds val) fun c ↦ Iff.rfl]
  exact answers_wakeUps (notMem_take hcore _) time _

theorem Inv.replyRight_wakeOp (addr1 : Addr) (val1 val2 : Word) (addr2 : Addr) (val3 : Word) :
    s.ReplyRight core time meanwhile (.wakeOp addr1 val1 val2 addr2 val3) := by
  intro replies s' hhandle
  have hparted : (Request.wakeOp addr1 val1 val2 addr2 val3).Parted := trivial
  obtain ⟨hserve, -⟩ := h.serve_of_handle hcore hparted hhandle
  obtain ⟨cond, -, rfl, hqueues⟩ := Lot.serve_wakeOp hserve
  rw [h.ncard_woken_pop_pop _ _ hqueues, Nat.cast_add]
  refine answers_wakeUps (fun hmem ↦ ?_) time _
  rcases mem_append.mp hmem with hmem | hmem
  · exact notMem_take hcore _ hmem
  · exact hcore ⟨addr2, (h.apart.mem_pop.mp (mem_of_mem_take hmem)).1⟩

/-- What `FUTEX_CMP_REQUEUE` returns if the word has the value that the caller expects. -/
theorem Inv.handle_cmpRequeue (addr1 : Addr) (val1 val2 : Word) (addr2 : Addr) :
    ∃ replies s', s.handle core time meanwhile
        (.cmpRequeue addr1 val1 val2 addr2 (s.memory addr1)) = .ok (replies, s') ∧ s'.Inv ∧
      (∀ c, Asleep s'.futexes c ↔ Asleep (pop s.futexes addr1 (rounds val1)) c) ∧
      Answers core replies (((s.futexes addr1).take (rounds val1)).length +
        ((if addr1 ≠ addr2 then (((s.futexes addr1).drop (rounds val1)).take (rounds val2)).length
          else if (s.futexes addr1).drop (rounds val1) = [] then 0 else rounds val2 : ℕ) : ℤ)) := by
  by_cases hne : addr1 = addr2
  · subst hne
    obtain ⟨t, hhandle, hinv⟩ := h.handle_cmpRequeue_self meanwhile time rfl
    refine ⟨_, _, hhandle, hinv, fun c ↦ WaitQueues.asleep_spin, ?_⟩
    rw [if_neg (not_not.mpr rfl)]
    exact answers_wakeUps (notMem_take hcore _) time _
  · have hrefines : Refines _ (s.handle core time meanwhile
        (.cmpRequeue addr1 val1 val2 addr2 (s.memory addr1))) :=
      h.handle meanwhile time hcore hne
    have hval : ¬ s.memory addr1 ≠ s.lot.memory addr1 := not_not.mpr rfl
    simp only [Lot.serve, if_neg hval] at hrefines
    obtain ⟨t, hhandle, hinv⟩ := hrefines
    refine ⟨_, _, hhandle, hinv, fun c ↦ WaitQueues.asleep_move hne, ?_⟩
    have hleft : (pop s.futexes addr1 (rounds val1)) addr1 = (s.futexes addr1).drop (rounds val1) :=
      pop_self ..
    rw [if_pos hne, ← hleft]
    exact answers_wakeUps (notMem_take hcore _) time _

theorem Inv.replyRight_cmpRequeue (addr1 : Addr) (val1 val2 : Word) (addr2 : Addr) (val3 : Word) :
    s.ReplyRight core time meanwhile (.cmpRequeue addr1 val1 val2 addr2 val3) ↔
      s.Countable (.cmpRequeue addr1 val1 val2 addr2 val3) := by
  by_cases hval : s.memory addr1 = val3
  · subst hval
    obtain ⟨replies, s', hhandle, hinv, hasleep, hanswers⟩ :=
      h.handle_cmpRequeue time hcore meanwhile addr1 val1 val2 addr2
    have hcount := h.ncard_woken_union_moved addr2 meanwhile time val1 val2 hasleep
    have hright : s.ReplyRight core time meanwhile
        (.cmpRequeue addr1 val1 val2 addr2 (s.memory addr1)) ↔
          (if addr1 ≠ addr2 then (((s.futexes addr1).drop (rounds val1)).take (rounds val2)).length
            else if (s.futexes addr1).drop (rounds val1) = [] then 0 else rounds val2) =
          (((s.futexes addr1).drop (rounds val1)).take (rounds val2)).length := by
      constructor
      · rintro ⟨replies', s'', value, hhandle', hanswers', -, hvalue⟩
        rw [hhandle] at hhandle'
        obtain ⟨rfl, rfl⟩ := Prod.mk.inj (ok.inj hhandle')
        have heq := hanswers.unique hanswers'
        rw [hvalue rfl, hcount] at heq
        omega
      · intro heq
        refine ⟨replies, s', _, hhandle, hanswers, ?_, fun _ ↦ ?_⟩
        · constructor
          · omega
          · exact fun hne ↦ absurd rfl hne
        · rw [hcount, heq]
          exact (Nat.cast_add _ _).symm
    rw [hright, Countable, length_take]
    by_cases hne : addr1 = addr2
    · by_cases hleft : (s.futexes addr1).drop (rounds val1) = []
      · simp [hleft]
      · simp [hne ▸ hleft, hne]
    · simp [hne]
  · constructor
    · rintro ⟨replies, s', value, hhandle, hanswers, hvalue, -⟩
      simp only [Server.handle, if_pos (Ne.symm hval)] at hhandle
      obtain ⟨rfl, -⟩ := Prod.mk.inj (ok.inj hhandle)
      have heq := hanswers.unique (answers_wakeUps (not_mem_nil) time eWouldBlock)
      have hneg := hvalue.mpr hval
      rw [heq] at hneg
      exact absurd hneg (by decide)
    · exact fun hcountable ↦ absurd hcountable.1 hval

end

/-! ### Runs -/

/-- A store or a request. -/
def act (s : Server Core Addr) : Action Core Addr → Except FutexFault (Server Core Addr)
  | .store addr value => .ok (s.stores [(addr, value)])
  | .request core time meanwhile req => Prod.snd <$> s.handle core time meanwhile req

/-- A core that sleeps sends no request. -/
def Sends (s : Server Core Addr) : Action Core Addr → Prop
  | .store _ _ => True
  | .request core _ _ _ => ¬ Asleep s.futexes core

theorem Inv.of_handle (h : s.Inv) (hcore : ¬ Asleep s.futexes core) {time : ℕ}
    {meanwhile : List (Addr × Word)} {req : Request Addr}
    (hhandle : s.handle core time meanwhile req = .ok (replies, s')) : s'.Inv := by
  by_cases hreq : req.Parted
  · exact (h.serve_of_handle hcore hreq hhandle).2
  · cases req with
    | wait | waitClockReal | wake | wakeOp => exact absurd trivial hreq
    | cmpRequeue addr1 val1 val2 addr2 val3 =>
      by_cases hval : s.memory addr1 = val3
      · subst hval
        obtain ⟨_, _, hhandle', hinv, -⟩ :=
          h.handle_cmpRequeue time hcore meanwhile addr1 val1 val2 addr2
        rw [hhandle] at hhandle'
        obtain ⟨-, rfl⟩ := Prod.mk.inj (ok.inj hhandle')
        exact hinv
      · simp only [Server.handle, if_pos (Ne.symm hval)] at hhandle
        obtain ⟨-, rfl⟩ := Prod.mk.inj (ok.inj hhandle)
        exact h.stores meanwhile

theorem Inv.act (h : s.Inv) {a : Action Core Addr} (hsends : s.Sends a) (hact : s.act a = .ok s') :
    s'.Inv := by
  cases a with
  | store addr value =>
    cases hact
    exact h.stores [(addr, value)]
  | request core time meanwhile req =>
    obtain ⟨r, hhandle, hact⟩ := Outcome.bind_eq_ok hact
    cases hact
    exact h.of_handle hsends hhandle

end Server

/-- The server with cores that store to memory and send requests. -/
def futexMachine (Core : Type) [DecidableEq Core] (memory : Addr → Word) :
    Machine (Server Core Addr) (Action Core Addr) FutexFault :=
  ⟨Server.start memory, Server.act⟩

theorem Server.Inv.of_reached {memory : Addr → Word} {s : Server Core Addr}
    (hs : (futexMachine Core memory).Reached Server.Sends s) : s.Inv :=
  hs.invariant (Server.start_inv memory) fun _ _ _ hinv hsends hact ↦ hinv.act hsends hact

/-- In every run, a caller of a futex call is told the number of cores that its request wakes or
moves, or that it fails, exactly if the request is `Countable`. -/
theorem futex_replies_right (memory : Addr → Word) {s : Server Core Addr}
    (hs : (futexMachine Core memory).Reached Server.Sends s) {core : Core}
    (hcore : ¬ Asleep s.futexes core) (time : ℕ) (meanwhile : List (Addr × Word))
    (req : Request Addr) : s.ReplyRight core time meanwhile req ↔ s.Countable req := by
  have h := Server.Inv.of_reached hs
  cases req with
  | wait | waitClockReal => exact .rfl
  | wake addr val => exact iff_of_true (h.replyRight_wake time hcore meanwhile addr val) trivial
  | wakeOp addr1 val1 val2 addr2 val3 =>
    exact iff_of_true (h.replyRight_wakeOp time hcore meanwhile addr1 val1 val2 addr2 val3) trivial
  | cmpRequeue addr1 val1 val2 addr2 val3 =>
    exact h.replyRight_cmpRequeue time hcore meanwhile addr1 val1 val2 addr2 val3

/-- Core 0 waits for word 0, and nothing else has happened. -/
theorem reached_sleeper : ∃ s : Server (Fin 2) (Fin 2),
    (futexMachine (Fin 2) fun _ ↦ 0).Reached Server.Sends s ∧ s.futexes 0 = [0] ∧
      s.futexes 1 = [] ∧ ∀ a, s.memory a = 0 := by
  have hsends : (Server.start fun _ ↦ 0 : Server (Fin 2) (Fin 2)).Sends
      (.request 0 0 [] (.wait 0 0)) := by
    rintro ⟨addr, hc⟩
    cases hc
  exact ⟨_, .step .start hsends rfl, rfl, rfl, fun _ ↦ rfl⟩

theorem awake_of_sleeper {s : Server (Fin 2) (Fin 2)} (h0 : s.futexes 0 = [0])
    (h1 : s.futexes 1 = []) : ¬ Asleep s.futexes 1 := by
  rintro ⟨addr, hc⟩
  match addr with
  | 0 =>
    rw [h0] at hc
    exact absurd hc (by decide)
  | 1 =>
    rw [h1] at hc
    cases hc

theorem futex_replies_right_moved : ∃ s : Server (Fin 2) (Fin 2),
    (futexMachine (Fin 2) fun _ ↦ 0).Reached Server.Sends s ∧ ¬ Asleep s.futexes 1 ∧
      s.ReplyRight 1 0 [] (.cmpRequeue 0 0 2 1 0) := by
  obtain ⟨s, hs, h0, h1, hmemory⟩ := reached_sleeper
  have hcore := awake_of_sleeper h0 h1
  refine ⟨s, hs, hcore, (futex_replies_right _ hs hcore 0 [] _).mpr ⟨hmemory 0, .inl ?_⟩⟩
  decide

/-- A caller that expects another value is told 11 waiters, and one that moves the only waiter
within its queue is told two. -/
theorem futex_replies_wrong : ∃ s : Server (Fin 2) (Fin 2),
    (futexMachine (Fin 2) fun _ ↦ 0).Reached Server.Sends s ∧ ¬ Asleep s.futexes 1 ∧
      ¬ s.ReplyRight 1 0 [] (.cmpRequeue 0 0 0 1 5) ∧
      ¬ s.ReplyRight 1 0 [] (.cmpRequeue 0 0 2 0 0) := by
  obtain ⟨s, hs, h0, h1, hmemory⟩ := reached_sleeper
  have hcore := awake_of_sleeper h0 h1
  have h := Server.Inv.of_reached hs
  refine ⟨s, hs, hcore, ?_, ?_⟩
  · rw [h.replyRight_cmpRequeue _ hcore]
    rintro ⟨hval, -⟩
    rw [hmemory] at hval
    exact absurd hval (by decide)
  · rw [h.replyRight_cmpRequeue _ hcore]
    rintro ⟨-, hsplit⟩
    rw [h0] at hsplit
    exact absurd hsplit (by decide)

end CarbonSim.Futex
