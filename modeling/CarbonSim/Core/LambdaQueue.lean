import CarbonSim.Lib.Outcome
import Mathlib.Algebra.GroupWithZero.Nat
import Mathlib.Data.Fintype.Basic
import Mathlib.Data.List.Lemmas

/-!
# Back-pressure of the lambda queues

`Core::coreSendW` and `Core::coreRecvW` with the two static arrays that they share. A broadcast
counts one packet for each receiver and sets `s_block_send` for the receivers whose count reaches
`LAMBDA_QUEUE_LENGTH - 4`. A receive counts one packet less before it waits for a packet of any
kind, so it has two steps here: the call, and its return with a packet that has arrived.

The counts and flags are those of a flow control per sender if and only if the schedule stays clear
of four situations (`backpressure_iff`).
-/

namespace CarbonSim.Core

open Function List

/-- `Core::MAX_CORES`. -/
def maxCores : ℕ := 65

instance : NeZero maxCores := ⟨by decide⟩

abbrev TileId := Fin maxCores

/-- `CAPI_ENDPOINT_ANY`. -/
def capiEndpointAny : ℕ := 0x20000000

inductive CoreFault
  /-- An access outside `s_rambda_buffer_count`. -/
  | arrayBounds
  /-- `coreRecvW`: the packet has not the size that was asked for. -/
  | messageSize
  deriving DecidableEq, Repr

/-- `carbon_network_t`. -/
inductive NetType
  | user1
  | user2
  deriving DecidableEq, Repr

/-- The receiver of a send. -/
inductive Receiver
  | all
  | tile (id : TileId)
  deriving DecidableEq, Repr

/-- The sender that a receive asks for. -/
inductive Sender
  | any
  | tile (id : TileId)
  deriving DecidableEq, Repr

/-- The argument `sender` of `coreRecvW`. -/
def Sender.index : Sender → ℕ
  | .any => capiEndpointAny
  | .tile id => id

structure Packet where
  isBroadcast : Bool
  type : NetType
  data : List UInt8
  deriving DecidableEq, Repr

/-- A call of `coreRecvW` that waits for a packet. -/
structure RecvCall where
  sender : TileId
  type : NetType
  size : ℕ
  deriving DecidableEq, Repr

structure Lambda where
  /-- `s_rambda_buffer_count`, by receiver and sender. -/
  bufferCount : TileId → TileId → ℤ
  /-- `s_block_send`. -/
  blockSend : TileId → Bool
  /-- The packets sent and not yet received, by sender and receiver. -/
  packets : TileId → TileId → List Packet
  /-- The receive in which the thread of a core is. -/
  call : TileId → Option RecvCall

open Lambda

def Lambda.initial : Lambda :=
  ⟨fun _ _ ↦ 0, fun _ ↦ false, fun _ _ ↦ [], fun _ ↦ none⟩

/-- Write to an array of two dimensions. -/
def write {α : Type} (a : TileId → TileId → α) (i j : TileId) (x : α) : TileId → TileId → α :=
  update a i (update (a i) j x)

theorem write_apply {α : Type} (a : TileId → TileId → α) (i j : TileId) (x : α) (i' j' : TileId) :
    write a i j x i' j' = if i' = i ∧ j' = j then x else a i' j' := by
  unfold write
  by_cases hi : i' = i
  · subst hi
    by_cases hj : j' = j <;> simp [hj]
  · simp [hi]

/-! ### Sending -/

/-- The body of the loop of a broadcast, for receiver `i`. `length` is `LAMBDA_QUEUE_LENGTH`. -/
def Lambda.countPacket (length : ℤ) (sender : TileId) (s : Lambda) (i : TileId) : Lambda :=
  let count := s.bufferCount i sender + 1
  { s with
    bufferCount := write s.bufferCount i sender count
    blockSend := if count ≥ length - 4 then update s.blockSend i true else s.blockSend }

def Lambda.netSend (s : Lambda) (sender receiver : TileId) (packet : Packet) : Lambda :=
  { s with packets := write s.packets sender receiver (s.packets sender receiver ++ [packet]) }

def Lambda.netBroadcast (s : Lambda) (sender : TileId) (packet : Packet) : Lambda :=
  { s with packets := update s.packets sender fun i ↦ s.packets sender i ++ [packet] }

/-- `coreSendW`, with its return value. -/
def Lambda.coreSendW (length : ℤ) (s : Lambda) (sender : TileId) (receiver : Receiver)
    (data : List UInt8) (type : NetType) : ℤ × Lambda :=
  match receiver with
  | .all =>
    if s.blockSend sender then (-1, s)
    else
      let s := (List.finRange maxCores).foldl (countPacket length sender) s
      (0, s.netBroadcast sender ⟨true, type, data⟩)
  | .tile id => (0, s.netSend sender id ⟨false, type, data⟩)

/-! ### Receiving -/

/-- `coreRecvW` up to the point where it waits for a packet. -/
def Lambda.coreRecvW (length : ℤ) (s : Lambda) (sender : Sender) (receiver : TileId) (size : ℕ)
    (type : NetType) : Except CoreFault Lambda :=
  if h : sender.index < maxCores then
    let sender : TileId := ⟨sender.index, h⟩
    let count := s.bufferCount receiver sender - 1
    .ok { s with
      bufferCount := write s.bufferCount receiver sender count
      blockSend := if count = length - 4 - 1 then update s.blockSend sender false else s.blockSend
      call := update s.call receiver (some ⟨sender, type, size⟩) }
  else .error .arrayBounds

/-- The rest of `coreRecvW`, with the packet that `netRecv` returns. -/
def Lambda.finishRecv (s : Lambda) (receiver : TileId) (call : RecvCall) (i : ℕ) (packet : Packet) :
    Except CoreFault Lambda := do
  require (call.size = packet.data.length) .messageSize
  return { s with
    packets := write s.packets call.sender receiver ((s.packets call.sender receiver).eraseIdx i)
    call := update s.call receiver none }

/-! ### Interleavings -/

inductive Act
  | send (sender : TileId) (receiver : Receiver) (data : List UInt8) (type : NetType)
  | recv (sender : Sender) (receiver : TileId) (size : ℕ) (type : NetType)
  /-- `netRecv` of the receiver finds the packet at position `i` of those from the sender. -/
  | arrive (receiver : TileId) (i : ℕ)
  deriving DecidableEq, Repr

/-- A core that waits for a packet does not make another call, and a wait goes on until there is a
packet of the right type. -/
def Lambda.step (length : ℤ) (s : Lambda) : Act → Except CoreFault Lambda
  | .send sender receiver data type =>
    match s.call sender with
    | none => .ok (s.coreSendW length sender receiver data type).2
    | some _ => .ok s
  | .recv sender receiver size type =>
    match s.call receiver with
    | none => s.coreRecvW length sender receiver size type
    | some _ => .ok s
  | .arrive receiver i =>
    match s.call receiver with
    | none => .ok s
    | some call =>
      match (s.packets call.sender receiver)[i]? with
      | none => .ok s
      | some packet =>
        if packet.type = call.type then s.finishRecv receiver call i packet else .ok s

/-! ### Flow control -/

/-- The broadcasts of `t` that `r` has not received. -/
def Lambda.unreceived (s : Lambda) (r t : TileId) : ℕ :=
  (s.packets t r).countP Packet.isBroadcast

/-- The packet for which `r` waits, if it is to come from `t`. -/
def Lambda.claimed (s : Lambda) (r t : TileId) : ℤ :=
  if (s.call r).map RecvCall.sender = some t then 1 else 0

/-- How full the queue of `r` is with packets of `t`. -/
def Lambda.fill (s : Lambda) (r t : TileId) : ℤ := s.unreceived r t - s.claimed r t

/-- A broadcast that the call can return has arrived. -/
def Lambda.AtHand (s : Lambda) (r : TileId) (call : RecvCall) : Prop :=
  ∃ packet ∈ s.packets call.sender r, packet.type = call.type ∧ packet.isBroadcast = true

/-- The count is the number of broadcasts that have not been received; a receive does not wait, and
the broadcast that it is about to return is not counted any more. The counts are bounded, and the
flags say which senders have a queue that is almost full. -/
structure Exact (length : ℤ) (s : Lambda) : Prop where
  count : ∀ r t, (s.call r).map RecvCall.sender ≠ some t → s.bufferCount r t = s.unreceived r t
  taking : ∀ r call, s.call r = some call →
    s.bufferCount r call.sender = s.unreceived r call.sender - 1 ∧ s.AtHand r call
  bound : ∀ r t, s.bufferCount r t ≤ length
  refused : ∀ t, s.blockSend t = true ↔ ∃ r, s.bufferCount r t ≥ length - 4

theorem Exact.count_fill {length : ℤ} {s : Lambda} (h : Exact length s) (r t : TileId) :
    s.bufferCount r t = s.fill r t := by
  unfold fill claimed
  split_ifs with hcall
  · obtain ⟨call, hr, rfl⟩ := Option.map_eq_some_iff.mp hcall
    exact (h.taking r call hr).1
  · rw [h.count r t hcall, Int.sub_zero]

theorem Exact.of_fill {length : ℤ} {s : Lambda} (hcount : ∀ r t, s.bufferCount r t = s.fill r t)
    (hhand : ∀ r call, s.call r = some call → s.AtHand r call)
    (hbound : ∀ r t, s.bufferCount r t ≤ length)
    (hrefused : ∀ t, s.blockSend t = true ↔ ∃ r, s.bufferCount r t ≥ length - 4) :
    Exact length s where
  count r t hcall := by rw [hcount, fill, claimed, if_neg hcall, Int.sub_zero]
  taking r call hcall := by
    refine ⟨?_, hhand r call hcall⟩
    rw [hcount, fill, claimed, hcall]
    exact congrArg _ (if_pos rfl)
  bound := hbound
  refused := hrefused

/-- Some queue is almost full with packets of `t`. -/
def Lambda.Full (length : ℤ) (s : Lambda) (t : TileId) : Prop := ∃ r, s.fill r t ≥ length - 4

/-- The act keeps the counts and the flags exact. -/
def Lambda.Calm (length : ℤ) (s : Lambda) : Act → Prop
  | .send t .all _ _ =>
    -- a broadcast that fills a queue fills that of its sender, and no queue of another core
    -- unless that core is refused already
    s.call t = none → ¬ s.Full length t →
      (∀ i, i ≠ t → s.fill i t + 1 ≥ length - 4 → s.Full length i) ∧
      ((∃ i, s.fill i t + 1 ≥ length - 4) → s.fill t t + 1 ≥ length - 4)
  | .send _ (.tile _) _ _ => True
  | .recv sender r size type =>
    -- a receive names its sender and finds a broadcast, and if it makes room in a queue all others
    -- have room
    s.call r = none → ∃ t, sender = .tile t ∧ s.AtHand r ⟨t, type, size⟩ ∧
      (s.fill r t - 1 = length - 4 - 1 → ∀ i, i ≠ r → s.fill i t < length - 4)
  | .arrive r i =>
    -- the packet of a receive is a broadcast
    ∀ call packet, s.call r = some call → (s.packets call.sender r)[i]? = some packet →
      packet.type = call.type → call.size = packet.data.length → packet.isBroadcast = true

/-- No access is out of bounds, and the counts and flags are exact in every state. -/
def Backpressure (length : ℤ) : Lambda → List Act → Prop
  | s, [] => Exact length s
  | s, act :: acts => Exact length s ∧
    match s.step length act with
    | .ok s' => Backpressure length s' acts
    | .error .arrayBounds => False
    | .error .messageSize => True

/-- Every act of the schedule is calm. -/
def CalmRun (length : ℤ) : Lambda → List Act → Prop
  | _, [] => True
  | s, act :: acts => s.Calm length act ∧
    match s.step length act with
    | .ok s' => CalmRun length s' acts
    | .error _ => True

/-! ### One act -/

section Act

variable {length : ℤ} {s : Lambda} {r : TileId} {call : RecvCall} {s' : Lambda}

/-- The loop of a broadcast. -/
theorem foldl_countPacket (length : ℤ) (sender : TileId) (l : List TileId) (hl : l.Nodup)
    (s : Lambda) :
    (∀ r t, (l.foldl (countPacket length sender) s).bufferCount r t =
      s.bufferCount r t + if r ∈ l ∧ t = sender then 1 else 0) ∧
    (∀ i, (l.foldl (countPacket length sender) s).blockSend i = true ↔
      s.blockSend i = true ∨ i ∈ l ∧ s.bufferCount i sender + 1 ≥ length - 4) ∧
    (l.foldl (countPacket length sender) s).packets = s.packets ∧
    (l.foldl (countPacket length sender) s).call = s.call := by
  induction l generalizing s with
  | nil => simp
  | cons a l ih =>
    obtain ⟨hcount, hblock, hpackets, hcall⟩ := ih hl.of_cons (s.countPacket length sender a)
    have ha : a ∉ l := (nodup_cons.mp hl).1
    have hcountA (r t : TileId) : (s.countPacket length sender a).bufferCount r t =
        s.bufferCount r t + if r = a ∧ t = sender then 1 else 0 := by
      simp only [countPacket, write_apply]
      split_ifs with h
      · rw [h.1, h.2]
      · exact (Int.add_zero _).symm
    refine ⟨fun r t ↦ ?_, fun i ↦ ?_, hpackets, hcall⟩
    · rw [foldl_cons, hcount, hcountA]
      by_cases hr : r = a
      · subst hr
        simp [ha]
      · simp [hr]
    · rw [foldl_cons, hblock, hcountA]
      by_cases hi : i = a
      · subst hi
        simp only [countPacket, ha, false_and, or_false, mem_cons_self, true_and]
        split_ifs with hfull <;> simp [hfull]
      · have hsame : (s.countPacket length sender a).blockSend i = s.blockSend i := by
          simp only [countPacket]
          split_ifs
          · exact update_of_ne hi _ _
          · rfl
        simp [hsame, hi]

theorem Exact.full_iff (h : Exact length s) (t : TileId) :
    s.blockSend t = true ↔ s.Full length t := by
  rw [h.refused]
  simp only [h.count_fill]
  rfl

/-- What a broadcast that is not refused does. -/
theorem broadcast_facts (length : ℤ) (s : Lambda) (t : TileId) (packet : Packet)
    (hpacket : packet.isBroadcast = true) :
    let s' := ((List.finRange maxCores).foldl (countPacket length t) s).netBroadcast t packet
    (∀ r t', s'.bufferCount r t' = s.bufferCount r t' + if t' = t then 1 else 0) ∧
      (∀ i, s'.blockSend i = true ↔ s.blockSend i = true ∨ s.bufferCount i t + 1 ≥ length - 4) ∧
      (∀ r t', s'.fill r t' = s.fill r t' + if t' = t then 1 else 0) ∧
      s'.call = s.call ∧ ∀ r call, s.AtHand r call → s'.AtHand r call := by
  obtain ⟨hcount, hblock, hpackets, hcall⟩ :=
    foldl_countPacket length t (List.finRange maxCores) (nodup_finRange _) s
  refine ⟨fun r t' ↦ ?_, fun i ↦ ?_, fun r t' ↦ ?_, hcall, ?_⟩
  · simpa [netBroadcast] using hcount r t'
  · simpa [netBroadcast] using hblock i
  · simp only [fill, unreceived, claimed, netBroadcast, hpackets, hcall]
    by_cases ht : t' = t
    · subst ht
      simp only [update_self, countP_append, countP_singleton, hpacket, if_true]
      omega
    · simp [ht]
  · rintro r call ⟨p, hp, hmatch⟩
    refine ⟨p, ?_, hmatch⟩
    simp only [netBroadcast, hpackets]
    by_cases ht : call.sender = t
    · rw [ht, update_self, ← ht]
      exact mem_append_left _ hp
    · rw [update_of_ne ht]
      exact hp

theorem Exact.broadcast_iff (h : Exact length s) {t : TileId} (hfull : ¬ s.Full length t)
    (packet : Packet) (hpacket : packet.isBroadcast = true) :
    Exact length (((List.finRange maxCores).foldl (countPacket length t) s).netBroadcast t packet) ↔
      (∀ i, i ≠ t → s.fill i t + 1 ≥ length - 4 → s.Full length i) ∧
      ((∃ i, s.fill i t + 1 ≥ length - 4) → s.fill t t + 1 ≥ length - 4) := by
  obtain ⟨hcount, hblock, hfill, hcall, hhand⟩ := broadcast_facts length s t packet hpacket
  have hroom (r : TileId) : s.fill r t < length - 4 := by
    by_contra hge
    exact hfull ⟨r, by omega⟩
  have hopen : ¬ s.blockSend t = true := fun hb ↦ hfull ((h.full_iff t).mp hb)
  constructor
  · intro h'
    constructor
    · intro i hi hreach
      have hflag := (hblock i).mpr (.inr (by rw [h.count_fill]; exact hreach))
      obtain ⟨r, hr⟩ := (h'.refused i).mp hflag
      rw [hcount, if_neg hi, h.count_fill] at hr
      exact ⟨r, by omega⟩
    · rintro ⟨i, hi⟩
      have hflag : _ = true :=
      (h'.refused t).mpr ⟨i, by rw [hcount, if_pos rfl, h.count_fill]; exact hi⟩
      rcases (hblock t).mp hflag with hb | hreach
      · exact absurd hb hopen
      · rw [h.count_fill] at hreach
        exact hreach
  · rintro ⟨hothers, hown⟩
    refine .of_fill ?_ (fun r call hr ↦ hhand r call (h.taking r call (hcall ▸ hr)).2) ?_ ?_
    · intro r t'
      rw [hcount, hfill, h.count_fill]
    · intro r t'
      rw [hcount]
      split_ifs with ht
      · subst ht
        have := hroom r
        rw [h.count_fill]
        omega
      · have := h.bound r t'
        omega
    · intro t'
      rw [hblock]
      simp only [hcount, h.count_fill]
      by_cases ht : t' = t
      · subst ht
        simp only [if_true]
        constructor
        · rintro (hb | hreach)
          · exact absurd hb hopen
          · exact ⟨t', hreach⟩
        · intro hreach
          exact .inr (hown hreach)
      · simp only [ht, if_false, Int.add_zero]
        rw [h.full_iff]
        constructor
        · rintro (hb | hreach)
          · exact hb
          · exact hothers t' ht hreach
        · intro hb
          exact .inl hb

/-- A packet that is not a broadcast leaves the counts exact. -/
theorem Exact.unicast (h : Exact length s) (t r : TileId) (packet : Packet)
    (hpacket : packet.isBroadcast = false) : Exact length (s.netSend t r packet) := by
  have hfill (r' t' : TileId) : (s.netSend t r packet).fill r' t' = s.fill r' t' := by
    have hunreceived : (s.netSend t r packet).unreceived r' t' = s.unreceived r' t' := by
      simp only [unreceived, Lambda.netSend, write_apply]
      split_ifs with heq
      · obtain ⟨rfl, rfl⟩ := heq
        simp [countP_append, hpacket]
      · rfl
    unfold fill
    rw [hunreceived]
    rfl
  refine .of_fill (fun r' t' ↦ ?_) (fun r' call hcall ↦ ?_) h.bound h.refused
  · rw [hfill]
    exact h.count_fill r' t'
  · obtain ⟨p, hp, hmatch⟩ := (h.taking r' call hcall).2
    refine ⟨p, ?_, hmatch⟩
    simp only [Lambda.netSend, write_apply]
    split_ifs with heq
    · rw [heq.1, heq.2] at hp
      exact mem_append_left _ hp
    · exact hp

/-- What a receive that names its sender does before it waits. -/
theorem recv_facts (length : ℤ) (s : Lambda) (t : TileId) (hcall : s.call r = none) (size : ℕ)
    (type : NetType) :
    ∃ s', s.coreRecvW length (.tile t) r size type = .ok s' ∧ (∀ r' t', s'.bufferCount r' t' =
        s.bufferCount r' t' - if r' = r ∧ t' = t then 1 else 0) ∧
      (∀ i, s'.blockSend i = true ↔
        s.blockSend i = true ∧ ¬ (i = t ∧ s.bufferCount r t - 1 = length - 4 - 1)) ∧
      (∀ r' t', s'.fill r' t' = s.fill r' t' - if r' = r ∧ t' = t then 1 else 0) ∧
      s'.packets = s.packets ∧ s'.call = update s.call r (some ⟨t, type, size⟩) := by
  refine ⟨_, dif_pos t.isLt, fun r' t' ↦ ?_, fun i ↦ ?_, fun r' t' ↦ ?_, rfl, rfl⟩
  · show write s.bufferCount r t (s.bufferCount r t - 1) r' t' = _
    rw [write_apply]
    split_ifs with h
    · rw [h.1, h.2]
    · exact (Int.sub_zero _).symm
  · show (if s.bufferCount r t - 1 = length - 4 - 1 then update s.blockSend t false
      else s.blockSend) i = true ↔ _
    by_cases hlast : s.bufferCount r t - 1 = length - 4 - 1
    · rw [if_pos hlast]
      by_cases hi : i = t
      · subst hi
        simp [hlast]
      · simp [hi]
    · simp [hlast]
  · show (s.unreceived r' t' : ℤ) -
        (if (update s.call r (some ⟨t, type, size⟩) r').map RecvCall.sender = some t'
          then 1 else 0) =
      s.unreceived r' t' - (if (s.call r').map RecvCall.sender = some t' then 1 else 0) - _
    by_cases hr : r' = r
    · subst hr
      rw [update_self, hcall]
      by_cases ht : t' = t
      · subst ht
        simp
      · simp [ht, Ne.symm ht]
    · simp [hr]

/-- A receive keeps the counts and flags exact if it does not wait, and no queue stays almost full
when it clears the flag. -/
theorem Exact.recv_iff (h : Exact length s) {r t : TileId} {size : ℕ} {type : NetType}
    (hcount : ∀ r' t', s'.bufferCount r' t' =
      s.bufferCount r' t' - if r' = r ∧ t' = t then 1 else 0) (hblock : ∀ i, s'.blockSend i = true ↔
      s.blockSend i = true ∧ ¬ (i = t ∧ s.bufferCount r t - 1 = length - 4 - 1))
    (hfill : ∀ r' t', s'.fill r' t' = s.fill r' t' - if r' = r ∧ t' = t then 1 else 0)
    (hpackets : s'.packets = s.packets) (hcall : s'.call = update s.call r (some ⟨t, type, size⟩)) :
    Exact length s' ↔ s.AtHand r ⟨t, type, size⟩ ∧
      (s.fill r t - 1 = length - 4 - 1 → ∀ i, i ≠ r → s.fill i t < length - 4) := by
  have hhand : ∀ r' call, s'.AtHand r' call ↔ s.AtHand r' call := fun r' call ↦ by
    unfold AtHand
    rw [hpackets]
  constructor
  · intro h'
    refine ⟨(hhand r _).mp (h'.taking r _ (by rw [hcall, update_self])).2, fun hlast i hi ↦ ?_⟩
    by_contra hge
    -- the flag of the sender is cleared, and a queue is almost full
    have hflag := (h'.refused t).mpr ⟨i, by
      rw [hcount, if_neg fun hri ↦ hi hri.1, h.count_fill]
      omega⟩
    exact ((hblock t).mp hflag).2 ⟨rfl, by rw [h.count_fill]; exact hlast⟩
  · rintro ⟨hbroadcast, hroom⟩
    refine .of_fill ?_ (fun r' call hr ↦ (hhand r' call).mpr ?_) ?_ ?_
    · intro r' t'
      rw [hcount, hfill, h.count_fill]
    · rw [hcall, update_apply] at hr
      split_ifs at hr with heq
      · rw [heq, ← Option.some.inj hr]
        exact hbroadcast
      · exact (h.taking r' call hr).2
    · intro r' t'
      rw [hcount]
      have hbound := h.bound r' t'
      split_ifs <;> omega
    · intro t'
      rw [hblock, h.refused]
      simp only [hcount]
      by_cases ht : t' = t
      · subst ht
        constructor
        · rintro ⟨⟨i, hi⟩, hnot⟩
          by_cases hir : i = r
          · subst hir
            have hne : s.bufferCount i t' - 1 ≠ length - 4 - 1 := fun heq ↦ hnot ⟨rfl, heq⟩
            refine ⟨i, ?_⟩
            omega
          · refine ⟨i, ?_⟩
            rw [if_neg fun hri ↦ hir hri.1]
            omega
        · rintro ⟨i, hi⟩
          constructor
          · refine ⟨i, ?_⟩
            split_ifs at hi <;> omega
          · rintro ⟨-, hlast⟩
            by_cases hir : i = r
            · subst hir
              rw [if_pos ⟨rfl, rfl⟩] at hi
              omega
            · rw [if_neg fun hri ↦ hir hri.1, h.count_fill] at hi
              rw [h.count_fill] at hlast
              have hlt := hroom hlast i hir
              omega
      · simp [ht]

/-- The return of a receive keeps the counts exact if the packet is a broadcast. -/
theorem Exact.arrive_iff (h : Exact length s) {i : ℕ} {packet : Packet}
    (hcall : s.call r = some call) (hpacket : (s.packets call.sender r)[i]? = some packet)
    (hs' : s' = { s with
      packets := write s.packets call.sender r ((s.packets call.sender r).eraseIdx i)
      call := update s.call r none }) : Exact length s' ↔ packet.isBroadcast = true := by
  have hperm : (packet :: (s.packets call.sender r).eraseIdx i).Perm (s.packets call.sender r) := by
    obtain ⟨hi, hget⟩ := List.getElem?_eq_some_iff.mp hpacket
    rw [← hget]
    exact getElem_cons_eraseIdx_perm hi
  have hunreceived := hperm.countP_eq Packet.isBroadcast
  have hfill (r' t' : TileId) : s'.fill r' t' = s.fill r' t' +
      if r' = r ∧ t' = call.sender ∧ packet.isBroadcast = false then 1 else 0 := by
    have hclaimed : s'.claimed r' t' = if r' = r then 0 else s.claimed r' t' := by
      rw [hs']
      by_cases hr : r' = r <;> simp [claimed, hr]
    have hpackets : s'.packets t' r' = if t' = call.sender ∧ r' = r then
        (s.packets call.sender r).eraseIdx i else s.packets t' r' := by
      rw [hs', ← write_apply]
    simp only [fill, unreceived, hclaimed, hpackets]
    by_cases hr : r' = r
    · subst hr
      have hbefore : s.claimed r' t' = if call.sender = t' then 1 else 0 := by
        simp [claimed, hcall]
      rw [hbefore]
      by_cases ht : t' = call.sender
      · subst ht
        cases hb : packet.isBroadcast
        all_goals
          simp [hb] at hunreceived ⊢
          omega
      · simp [ht, Ne.symm ht]
    · simp [hr]
  have hcount : s'.bufferCount = s.bufferCount := by rw [hs']
  have hblock : s'.blockSend = s.blockSend := by rw [hs']
  constructor
  · intro h'
    by_contra hb
    have heq := h'.count_fill r call.sender
    rw [hfill, if_pos ⟨rfl, rfl, by simpa using hb⟩, hcount, h.count_fill] at heq
    omega
  · intro hb
    refine .of_fill (fun r' t' ↦ ?_) (fun r' call' hcall' ↦ ?_) ?_ ?_
    · rw [hfill, hcount, h.count_fill]
      simp [hb]
    · -- the receives of the other cores still have their broadcasts
      have hr : r' ≠ r := by
        rintro rfl
        simp [hs'] at hcall'
      have hcall : s.call r' = some call' := by simpa [hs', hr] using hcall'
      obtain ⟨p, hp, hmatch⟩ := (h.taking r' call' hcall).2
      refine ⟨p, ?_, hmatch⟩
      simpa [hs', write_apply, hr] using hp
    · rw [hcount]
      exact h.bound
    · rw [hcount, hblock]
      exact h.refused

theorem calm_arrive_iff {i : ℕ} (hcall : s.call r = some call) :
    s.Calm length (.arrive r i) ↔ ∀ packet, (s.packets call.sender r)[i]? = some packet →
      packet.type = call.type → call.size = packet.data.length → packet.isBroadcast = true := by
  constructor
  · exact fun hcalm packet ↦ hcalm call packet hcall
  · intro hcalm call' packet hcall'
    rw [hcall] at hcall'
    obtain rfl := Option.some.inj hcall'
    exact hcalm packet

/-- An act keeps the counts and the flags exact if and only if it is calm. -/
theorem Exact.step_iff (h : Exact length s) (act : Act) :
    (match s.step length act with
      | .ok s' => Exact length s'
      | .error .arrayBounds => False
      | .error .messageSize => True) ↔ s.Calm length act := by
  cases act with
  | send t receiver data type =>
    cases hcall : s.call t with
    | some call =>
      cases receiver <;> simp [step, Calm, hcall, h]
    | none =>
      cases receiver with
      | tile id =>
        -- a packet to one core is not counted
        simp only [step, hcall, Lambda.coreSendW, Calm, iff_true]
        exact h.unicast t id _ rfl
      | all =>
        simp only [step, hcall, Lambda.coreSendW, Calm, true_implies]
        by_cases hfull : s.Full length t
        · have hflag := (h.full_iff t).mpr hfull
          simp [hflag, hfull, h]
        · have hflag : ¬ s.blockSend t = true := fun hb ↦ hfull ((h.full_iff t).mp hb)
          simp only [if_neg hflag, hfull, not_false_eq_true, true_implies]
          exact h.broadcast_iff hfull _ rfl
  | recv sender r size type =>
    cases hcall : s.call r with
    | some call => simp [step, Calm, hcall, h]
    | none =>
      simp only [step, hcall, Calm, true_implies]
      cases sender with
      | any =>
        have hbounds : s.coreRecvW length .any r size type = .error .arrayBounds := by
          unfold Lambda.coreRecvW
          exact dif_neg (by decide)
        simp [hbounds]
      | tile t =>
        obtain ⟨s', hrecv, hcount, hblock, hfill, hpackets, hcall'⟩ :=
          recv_facts length s t hcall size type
        rw [hrecv]
        simpa using h.recv_iff hcount hblock hfill hpackets hcall'
  | arrive r i =>
    cases hcall : s.call r with
    | none => simp [step, Calm, hcall, h]
    | some call =>
      rw [calm_arrive_iff hcall]
      cases hpacket : (s.packets call.sender r)[i]? with
      | none => simp [step, hcall, hpacket, h]
      | some packet =>
        by_cases htype : packet.type = call.type
        · by_cases hsize : call.size = packet.data.length
          · have hfinish := h.arrive_iff hcall hpacket rfl
            simp only [step, hcall, hpacket, htype, if_true, Lambda.finishRecv, require,
              hsize, Option.some.injEq, forall_eq', true_implies]
            exact hfinish
          · simp only [step, hcall, hpacket, htype, if_true, Lambda.finishRecv, require,
              hsize, if_false, Option.some.injEq, forall_eq', true_implies, false_implies, iff_true]
            trivial
        · simp [step, hcall, hpacket, htype, h]

end Act

/-! ### Schedules -/

theorem exact_initial_iff (length : ℤ) : Exact length initial ↔ 4 < length := by
  constructor
  · intro h
    by_contra hle
    have hflag := (h.refused 0).mpr ⟨0, by
      show (0 : ℤ) ≥ length - 4
      omega⟩
    cases hflag
  · intro hlength
    refine .of_fill (fun r t ↦ rfl) nofun ?_ ?_
    · intro r t
      show (0 : ℤ) ≤ length
      omega
    · intro t
      constructor
      · intro hflag
        cases hflag
      · rintro ⟨r, hr⟩
        have hzero : (0 : ℤ) ≥ length - 4 := hr
        omega

theorem Backpressure.exact {length : ℤ} {s : Lambda} {acts : List Act}
    (h : Backpressure length s acts) : Exact length s := by
  cases acts with
  | nil => exact h
  | cons act acts => exact h.1

theorem backpressure_of_exact {length : ℤ} {s : Lambda} (h : Exact length s) (acts : List Act) :
    Backpressure length s acts ↔ CalmRun length s acts := by
  induction acts generalizing s with
  | nil => simp [Backpressure, CalmRun, h]
  | cons act acts ih =>
    have hstep := h.step_iff act
    unfold Backpressure CalmRun
    rw [← hstep]
    cases hs' : s.step length act with
    | error e => cases e <;> simp [h]
    | ok s' =>
      simp only [h, true_and]
      constructor
      · exact fun hrest ↦ ⟨hrest.exact, (ih hrest.exact).mp hrest⟩
      · rintro ⟨hexact, hrest⟩
        exact (ih hexact).mpr hrest

/-- In every schedule of sends and receives the accesses are in bounds and the counts and flags are
those of a flow control per sender if and only if the lambda queue is longer than 4 and each act is
calm. -/
theorem backpressure_iff (length : ℤ) (acts : List Act) :
    Backpressure length initial acts ↔ 4 < length ∧ CalmRun length initial acts := by
  constructor
  · exact fun h ↦ ⟨(exact_initial_iff length).mp h.exact, (backpressure_of_exact h.exact acts).mp h⟩
  · rintro ⟨hlength, hcalm⟩
    exact (backpressure_of_exact ((exact_initial_iff length).mpr hlength) acts).mpr hcalm

/-- Run a schedule. -/
def Lambda.exec (length : ℤ) (s : Lambda) (acts : List Act) : Except CoreFault Lambda :=
  acts.foldlM (step length) s

/-- A receive from any sender is out of bounds. A packet sent to one core and received makes the
count negative. With a queue length of 5, one broadcast of core 0 makes the next one of core 1 be
refused, although core 1 has sent nothing. -/
theorem backpressure_fails :
    initial.exec 100 [.recv .any 1 0 .user1] = .error .arrayBounds ∧
    (initial.exec 100 [.send 0 (.tile 1) [] .user1, .recv (.tile 0) 1 0 .user1, .arrive 1 0]).map
        (fun s ↦ (s.bufferCount 1 0, s.unreceived 1 0, s.call 1)) = .ok (-1, 0, none) ∧
    (initial.exec 5 [.send 0 .all [] .user1]).map
        (fun s ↦ ((s.coreSendW 5 1 .all [] .user1).1, decide (∀ r, s.bufferCount r 1 = 0))) =
      .ok (-1, true) := by
  refine ⟨rfl, ?_, ?_⟩
  · decide +kernel
  · decide +kernel

end CarbonSim.Core
