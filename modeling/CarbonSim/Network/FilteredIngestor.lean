import CarbonSim.Lib.Earliest
import CarbonSim.Lib.Outcome
import Mathlib.Data.Int.Notation

/-!
# The filtered receive of a tile

`Network::netRecvNonBlock` and the loop of `FilteredIngestor` over it. The queue is searched for the
earliest packet that matches; the packets that do not pass the filter are thrown away. If no packet
matches, the search ends with the end of the queue, and `netRecvNonBlock` copies the packet there:
`outside` is what is found in that memory.
-/

namespace CarbonSim.Ingest

open Earliest

open Earliest (First Selected IsBest closer)

/-- `core_id_t`. -/
structure CoreId where
  tileId : ℤ
  coreType : ℕ
  deriving DecidableEq, Repr

/-- `INVALID_CORE_ID`. -/
def invalidCoreId : CoreId := ⟨-1, 0⟩

/-- `NetPacket::BROADCAST`. -/
def broadcast : ℤ := (0xDEADBABE : BitVec 32).toInt

/-- `NUM_PACKET_TYPES`. -/
def numPacketTypes : ℕ := 24

/-- `Tile::getMainCoreId`. -/
def mainCoreId (tile : ℕ) : CoreId := ⟨tile, 0⟩

structure NetPacket (Data : Type) where
  time : ℕ
  type : ℕ
  sender : CoreId
  receiver : CoreId
  data : Data
  deriving DecidableEq, Repr

structure NetMatch where
  senders : List CoreId := []
  types : List ℕ := []
  receiver : CoreId := invalidCoreId

/-- The network of a tile, the clock of its core and the costs of the receive instructions that are
queued for it. `outsideReads` counts the packets copied from memory that is not in the queue. -/
structure Network (Data : Type) where
  coreId : CoreId
  numMod : ℕ
  netQueue : List (NetPacket Data)
  cycleCount : ℕ
  enabled : Bool
  pending : List ℕ
  outsideReads : ℕ
  deriving DecidableEq, Repr

namespace Network

variable {Data : Type}

/-- The senders that `NetRecvIterator` goes through. -/
def senders (net : Network Data) (m : NetMatch) : List CoreId :=
  if m.senders.isEmpty then (List.range net.numMod).map mainCoreId else m.senders

/-- The types that `NetRecvIterator` goes through. -/
def types (m : NetMatch) : List ℕ := if m.types.isEmpty then List.range numPacketTypes else m.types

/-- The core for which packets are received. -/
def receiver (net : Network Data) (m : NetMatch) : CoreId :=
  if m.receiver.tileId = -1 then net.coreId else m.receiver

/-- The body of the loop over the queue: `found` and the iterator to the earliest packet. -/
def examine (net : Network Data) (m : NetMatch) (i : ℕ) (packet : NetPacket Data)
    (best : Bool × Option (ℕ × NetPacket Data)) : Bool × Option (ℕ × NetPacket Data) :=
  if packet.receiver ≠ net.receiver m ∧ packet.receiver.tileId ≠ broadcast then best
  else (net.senders m).foldl (fun best sender ↦ if packet.sender ≠ sender then best
    else (types m).foldl (fun best type ↦ if packet.type ≠ type then best
      else (true, closer NetPacket.time best.2 i packet)) best) best

/-- The loop over the queue. -/
def search (net : Network Data) (m : NetMatch) :
    ℕ → Bool × Option (ℕ × NetPacket Data) → List (NetPacket Data) →
      Bool × Option (ℕ × NetPacket Data)
  | _, best, [] => best
  | i, best, packet :: rest => search net m (i + 1) (net.examine m i packet best) rest

/-- `queueDynamicInstruction` of the receive instruction for a packet, if it comes from the future. -/
def queueRecv (net : Network Data) (time : ℕ) : Network Data :=
  if time > net.cycleCount ∧ net.enabled = true then
    { net with pending := net.pending ++ [time - net.cycleCount] }
  else net

/-- `netRecvNonBlock`: the packet with `found`. The data of a packet that is not found are those of
a new message. -/
def netRecvNonBlock (net : Network Data) (outside : NetPacket Data) (empty : Data) (m : NetMatch) :
    (NetPacket Data × Bool) × Network Data :=
  let (found, itr) := net.search m 0 (false, none) net.netQueue
  let (packet, net) := match itr with
    | some (_, packet) => (packet, net)
    | none => (outside, { net with outsideReads := net.outsideReads + 1 })
  let net := match found, itr with
    | true, some (i, _) => { net with netQueue := net.netQueue.eraseIdx i }
    | _, _ => net
  let net := net.queueRecv packet.time
  if found = false then (({ packet with data := empty }, false), net) else ((packet, true), net)

end Network

/-- The filter of `FilteredIngestor`. -/
structure Filter where
  mask : BitVec 32
  operation : BitVec 32
  signature : BitVec 32

/-- What ends a receive without a packet. -/
inductive IngestFault
  /-- `THIS SHOULDN'T HAPPEN. BAD FILTER STATE`. -/
  | badFilterState
  /-- The loop has not ended. -/
  | unfinished
  deriving DecidableEq, Repr

section

variable {Data : Type} (getSignature : Data → BitVec 32)

/-- `passes_filter`. The operations are `ALL`, `NONE`, `AND`, `OR` and `XOR`. -/
def Filter.passesFilter (f : Filter) (packet : NetPacket Data) : Except IngestFault Bool :=
  if f.operation = 0 then .ok true
  else if f.operation = 1 then .ok false
  else
    let masked := getSignature packet.data &&& f.mask
    match f.operation.toNat with
    | 2 => .ok (masked &&& f.signature != 0)
    | 3 => .ok (masked ||| f.signature != 0)
    | 4 => .ok (masked ^^^ f.signature != 0)
    | _ => .error .badFilterState

/-- The loop of `receive_filtered` and `receive_filtered_from`, for a number of rounds. -/
def receiveLoop (outside : NetPacket Data) (empty : Data) (f : Filter) (m : NetMatch) :
    ℕ → Network Data → Except IngestFault ((NetPacket Data × Bool) × Network Data)
  | 0, _ => .error .unfinished
  | n + 1, net =>
    let ((packet, found), net) := net.netRecvNonBlock outside empty m
    if found = false then .ok ((packet, found), net)
    else do
      let passes ← f.passesFilter getSignature packet
      if passes then return ((packet, found), net)
      else receiveLoop outside empty f m n net

/-- The receive with a match. The queue gets shorter in each round but the last. -/
def receive (outside : NetPacket Data) (empty : Data) (f : Filter) (m : NetMatch)
    (net : Network Data) : Except IngestFault ((NetPacket Data × Bool) × Network Data) :=
  receiveLoop getSignature outside empty f m (net.netQueue.length + 1) net

/-- `receive_filtered`. -/
def receiveFiltered (outside : NetPacket Data) (empty : Data) (f : Filter) (type : ℕ)
    (net : Network Data) : Except IngestFault ((NetPacket Data × Bool) × Network Data) :=
  receive getSignature outside empty f { types := [type] } net

/-- `receive_filtered_from`. -/
def receiveFilteredFrom (outside : NetPacket Data) (empty : Data) (f : Filter) (src : CoreId)
    (type : ℕ) (net : Network Data) :
    Except IngestFault ((NetPacket Data × Bool) × Network Data) :=
  receive getSignature outside empty f { senders := [src], types := [type] } net

end

/-! ### The search -/

/-- A step that is taken for the entries that are the key, and is the same when taken again. -/
theorem foldl_ite {α β : Type} [DecidableEq α] (key : α) (g : β → β) (hg : ∀ x, g (g x) = g x)
    (l : List α) (x : β) :
    l.foldl (fun x a ↦ if key ≠ a then x else g x) x = if key ∈ l then g x else x := by
  induction l generalizing x with
  | nil => simp
  | cons a l ih =>
    rw [List.foldl_cons, ih]
    by_cases ha : key = a
    · simp [ha, hg]
    · simp [ha]

namespace Network

variable {Data : Type} {net : Network Data} {m : NetMatch}

/-- The packet matches. -/
def fits (net : Network Data) (m : NetMatch) (packet : NetPacket Data) : Bool :=
  (packet.receiver = net.receiver m || packet.receiver.tileId = broadcast) &&
    (net.senders m).contains packet.sender && (types m).contains packet.type

theorem examine_eq (net : Network Data) (m : NetMatch) (i : ℕ) (packet : NetPacket Data)
    (best : Bool × Option (ℕ × NetPacket Data)) :
    net.examine m i packet best =
      if net.fits m packet then (true, closer NetPacket.time best.2 i packet) else best := by
  have hidem (best : Bool × Option (ℕ × NetPacket Data)) :
      (true, closer NetPacket.time (closer NetPacket.time best.2 i packet) i packet) =
        (true, closer NetPacket.time best.2 i packet) := by
    rw [closer_closer]
  have htypes (best : Bool × Option (ℕ × NetPacket Data)) :=
    foldl_ite packet.type (fun best : Bool × Option (ℕ × NetPacket Data) ↦
      (true, closer NetPacket.time best.2 i packet)) hidem (types m) best
  have hsenders := foldl_ite packet.sender (fun best : Bool × Option (ℕ × NetPacket Data) ↦
    if packet.type ∈ types m then (true, closer NetPacket.time best.2 i packet) else best)
    (by intro best; split_ifs <;> simp [closer_closer]) (net.senders m) best
  simp only [examine, htypes, hsenders, fits]
  by_cases hreceiver : packet.receiver = net.receiver m
  · by_cases hsender : packet.sender ∈ net.senders m <;>
      by_cases htype : packet.type ∈ types m <;> simp [hreceiver, hsender, htype]
  · by_cases hbroadcast : packet.receiver.tileId = broadcast <;>
    by_cases hsender : packet.sender ∈ net.senders m <;>
      by_cases htype : packet.type ∈ types m <;> simp [hreceiver, hbroadcast, hsender, htype]

theorem search_eq (net : Network Data) (m : NetMatch) (i : ℕ)
    (itr : Option (ℕ × NetPacket Data)) (queue : List (NetPacket Data)) :
    net.search m i (itr.isSome, itr) queue =
      ((scan (net.fits m) NetPacket.time i itr queue).isSome,
        scan (net.fits m) NetPacket.time i itr queue) := by
  induction queue generalizing i itr with
  | nil => rfl
  | cons packet rest ih =>
    have hsome : (closer NetPacket.time itr i packet).isSome = true := by
      rcases itr with _ | ⟨j, best⟩
      · rfl
      · rw [closer]
        split_ifs <;> rfl
    rw [search, examine_eq, scan, ← ih]
    by_cases hfits : net.fits m packet = true
    · rw [if_pos hfits, if_pos hfits, hsome]
    · rw [if_neg hfits, if_neg hfits]

/-- No packet matches, or the earliest one that does is taken out of the queue. -/
theorem netRecvNonBlock_cases (net : Network Data) (m : NetMatch) (outside : NetPacket Data)
    (empty : Data) :
    ((∀ p ∈ net.netQueue, net.fits m p = false) ∧
      net.netRecvNonBlock outside empty m = (({ outside with data := empty }, false),
        queueRecv { net with outsideReads := net.outsideReads + 1 } outside.time)) ∨
    ∃ before packet after, net.netQueue = before ++ packet :: after ∧
      First (net.fits m) NetPacket.time before packet after ∧
      net.netRecvNonBlock outside empty m =
        ((packet, true), queueRecv { net with netQueue := before ++ after } packet.time) := by
  have hbest : IsBest (net.fits m) NetPacket.time net.netQueue _ := isBest_scan _
  have hsearch : net.search m 0 (false, none) net.netQueue = _ := net.search_eq m 0 none _
  rcases hscan : scan (net.fits m) NetPacket.time 0 none net.netQueue with _ | ⟨i, packet⟩
  · rw [hscan] at hbest hsearch
    refine .inl ⟨hbest, ?_⟩
    simp only [netRecvNonBlock, hsearch]
    rfl
  · rw [hscan] at hbest hsearch
    obtain ⟨before, after, hqueue, hlength, hfirst⟩ := hbest
    refine .inr ⟨before, packet, after, hqueue, hfirst, ?_⟩
    have herase : net.netQueue.eraseIdx i = before ++ after := by
      rw [hqueue, ← hlength, List.eraseIdx_append_of_length_le (Nat.le_refl _), Nat.sub_self]
      rfl
    simp only [netRecvNonBlock, hsearch, Option.isSome_some, herase]
    rfl

@[simp] theorem queueRecv_netQueue (time : ℕ) : (net.queueRecv time).netQueue = net.netQueue := by
  rw [queueRecv]
  split_ifs <;> rfl

@[simp] theorem queueRecv_outsideReads (time : ℕ) :
    (net.queueRecv time).outsideReads = net.outsideReads := by
  rw [queueRecv]
  split_ifs <;> rfl

@[simp] theorem queueRecv_fits (time : ℕ) : (net.queueRecv time).fits m = net.fits m := by
  rw [queueRecv]
  split_ifs <;> rfl

end Network

/-! ### The loop -/

section

variable {Data : Type} (getSignature : Data → BitVec 32)

/-- The operation is one of the enumeration. -/
def Filter.Known (f : Filter) : Prop := f.operation.toNat < 5

/-- The packet passes the filter. -/
def Filter.passes (f : Filter) (packet : NetPacket Data) : Bool :=
  f.passesFilter getSignature packet = .ok true

variable {getSignature} {f : Filter} {m : NetMatch} {net : Network Data}

theorem Filter.Known.passesFilter (h : f.Known) (packet : NetPacket Data) :
    f.passesFilter getSignature packet = .ok (f.passes getSignature packet) := by
  have hok : ∃ b, f.passesFilter getSignature packet = .ok b := by
    unfold Filter.passesFilter
    split_ifs with hall hnone
    · exact ⟨true, rfl⟩
    · exact ⟨false, rfl⟩
    · have hne0 : f.operation.toNat ≠ 0 := fun h0 ↦ hall (BitVec.eq_of_toNat_eq h0)
      have hne1 : f.operation.toNat ≠ 1 := fun h1 ↦ hnone (BitVec.eq_of_toNat_eq h1)
      have hcases : f.operation.toNat = 2 ∨ f.operation.toNat = 3 ∨ f.operation.toNat = 4 := by
        unfold Filter.Known at h
        omega
      rcases hcases with hop | hop | hop
      all_goals
        simp only [hop]
        exact ⟨_, rfl⟩
  obtain ⟨b, hb⟩ := hok
  cases b with
  | false | true => simp [Filter.passes, hb]

theorem Filter.passesFilter_of_not_known (h : ¬ f.Known) (packet : NetPacket Data) :
    f.passesFilter getSignature packet = .error .badFilterState := by
  unfold Filter.Known at h
  have hne (op : BitVec 32) (hop : op.toNat < 5) : f.operation ≠ op := by
    rintro rfl
    exact h hop
  rw [Filter.passesFilter, if_neg (hne 0 (by decide)), if_neg (hne 1 (by decide))]
  split
  · omega
  · omega
  · omega
  · rfl

/-- The loop ends. It returns the earliest packet that matches and passes, having thrown away the
matching packets before it, or it has found that no matching packet passes. -/
theorem receiveLoop_spec (getSignature : Data → BitVec 32) (m : NetMatch) (outside : NetPacket Data)
    (empty : Data) (hf : f.Known) (n : ℕ) (hn : net.netQueue.length < n) :
    ∃ packet found net', receiveLoop getSignature outside empty f m n net =
        .ok ((packet, found), net') ∧
      (found = true → Selected (net.fits m) (f.passes getSignature) NetPacket.time net.netQueue
        packet net'.netQueue) ∧
      (found = false → net'.netQueue = net.netQueue.filter (!net.fits m ·) ∧
        ∀ p ∈ net.netQueue, net.fits m p = true → f.passes getSignature p = false) := by
  induction n generalizing net with
  | zero => exact absurd hn (Nat.not_lt_zero _)
  | succ n ih =>
    rcases net.netRecvNonBlock_cases m outside empty with
      ⟨hnone, hrecv⟩ | ⟨before, packet, after, hqueue, hfirst, hrecv⟩
    · simp only [receiveLoop, hrecv]
      refine ⟨_, _, _, rfl, nofun, fun _ ↦ ⟨?_, fun p hp hfits ↦ ?_⟩⟩
      · rw [Network.queueRecv_netQueue]
        exact (List.filter_eq_self.mpr fun p hp ↦ by rw [hnone p hp]; rfl).symm
      · rw [hnone p hp] at hfits
        cases hfits
    · simp only [receiveLoop, hrecv, hf.passesFilter]
      cases hpasses : f.passes getSignature packet with
      | true =>
        refine ⟨packet, true, _, rfl, fun _ ↦ ?_, nofun⟩
        rw [hqueue, Network.queueRecv_netQueue]
        exact hfirst.selected hpasses
      | false =>
        have hshorter : (Network.queueRecv { net with netQueue := before ++ after }
            packet.time).netQueue.length < n := by
          rw [Network.queueRecv_netQueue]
          rw [hqueue, List.length_append, List.length_cons] at hn
          rw [List.length_append]
          omega
        obtain ⟨packet', found, net', hloop, hfound, hnone⟩ := ih hshorter
        refine ⟨packet', found, net', hloop, fun htrue ↦ ?_, fun hfalse ↦ ⟨?_, fun q hq hq' ↦ ?_⟩⟩
        · rw [hqueue]
          have hselected := hfound htrue
          rw [Network.queueRecv_netQueue, Network.queueRecv_fits] at hselected
          exact hselected.discard hfirst hpasses
        · rw [(hnone hfalse).1, Network.queueRecv_netQueue, Network.queueRecv_fits, hqueue]
          show (before ++ after).filter (!net.fits m ·) = _
          rw [List.filter_append, List.filter_append,
            List.filter_cons_of_neg (by rw [hfirst.isWanted]; decide)]
        · by_contra hgood
          rw [hqueue] at hq
          have hrest := mem_append_of_good hpasses hq (Bool.of_not_eq_false hgood)
          refine hgood ((hnone hfalse).2 q ?_ ?_)
          · rwa [Network.queueRecv_netQueue]
          · rwa [Network.queueRecv_fits]

variable (getSignature f m net) in
/-- The receive returns the earliest of the packets that match and pass, and throws away no others
than matching ones before it; if there is none, it says so and throws away the matching ones; and if
no packet matches, it leaves everything as it is and looks at nothing but the queue. -/
def ReceiveRight (outside : NetPacket Data) (empty : Data) : Prop :=
  ∃ packet found net', receive getSignature outside empty f m net = .ok ((packet, found), net') ∧
    ((∃ p ∈ net.netQueue, net.fits m p = true ∧ f.passes getSignature p = true) → found = true ∧
      Selected (net.fits m) (f.passes getSignature) NetPacket.time net.netQueue packet
        net'.netQueue) ∧
    ((∀ p ∈ net.netQueue, net.fits m p = true → f.passes getSignature p = false) → found = false ∧
      net'.netQueue = net.netQueue.filter (!net.fits m ·)) ∧
    ((∀ p ∈ net.netQueue, net.fits m p = false) → net' = net)

/-- The receive does what it should exactly if some packet matches and the operation of the filter
is known. -/
theorem receive_right (getSignature : Data → BitVec 32) (f : Filter) (m : NetMatch)
    (net : Network Data) (outside : NetPacket Data) (empty : Data) :
    ReceiveRight getSignature f m net outside empty ↔
      f.Known ∧ ∃ p ∈ net.netQueue, net.fits m p = true := by
  rcases net.netRecvNonBlock_cases m outside empty with
    ⟨hnone, hrecv⟩ | ⟨before, first, after, hqueue, hfirst, hrecv⟩
  · refine iff_of_false ?_ ?_
    · rintro ⟨packet, found, net', hreceive, -, -, hsame⟩
      rw [receive, receiveLoop, hrecv, hsame hnone] at hreceive
      have hreads := congrArg Network.outsideReads (Prod.mk.inj (Except.ok.inj hreceive)).2
      rw [Network.queueRecv_outsideReads] at hreads
      exact absurd hreads (Nat.succ_ne_self _)
    · rintro ⟨-, p, hp, hfits⟩
      rw [hnone p hp] at hfits
      cases hfits
  have hmem : first ∈ net.netQueue := hqueue ▸ List.mem_append_right before List.mem_cons_self
  by_cases hf : f.Known
  · refine iff_of_true ?_ ⟨hf, first, hmem, hfirst.isWanted⟩
    obtain ⟨packet, found, net', hloop, hfound, hnone⟩ :=
      receiveLoop_spec getSignature m outside empty hf _ (Nat.lt_succ_self net.netQueue.length)
    refine ⟨packet, found, net', hloop, ?_, ?_, ?_⟩
    · rintro ⟨q, hq, hq', hpasses⟩
      cases found with
      | false =>
        rw [(hnone rfl).2 q hq hq'] at hpasses
        cases hpasses
      | true => exact ⟨rfl, hfound rfl⟩
    · intro hall
      cases found with
      | false => exact ⟨rfl, (hnone rfl).1⟩
      | true =>
        obtain ⟨hmem, hboth⟩ := (hfound rfl).mem
        have hfails := hall packet hmem ((Bool.and_eq_true _ _).mp hboth).1
        rw [((Bool.and_eq_true _ _).mp hboth).2] at hfails
        cases hfails
    · intro hall
      have hfits := hfirst.isWanted
      rw [hall first hmem] at hfits
      cases hfits
  · refine iff_of_false ?_ fun hknown ↦ hf hknown.1
    rintro ⟨packet, found, net', hreceive, -⟩
    rw [receive, receiveLoop, hrecv] at hreceive
    simp only [Filter.passesFilter_of_not_known hf] at hreceive
    cases hreceive

end

/-- A tile that has received nothing. -/
def idleNetwork : Network (BitVec 32) :=
  { coreId := mainCoreId 0, numMod := 1, netQueue := [], cycleCount := 0, enabled := true,
    pending := [], outsideReads := 0 }

/-- With an empty queue and the filter that passes everything, whatever lies behind the queue is read
as a packet, and its time goes to the core. -/
theorem empty_queue_received :
    (receiveFiltered id ⟨7, 0, mainCoreId 0, mainCoreId 0, 0⟩ 0 ⟨0, 0, 0⟩ 1 idleNetwork =
        .ok ((⟨7, 0, mainCoreId 0, mainCoreId 0, 0⟩, false),
          { idleNetwork with pending := [7], outsideReads := 1 })) ∧
      ¬ ReceiveRight id ⟨0, 0, 0⟩ { types := [1] } idleNetwork
        ⟨7, 0, mainCoreId 0, mainCoreId 0, 0⟩ 0 := by
  have hreceive : receiveFiltered id ⟨7, 0, mainCoreId 0, mainCoreId 0, 0⟩ 0 ⟨0, 0, 0⟩ 1
      idleNetwork = .ok ((⟨7, 0, mainCoreId 0, mainCoreId 0, 0⟩, false),
        { idleNetwork with pending := [7], outsideReads := 1 }) := rfl
  refine ⟨hreceive, ?_⟩
  rintro ⟨packet, found, net', hreceive', -, -, hsame⟩
  rw [hsame nofun] at hreceive'
  have hnet := (Prod.mk.inj (Except.ok.inj (hreceive.symm.trans hreceive'))).2
  exact absurd (congrArg Network.outsideReads hnet) (by decide)

end CarbonSim.Ingest
