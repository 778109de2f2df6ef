import CarbonSim.Transport.SockTransport

/-!
# Delivery over the socket transport

For each pair of processes, what the update thread has read of a stream is the beginning of the packets
written to it, and the buffers that came to a tag from there are the data of those packets with that
tag, in the order in which they were written.
-/

namespace CarbonSim.Transport

open Function List

/-- The packets that are written to a socket: barrier messages to the next process, and messages for
one of the lists. -/
structure SockConfig.Carries (cfg : SockConfig) (p q : ℕ) (pkt : Packet) : Prop where
  fits : pkt.Fits
  src : p < cfg.ring.procs
  sort : (pkt.tag = barrierTag ∧ q = cfg.ring.next p) ∨
    (pkt.tag ≠ barrierTag ∧ pkt.tag ≠ terminateTag ∧ (cfg.listIndex pkt.tag).isSome = true)

namespace SockState

variable (cfg : SockConfig) (s : SockState)

/-- The packets that the update thread of `q` has not read from the socket of `p`. -/
def remaining (p q : ℕ) : List Packet := (s.sentRemote p q).drop (s.taken p q)

def unread (p q : ℕ) : List UInt8 := s.readable p q ++ s.flight p q

/-- The update thread of a process is inside a packet of one socket only. -/
def readerFor (q p : ℕ) : Framing.Reader UInt8 Stage :=
  if s.socket q = p then s.reader q else packetFormat.idle

/-- The buffers that have come to a tag, those first that `recv` has returned. -/
def arrived (q t : ℕ) : List Entry := s.received q t ++ s.lists q t

/-- The data of the packets for a list. -/
def dataFor (t : ℕ) (pkts : List Packet) : List (List UInt8) :=
  (pkts.filter (cfg.listIndex ·.tag = some t)).map Packet.data

/-- The buffers from a source. -/
def buffersFrom (src : Option ℕ) (entries : List Entry) : List (List UInt8) :=
  (entries.filter (·.src = src)).map Entry.buffer

structure Inv : Prop where
  carries : ∀ p q, ∀ pkt ∈ s.sentRemote p q, cfg.Carries p q pkt
  reads : ∀ p q, packetFormat.Reads Packet.encode (s.readerFor q p) (s.unread p q) (s.remaining p q)
  taken : ∀ p q, s.taken p q ≤ (s.sentRemote p q).length
  remote : ∀ p q t, buffersFrom (some p) (s.arrived q t) =
    dataFor cfg t ((s.sentRemote p q).take (s.taken p q))
  within : ∀ q t, buffersFrom none (s.arrived q t) = dataFor cfg t (s.sentLocal q)
  counts : ∀ q t, (s.lists q t).length = s.sem q t + s.woken q t + s.unsignalled q t
  socket : ∀ q, s.socket q < cfg.ring.procs

variable {cfg s} {s' : SockState} {pkt : Packet} {entry : Entry} {q t : ℕ} {src : Option ℕ}

theorem inv_start (cfg : SockConfig) : Inv cfg start where
  carries _ _ _ hmem := absurd hmem not_mem_nil
  reads p q := by
    have hidle : start.readerFor q p = packetFormat.idle := ite_self _
    rw [hidle]
    exact Framing.reads_idle (by decide)
  taken _ _ := Nat.le_refl 0
  remote _ _ _ := rfl
  within _ _ := rfl
  counts _ _ := rfl
  socket _ := cfg.ring.procs_pos

theorem buffersFrom_append (src : Option ℕ) (l l' : List Entry) :
    buffersFrom src (l ++ l') = buffersFrom src l ++ buffersFrom src l' := by
  unfold buffersFrom
  rw [filter_append, map_append]

theorem dataFor_append (t : ℕ) (l l' : List Packet) :
    dataFor cfg t (l ++ l') = dataFor cfg t l ++ dataFor cfg t l' := by
  unfold dataFor
  rw [filter_append, map_append]

theorem dataFor_singleton_of_eq {t : ℕ} (h : cfg.listIndex pkt.tag = some t) :
    dataFor cfg t [pkt] = [pkt.data] := by
  unfold dataFor
  rw [filter_cons_of_pos (by simpa using h)]
  rfl

theorem dataFor_singleton_of_ne {t : ℕ} (h : cfg.listIndex pkt.tag ≠ some t) :
    dataFor cfg t [pkt] = [] := by
  unfold dataFor
  rw [filter_cons_of_neg (by simpa using h)]
  rfl

theorem buffersFrom_singleton_self (src : Option ℕ) (buffer : List UInt8) :
    buffersFrom src [⟨src, buffer⟩] = [buffer] := by
  unfold buffersFrom
  rw [filter_cons_of_pos (by simp)]
  rfl

theorem buffersFrom_singleton_of_ne {src src' : Option ℕ} (h : src' ≠ src) (buffer : List UInt8) :
    buffersFrom src [⟨src', buffer⟩] = [] := by
  unfold buffersFrom
  rw [filter_cons_of_neg (by simpa using h)]
  rfl

/-! ### Buffers are added -/

/-- A buffer comes to a list. -/
structure Added (s s' : SockState) (q t : ℕ) (entry : Entry) : Prop where
  lists : s'.lists = set₂ s.lists q t (s.lists q t ++ [entry])
  unsignalled : s'.unsignalled = set₂ s.unsignalled q t (s.unsignalled q t + 1)
  received : s'.received = s.received
  sem : s'.sem = s.sem
  woken : s'.woken = s.woken

theorem Added.arrived_self (h : Added s s' q t entry) :
    s'.arrived q t = s.arrived q t ++ [entry] := by
  unfold arrived
  rw [h.received, h.lists, set₂_self, append_assoc]

theorem Added.arrived_of_ne {q t q' t' : ℕ} (h : Added s s' q t entry) (hne : ¬ (q' = q ∧ t' = t)) :
    s'.arrived q' t' = s.arrived q' t' := by
  unfold arrived
  rw [h.received, h.lists, set₂_of_ne _ _ hne]

theorem Added.counts (h : Added s s' q t entry)
    (hcounts : ∀ q t, (s.lists q t).length = s.sem q t + s.woken q t + s.unsignalled q t)
    (q' t' : ℕ) :
    (s'.lists q' t').length = s'.sem q' t' + s'.woken q' t' + s'.unsignalled q' t' := by
  rw [h.lists, h.sem, h.woken, h.unsignalled]
  by_cases heq : q' = q ∧ t' = t
  · obtain ⟨rfl, rfl⟩ := heq
    rw [set₂_self, set₂_self, length_append, hcounts]
    rfl
  · rw [set₂_of_ne _ _ heq, set₂_of_ne _ _ heq]
    exact hcounts q' t'

/-- The buffers of a source after one was added. -/
theorem Added.buffersFrom (h : Added s s' q t ⟨src, pkt.data⟩)
    (htag : cfg.listIndex pkt.tag = some t) (t' : ℕ) :
    buffersFrom src (s'.arrived q t') = buffersFrom src (s.arrived q t') ++ dataFor cfg t' [pkt] := by
  by_cases ht : t' = t
  · subst ht
    rw [h.arrived_self, buffersFrom_append, buffersFrom_singleton_self, dataFor_singleton_of_eq htag]
  · have hne : cfg.listIndex pkt.tag ≠ some t' := fun heq ↦
      ht (Option.some.inj (heq.symm.trans htag))
    rw [h.arrived_of_ne fun hpair ↦ ht hpair.2, dataFor_singleton_of_ne hne, append_nil]

/-- The buffers of the other sources and processes stay. -/
theorem Added.buffersFrom_other {q t q' : ℕ} (h : Added s s' q t entry)
    (hne : q' ≠ q ∨ entry.src ≠ src) (t' : ℕ) :
    SockState.buffersFrom src (s'.arrived q' t') = SockState.buffersFrom src (s.arrived q' t') := by
  by_cases heq : q' = q ∧ t' = t
  · obtain ⟨rfl, rfl⟩ := heq
    rw [h.arrived_self, buffersFrom_append,
      buffersFrom_singleton_of_ne (hne.resolve_left fun hq ↦ hq rfl), append_nil]
  · rw [h.arrived_of_ne heq]

/-! ### Sending -/

theorem insert_spec (s : SockState) (q : ℕ) (tag : ℤ) (entry : Entry) :
    Outcome (s.insertInBufferList cfg q tag entry)
      (fun s' ↦ ∃ t, cfg.listIndex tag = some t ∧ Added s s' q t entry ∧ s'.flight = s.flight ∧
        s'.readable = s.readable ∧ s'.socket = s.socket ∧ s'.reader = s.reader ∧
        s'.sentRemote = s.sentRemote ∧ s'.sentLocal = s.sentLocal ∧ s'.taken = s.taken)
      fun fault ↦ fault = .unexpectedTag ∧ cfg.listIndex tag = none :=
  .fetch_bind (fun t ht ↦ ⟨t, ht, ⟨rfl, rfl, rfl, rfl, rfl⟩, rfl, rfl, rfl, rfl, rfl, rfl, rfl⟩)
    fun hnone ↦ ⟨rfl, hnone⟩

theorem listIndex_tile {tile : ℕ} (h : tile < cfg.totalTiles) :
    cfg.listIndex tile = some tile := by
  have hglobal : (tile : ℤ) ≠ globalTag := by
    unfold globalTag
    omega
  unfold SockConfig.listIndex
  rw [if_neg hglobal, if_pos ⟨by omega, by omega⟩]
  rfl

theorem listIndex_global : cfg.listIndex globalTag = some cfg.totalTiles := if_pos rfl

theorem listIndex_barrier : cfg.listIndex barrierTag = none := by
  have hneg : ¬ (0 ≤ barrierTag ∧ barrierTag < cfg.totalTiles + 1) := fun h ↦ absurd h.1 (by decide)
  unfold SockConfig.listIndex
  rw [if_neg (by decide), if_neg hneg]

/-- A packet for a tile or a global node. -/
def Addressed (cfg : SockConfig) (tag : ℤ) : Prop :=
  tag = globalTag ∨ ∃ tile < cfg.totalTiles, tag = (tile : ℤ)

theorem Addressed.listIndex {tag : ℤ} (h : Addressed cfg tag) :
    (cfg.listIndex tag).isSome = true := by
  rcases h with rfl | ⟨tile, htile, rfl⟩
  · rfl
  · rw [listIndex_tile htile]
    rfl

theorem Addressed.carries (h : Addressed cfg pkt.tag) (hpos : 0 < pkt.data.length)
    (hshort : 8 + pkt.data.length < 2 ^ 31) {p : ℕ} (hp : p < cfg.ring.procs) (q : ℕ) :
    cfg.Carries p q pkt := by
  have htiles := cfg.totalTiles_lt
  have hrange : -1 ≤ pkt.tag ∧ pkt.tag < 2 ^ 31 := by
    rcases h with heq | ⟨tile, htile, heq⟩ <;> rw [heq]
    · decide
    · exact ⟨by omega, by omega⟩
  refine ⟨⟨hpos, by omega, by omega, hrange.2⟩, hp, .inr ⟨fun heq ↦ ?_, fun heq ↦ ?_, h.listIndex⟩⟩
  all_goals
    rw [heq] at hrange
    exact absurd hrange.1 (by decide)

theorem carries_barrier {p : ℕ} (hp : p < cfg.ring.procs) :
    cfg.Carries p (cfg.ring.next p) ⟨barrierTag, [0, 0, 0, 0]⟩ :=
  ⟨⟨by decide, by decide, by decide, by decide⟩, hp, .inl ⟨rfl, rfl⟩⟩

/-- A packet is written to a socket. -/
theorem Inv.write (h : Inv cfg s) {src dst : ℕ} (hpkt : cfg.Carries src dst pkt) :
    Inv cfg (s.write src dst pkt) := by
  have hflight : ∀ p q, ¬ (p = src ∧ q = dst) → (s.write src dst pkt).flight p q = s.flight p q :=
    fun p q hne ↦ set₂_of_ne _ _ hne
  have hsent : ∀ p q, ¬ (p = src ∧ q = dst) →
      (s.write src dst pkt).sentRemote p q = s.sentRemote p q := fun p q hne ↦ set₂_of_ne _ _ hne
  have hflight' : (s.write src dst pkt).flight src dst = s.flight src dst ++ pkt.encode :=
    set₂_self ..
  have hsent' : (s.write src dst pkt).sentRemote src dst = s.sentRemote src dst ++ [pkt] :=
    set₂_self ..
  refine ⟨fun p q pkt' hmem ↦ ?_, fun p q ↦ ?_, fun p q ↦ ?_, fun p q t ↦ ?_, h.within, h.counts, h.socket⟩
  · by_cases heq : p = src ∧ q = dst
    · obtain ⟨rfl, rfl⟩ := heq
      rw [hsent'] at hmem
      rcases mem_append.mp hmem with hmem | hmem
      · exact h.carries p q pkt' hmem
      · rw [mem_singleton.mp hmem]
        exact hpkt
    · rw [hsent p q heq] at hmem
      exact h.carries p q pkt' hmem
  · have hreads := h.reads p q
    show packetFormat.Reads Packet.encode (s.readerFor q p)
      (s.readable p q ++ (s.write src dst pkt).flight p q)
      (((s.write src dst pkt).sentRemote p q).drop (s.taken p q))
    by_cases heq : p = src ∧ q = dst
    · obtain ⟨rfl, rfl⟩ := heq
      rw [hflight', hsent', drop_append_of_le_length (h.taken p q), ← append_assoc]
      exact hreads.send hpkt.fits.parses
    · rw [hflight p q heq, hsent p q heq]
      exact hreads
  · by_cases heq : p = src ∧ q = dst
    · obtain ⟨rfl, rfl⟩ := heq
      rw [hsent', length_append]
      exact Nat.le_add_right_of_le (h.taken p q)
    · rw [hsent p q heq]
      exact h.taken p q
  · show buffersFrom (some p) (s.arrived q t) =
      dataFor cfg t (((s.write src dst pkt).sentRemote p q).take (s.taken p q))
    by_cases heq : p = src ∧ q = dst
    · obtain ⟨rfl, rfl⟩ := heq
      rw [hsent', take_append_of_le_length (h.taken p q)]
      exact h.remote p q t
    · rw [hsent p q heq]
      exact h.remote p q t

theorem Inv.sendPacket (h : Inv cfg s) {src dst : ℕ} (hsrc : src < cfg.ring.procs)
    (htag : Addressed cfg pkt.tag) (hpos : 0 < pkt.data.length)
    (hshort : dst ≠ src → 8 + pkt.data.length < 2 ^ 31) :
    Outcome (s.sendPacket cfg src dst pkt) (Inv cfg) fun _ ↦ False := by
  unfold SockState.sendPacket
  by_cases hlocal : dst = src
  · rw [if_pos hlocal]
    refine (insert_spec _ src pkt.tag ⟨none, pkt.data⟩).mono ?_ fun fault ⟨_, hnone⟩ ↦ ?_
    · rintro s' ⟨t, ht, hadded, hflight, hreadable, hsocket, hreader, hremote, hsent, htaken⟩
      have hself : (s.logLocal src pkt).sentLocal src = s.sentLocal src ++ [pkt] := update_self ..
      refine ⟨?_, fun p q ↦ ?_, ?_, fun p q t' ↦ ?_, fun q t' ↦ ?_, hadded.counts h.counts,
        hsocket ▸ h.socket⟩
      · rw [hremote]
        exact h.carries
      · unfold readerFor unread remaining
        rw [hflight, hreadable, hsocket, hreader, hremote, htaken]
        exact h.reads p q
      · rw [hremote, htaken]
        exact h.taken
      · have hother : (⟨none, pkt.data⟩ : Entry).src ≠ some p := nofun
        rw [hremote, htaken, hadded.buffersFrom_other (.inr hother) t']
        exact h.remote p q t'
      · rw [hsent]
        by_cases hq : q = src
        · rw [hq, hadded.buffersFrom ht t', hself, dataFor_append]
          exact congrArg (· ++ _) (h.within src t')
        · have hsame : (s.logLocal src pkt).sentLocal q = s.sentLocal q := update_of_ne hq ..
          rw [hadded.buffersFrom_other (.inl hq) t', hsame]
          exact h.within q t'
    · have hsome := htag.listIndex
      rw [hnone] at hsome
      cases hsome
  · rw [if_neg hlocal]
    refine .require_bind (fun _ ↦ ?_) fun hlong ↦ hlong (hshort hlocal)
    exact h.write (htag.carries hpos (hshort hlocal) hsrc dst)

/-! ### The update thread -/

theorem Inv.arrive (h : Inv cfg s) (src dst n : ℕ) :
    Outcome (s.arrive src dst n) (Inv cfg) fun fault ↦ fault = .disabled := by
  refine .require_bind (fun _ ↦ ?_) fun _ ↦ rfl
  refine ⟨h.carries, fun p q ↦ ?_, h.taken, h.remote, h.within, h.counts, h.socket⟩
  have hreads := h.reads p q
  unfold unread at hreads
  show packetFormat.Reads Packet.encode (s.readerFor q p)
    (set₂ s.readable src dst (s.readable src dst ++ (s.flight src dst).take n) p q ++
      set₂ s.flight src dst ((s.flight src dst).drop n) p q) (s.remaining p q)
  by_cases heq : p = src ∧ q = dst
  · obtain ⟨rfl, rfl⟩ := heq
    rw [set₂_self, set₂_self, append_assoc, take_append_drop]
    exact hreads
  · rw [set₂_of_ne _ _ heq, set₂_of_ne _ _ heq]
    exact hreads

theorem Inv.poll (h : Inv cfg s) (q : ℕ) :
    Outcome (s.poll cfg q) (Inv cfg) fun fault ↦ fault = .disabled := by
  refine .require_bind (fun ⟨hstage, hgot, _⟩ ↦ ?_) fun _ ↦ rfl
  have hidle : s.reader q = packetFormat.idle := by
    cases hreader : s.reader q with
    | mk stage got =>
      rw [hreader] at hstage hgot
      cases hstage
      cases hgot
      rfl
  refine ⟨h.carries, fun p q' ↦ ?_, h.taken, h.remote, h.within, h.counts, fun q' ↦ ?_⟩
  swap
  · show update s.socket q (cfg.ring.next (s.socket q)) q' < cfg.ring.procs
    rw [update_apply]
    split_ifs
    · exact Ring.next_lt _
    · exact h.socket q'
  have hreads := h.reads p q'
  -- between two packets the update thread has nothing of any socket
  have hsame : readerFor { s with
      socket := update s.socket q (cfg.ring.next (s.socket q)) } q' p = s.readerFor q' p := by
    unfold readerFor
    by_cases hq : q' = q
    · subst hq
      rw [hidle]
      split_ifs <;> rfl
    · show (if update s.socket q _ q' = p then _ else _) = _
      rw [update_of_ne hq]
  rw [hsame]
  exact hreads

/-- The reads of the other streams go on. -/
theorem Inv.reads_other (h : Inv cfg s) {q n p q' : ℕ} (hne : ¬ (p = s.socket q ∧ q' = q)) :
    packetFormat.Reads Packet.encode ((s.take q n).readerFor q' p) ((s.take q n).unread p q')
      (s.remaining p q') := by
  have hreads := h.reads p q'
  have hunread : (s.take q n).unread p q' = s.unread p q' := by
    unfold unread
    show set₂ s.readable (s.socket q) q _ p q' ++ s.flight p q' = _
    rw [set₂_of_ne _ _ hne]
  have hreader : (s.take q n).readerFor q' p = s.readerFor q' p := by
    unfold readerFor
    show (if s.socket q' = p then update s.reader q _ q' else _) = _
    by_cases hq : q' = q
    · subst hq
      have hsocket : s.socket q' ≠ p := fun heq ↦ hne ⟨heq.symm, rfl⟩
      rw [if_neg hsocket, if_neg hsocket]
    · rw [update_of_ne hq]
  rw [hunread, hreader]
  exact hreads

theorem readerFor_socket (s : SockState) (q : ℕ) : s.readerFor q (s.socket q) = s.reader q :=
  if_pos rfl

/-- What a piece does to the stream that the update thread is at. -/
theorem Inv.feed (h : Inv cfg s) {q n : ℕ} (hpos : 0 < n) (hle : n ≤ (s.incoming q).length)
    (hfit : (s.reader q).got.length + n ≤ packetFormat.want (s.reader q).stage) :
    ((packetFormat.feed (s.reader q) ((s.incoming q).take n)).2 = none ∧
      packetFormat.Reads Packet.encode (packetFormat.feed (s.reader q) ((s.incoming q).take n)).1
        ((s.take q n).unread (s.socket q) q) (s.remaining (s.socket q) q)) ∨
    ∃ pkt rest, s.remaining (s.socket q) q = pkt :: rest ∧
      packetFormat.feed (s.reader q) ((s.incoming q).take n) = (packetFormat.idle, some pkt) ∧
      packetFormat.Reads Packet.encode packetFormat.idle ((s.take q n).unread (s.socket q) q) rest := by
  have hreads := h.reads (s.socket q) q
  rw [readerFor_socket] at hreads
  have hunread : s.unread (s.socket q) q =
      (s.incoming q).take n ++ (s.take q n).unread (s.socket q) q := by
    unfold unread
    show _ = _ ++ (set₂ s.readable (s.socket q) q _ (s.socket q) q ++ s.flight (s.socket q) q)
    rw [set₂_self, ← append_assoc, take_append_drop]
    rfl
  rw [hunread] at hreads
  have hlength : ((s.incoming q).take n).length = n := length_take_of_le hle
  have hpiece : (s.incoming q).take n ≠ [] := by
    intro hnil
    rw [hnil] at hlength
    exact absurd hlength (Nat.ne_of_lt hpos)
  refine hreads.feed (by decide) (fun pkt hmem ↦ ?_) hpiece (hlength.symm ▸ hfit)
  exact (h.carries _ _ pkt (mem_of_mem_drop hmem)).fits.parses

/-- The invariant after a piece that does not complete a packet. -/
theorem Inv.take (h : Inv cfg s) {q n : ℕ} (hreads : packetFormat.Reads Packet.encode
      (packetFormat.feed (s.reader q) ((s.incoming q).take n)).1
      ((s.take q n).unread (s.socket q) q) (s.remaining (s.socket q) q)) : Inv cfg (s.take q n) := by
  refine ⟨h.carries, fun p q' ↦ ?_, h.taken, h.remote, h.within, h.counts, h.socket⟩
  by_cases heq : p = s.socket q ∧ q' = q
  · obtain ⟨rfl, rfl⟩ := heq
    have hreader : (s.take q' n).readerFor q' (s.socket q') =
        (packetFormat.feed (s.reader q') ((s.incoming q').take n)).1 := by
      unfold readerFor
      show (if s.socket q' = s.socket q' then update s.reader q' _ q' else _) = _
      rw [if_pos rfl, update_self]
    rw [hreader]
    exact hreads
  · exact h.reads_other heq

/-- What of the state a packet that has been read changes, apart from the place that it goes to. -/
structure Read (s s' : SockState) (q n : ℕ) : Prop where
  flight : s'.flight = s.flight
  readable : s'.readable = (s.take q n).readable
  socket : s'.socket = s.socket
  reader : s'.reader = (s.take q n).reader
  sentRemote : s'.sentRemote = s.sentRemote
  sentLocal : s'.sentLocal = s.sentLocal
  taken : s'.taken = (s.takeLast q n).taken

/-- The invariant after a packet has been read and has gone to its place. -/
theorem Inv.read (h : Inv cfg s) {q n : ℕ} {rest : List Packet}
    (hremaining : s.remaining (s.socket q) q = pkt :: rest)
    (hfeed : packetFormat.feed (s.reader q) ((s.incoming q).take n) = (packetFormat.idle, some pkt))
    (hreads : packetFormat.Reads Packet.encode packetFormat.idle
      ((s.take q n).unread (s.socket q) q) rest) (hread : Read s s' q n)
    (hfrom : ∀ t, buffersFrom (some (s.socket q)) (s'.arrived q t) =
      buffersFrom (some (s.socket q)) (s.arrived q t) ++ dataFor cfg t [pkt])
    (hother : ∀ src q' t, (q' ≠ q ∨ some (s.socket q) ≠ src) →
      buffersFrom src (s'.arrived q' t) = buffersFrom src (s.arrived q' t))
    (hcounts : ∀ q t, (s'.lists q t).length = s'.sem q t + s'.woken q t + s'.unsignalled q t) :
    Inv cfg s' := by
  have hself : s'.taken (s.socket q) q = s.taken (s.socket q) q + 1 := by
    rw [hread.taken]
    exact set₂_self ..
  have hne : ∀ p q', ¬ (p = s.socket q ∧ q' = q) → s'.taken p q' = s.taken p q' := by
    intro p q' hne
    rw [hread.taken]
    exact set₂_of_ne _ _ hne
  have hunread : ∀ p q', s'.unread p q' = (s.take q n).unread p q' := by
    intro p q'
    unfold unread
    rw [hread.flight, hread.readable]
    rfl
  have hreader : ∀ p q', s'.readerFor q' p = (s.take q n).readerFor q' p := by
    intro p q'
    unfold readerFor
    rw [hread.socket, hread.reader]
    rfl
  refine ⟨?_, fun p q' ↦ ?_, fun p q' ↦ ?_, fun p q' t ↦ ?_, fun q' t ↦ ?_, hcounts,
    hread.socket ▸ h.socket⟩
  · rw [hread.sentRemote]
    exact h.carries
  · rw [hunread, hreader]
    unfold remaining
    rw [hread.sentRemote]
    by_cases heq : p = s.socket q ∧ q' = q
    · obtain ⟨rfl, rfl⟩ := heq
      have hidle : (s.take q' n).readerFor q' (s.socket q') = packetFormat.idle := by
        unfold readerFor
        show (if s.socket q' = s.socket q' then update s.reader q' _ q' else _) = _
        rw [if_pos rfl, update_self, hfeed]
      rw [hidle, hself, ← tail_drop]
      unfold remaining at hremaining
      rw [hremaining]
      exact hreads
    · rw [hne p q' heq]
      exact h.reads_other heq
  · rw [hread.sentRemote]
    by_cases heq : p = s.socket q ∧ q' = q
    · obtain ⟨rfl, rfl⟩ := heq
      have hlength := congrArg List.length hremaining
      unfold remaining at hlength
      rw [length_drop, length_cons] at hlength
      omega
    · rw [hne p q' heq]
      exact h.taken p q'
  · rw [hread.sentRemote]
    by_cases heq : p = s.socket q ∧ q' = q
    · obtain ⟨rfl, rfl⟩ := heq
      unfold remaining at hremaining
      rw [hfrom t, hself, take_add_one, ← head?_drop, hremaining, h.remote, dataFor_append]
      rfl
    · rw [hne p q' heq, hother (some p) q' t ?_]
      · exact h.remote p q' t
      · by_cases hq : q' = q
        · exact .inr fun hsrc ↦ heq ⟨(Option.some.inj hsrc).symm, hq⟩
        · exact .inl hq
  · rw [hread.sentLocal, hother none q' t (.inr nofun)]
    exact h.within q' t

/-! ### Receiving -/

section

variable (h : Inv cfg s)

include h

theorem Inv.recvBytes (q n : ℕ) :
    Outcome (s.recvBytes cfg q n) (Inv cfg) fun fault ↦ fault = .disabled ∧
      ¬ (0 < n ∧ n ≤ (s.incoming q).length ∧
        (s.reader q).got.length + n ≤ packetFormat.want (s.reader q).stage) := by
  refine .require_bind (fun ⟨hpos, hle, hfit⟩ ↦ ?_) fun hnot ↦ ⟨rfl, hnot⟩
  rcases h.feed hpos hle hfit with ⟨hnone, hreads⟩ | ⟨pkt, rest, hremaining, hfeed, hreads⟩
  · rw [hnone]
    exact h.take hreads
  · rw [hfeed]
    have hmem : pkt ∈ s.sentRemote (s.socket q) q := by
      refine mem_of_mem_drop (i := s.taken (s.socket q) q) ?_
      show pkt ∈ s.remaining (s.socket q) q
      rw [hremaining]
      exact mem_cons_self
    show Outcome ((s.takeLast q n).dispatch cfg q pkt) _ _
    unfold dispatch
    rcases (h.carries _ _ pkt hmem).sort with ⟨hbarrier, hnext⟩ | ⟨hbarrier, hterm, hindex⟩
    · rw [if_neg (hbarrier ▸ by decide), if_pos hbarrier]
      refine .require_bind (fun _ ↦ ?_) fun hprev ↦ absurd ?_ hprev
      · have hnone : ∀ t, dataFor cfg t [pkt] = [] := fun t ↦
          dataFor_singleton_of_ne (by rw [hbarrier, listIndex_barrier]; exact nofun)
        refine h.read hremaining hfeed hreads ⟨rfl, rfl, rfl, rfl, rfl, rfl, rfl⟩ (fun t ↦ ?_)
          (fun _ _ _ _ ↦ rfl) h.counts
        rw [hnone t, append_nil]
        rfl
      · exact ((congrArg cfg.ring.prev hnext).trans (Ring.prev_next (h.socket q))).symm
    · rw [if_neg hterm, if_neg hbarrier]
      refine (insert_spec (s.takeLast q n) q pkt.tag ⟨some (s.socket q), pkt.data⟩).mono ?_ ?_
      · rintro s' ⟨t, ht, hadded, hflight, hreadable, hsocket, hreader, hremote, hsent, htaken⟩
        refine h.read hremaining hfeed hreads
          ⟨hflight, hreadable, hsocket, hreader, hremote, hsent, htaken⟩ (fun t' ↦ ?_)
          (fun src q' t' hne ↦ ?_) (hadded.counts h.counts)
        · rw [hadded.buffersFrom ht t']
          rfl
        · rw [hadded.buffersFrom_other hne t']
          rfl
      · rintro fault ⟨-, hnone⟩
        rw [hnone] at hindex
        cases hindex

theorem Inv.signal (q t : ℕ) :
    Outcome (s.signal q t) (Inv cfg) fun fault ↦ fault = .disabled := by
  refine .require_bind (fun hpos ↦ ?_) fun _ ↦ rfl
  refine ⟨h.carries, h.reads, h.taken, h.remote, h.within, fun q' t' ↦ ?_, h.socket⟩
  have hcounts := h.counts q' t'
  show (s.lists q' t').length = set₂ s.sem q t _ q' t' + s.woken q' t' + set₂ s.unsignalled q t _ q' t'
  by_cases heq : q' = q ∧ t' = t
  · obtain ⟨rfl, rfl⟩ := heq
    rw [set₂_self, set₂_self]
    omega
  · rw [set₂_of_ne _ _ heq, set₂_of_ne _ _ heq]
    exact hcounts

theorem Inv.wait (q t : ℕ) :
    Outcome (s.wait q t) (Inv cfg) fun fault ↦ fault = .disabled := by
  refine .require_bind (fun hpos ↦ ?_) fun _ ↦ rfl
  refine ⟨h.carries, h.reads, h.taken, h.remote, h.within, fun q' t' ↦ ?_, h.socket⟩
  have hcounts := h.counts q' t'
  show (s.lists q' t').length = set₂ s.sem q t _ q' t' + set₂ s.woken q t _ q' t' + s.unsignalled q' t'
  by_cases heq : q' = q ∧ t' = t
  · obtain ⟨rfl, rfl⟩ := heq
    rw [set₂_self, set₂_self]
    omega
  · rw [set₂_of_ne _ _ heq, set₂_of_ne _ _ heq]
    exact hcounts

theorem Inv.pop (q t : ℕ) :
    Outcome (s.pop q t) (Inv cfg) fun fault ↦ fault = .disabled := by
  refine .require_bind (fun hpos ↦ ?_) fun _ ↦ rfl
  have hcount := h.counts q t
  cases hlist : s.lists q t with
  | nil =>
    rw [hlist, length_nil] at hcount
    omega
  | cons entry rest =>
    -- the buffer goes from the list to the end of those returned
    have harrived : ∀ q' t', set₂ s.received q t (s.received q t ++ [entry]) q' t' ++
        set₂ s.lists q t rest q' t' = s.arrived q' t' := by
      intro q' t'
      unfold arrived
      by_cases heq : q' = q ∧ t' = t
      · obtain ⟨rfl, rfl⟩ := heq
        rw [set₂_self, set₂_self, hlist, append_assoc]
        rfl
      · rw [set₂_of_ne _ _ heq, set₂_of_ne _ _ heq]
    refine ⟨h.carries, h.reads, h.taken, fun p q' t' ↦ ?_, fun q' t' ↦ ?_, fun q' t' ↦ ?_, h.socket⟩
    · show buffersFrom (some p) (set₂ s.received q t _ q' t' ++ set₂ s.lists q t rest q' t') = _
      rw [harrived]
      exact h.remote p q' t'
    · show buffersFrom none (set₂ s.received q t _ q' t' ++ set₂ s.lists q t rest q' t') = _
      rw [harrived]
      exact h.within q' t'
    · have hcounts := h.counts q' t'
      show (set₂ s.lists q t rest q' t').length =
        s.sem q' t' + set₂ s.woken q t _ q' t' + s.unsignalled q' t'
      by_cases heq : q' = q ∧ t' = t
      · obtain ⟨rfl, rfl⟩ := heq
        rw [hlist, length_cons] at hcounts
        rw [set₂_self, set₂_self]
        omega
      · rw [set₂_of_ne _ _ heq, set₂_of_ne _ _ heq]
        exact hcounts

end

end SockState

end CarbonSim.Transport
