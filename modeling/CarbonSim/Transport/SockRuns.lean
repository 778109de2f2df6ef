import Mathlib.Algebra.Order.BigOperators.Group.Finset
import CarbonSim.Transport.SockDelivery

/-!
# Runs of the socket transport

In every run whose messages to other processes have, with their header, a length that is a positive
signed word, the buffers that `recv` returns for a tag are the messages sent to it, those of each sender
in the order in which they were sent, and `recv` finds a buffer after it has waited. What is sent and not
yet read can be read: the rank of a stream falls with every read, and only sends raise it.
-/

namespace CarbonSim.Transport

open List Function

/-- How many sockets an update thread looks at before it comes to one. -/
def Ring.distance (R : Ring) (j p : ℕ) : ℕ := (p + R.procs - j) % R.procs

theorem Ring.distance_of_le {R : Ring} {j p : ℕ} (hp : p < R.procs) (hle : j ≤ p) :
    R.distance j p = p - j := by
  unfold distance
  have hsplit : p + R.procs - j = p - j + R.procs := by omega
  rw [hsplit, Nat.add_mod_right, Nat.mod_eq_of_lt (by omega)]

theorem Ring.distance_of_lt {R : Ring} {j p : ℕ} (hj : j < R.procs) (hlt : p < j) :
    R.distance j p = p + R.procs - j := Nat.mod_eq_of_lt (by omega)

theorem Ring.distance_next {R : Ring} {j p : ℕ} (hj : j < R.procs) (hp : p < R.procs) (hne : j ≠ p) :
    R.distance (R.next j) p < R.distance j p := by
  rcases Nat.lt_or_ge p j with hlt | hle
  · rw [distance_of_lt hj hlt]
    rcases Nat.lt_or_ge (j + 1) R.procs with hnext | hlast
    · rw [next_of_lt hnext, distance_of_lt hnext (by omega)]
      omega
    · rw [next_of_last (by omega), distance_of_le hp (Nat.zero_le p)]
      omega
  · rw [next_of_lt (by omega), distance_of_le hp (by omega), distance_of_le hp hle]
    omega

/-- The events that bring the bytes for a process to its update thread and through it. -/
def SockEvent.Reads (q : ℕ) : SockEvent → Prop
  | .arrive _ dst _ => dst = q
  | .recvBytes q' _ => q' = q
  | .poll q' => q' = q
  | _ => False

def SockEvent.IsSend : SockEvent → Prop
  | .send _ _ _ => True
  | .globalSend _ _ _ => True
  | .barrierSend _ => True
  | _ => False

/-- The event sends a message, of a byte at least, between processes and tiles that exist. -/
def SockEvent.SendsTo (cfg : SockConfig) : SockEvent → Prop
  | .send src tile data => (src < cfg.ring.procs ∧ tile < cfg.totalTiles) ∧ 0 < data.length
  | .globalSend src dst data => (src < cfg.ring.procs ∧ dst < cfg.ring.procs) ∧ 0 < data.length
  | _ => False

/-- The messages that an event sends from process `p` to list `t` of process `q`. -/
def SockEvent.messages (cfg : SockConfig) (p q t : ℕ) : SockEvent → List (List UInt8)
  | .send src tile data =>
    if src = p ∧ cfg.processNumForTile tile = q ∧ tile = t then [data] else []
  | .globalSend src dst data => if src = p ∧ dst = q ∧ cfg.totalTiles = t then [data] else []
  | _ => []

namespace SockState

/-- A message has a byte, and one to another process a length that is, with the header, a positive
signed word. -/
def Meets (cfg : SockConfig) (_ : SockState) : SockEvent → Prop
  | .send src tile data =>
    0 < data.length ∧ (cfg.processNumForTile tile ≠ src → 8 + data.length < 2 ^ 31)
  | .globalSend src dst data => 0 < data.length ∧ (dst ≠ src → 8 + data.length < 2 ^ 31)
  | _ => True

instance decidableMeets (cfg : SockConfig) (s : SockState) (e : SockEvent) :
    Decidable (s.Meets cfg e) :=
  match e with
  | .send src tile data => inferInstanceAs
    (Decidable (0 < data.length ∧ (cfg.processNumForTile tile ≠ src → 8 + data.length < 2 ^ 31)))
  | .globalSend src dst data => inferInstanceAs
    (Decidable (0 < data.length ∧ (dst ≠ src → 8 + data.length < 2 ^ 31)))
  | .barrierSend _ | .arrive _ _ _ | .recvBytes _ _ | .poll _ | .signal _ _ | .wait _ _ | .pop _ _ =>
    inferInstanceAs (Decidable True)

def machine (cfg : SockConfig) : Machine SockState SockEvent SockFault where
  start := start
  step := SockState.step cfg

/-- The states of the runs whose messages meet the condition. -/
def Reached (cfg : SockConfig) (s : SockState) : Prop := (machine cfg).Reached (Meets cfg) s

variable {cfg : SockConfig} {s s' : SockState} {p q : ℕ} {src tile : ℕ} {e : SockEvent}

/-- One event: it keeps the invariant, or it is not possible here. -/
theorem Inv.step (h : Inv cfg s) (hmeets : s.Meets cfg e) :
    Outcome (s.step cfg e) (Inv cfg) fun fault ↦ fault = .disabled ∨ fault = .outOfRange := by
  cases e with
  | send src tile data =>
    refine .require_bind (fun ⟨hsrc, htile⟩ ↦ ?_) fun _ ↦ .inr rfl
    refine (h.sendPacket hsrc (.inr ⟨tile, htile, rfl⟩) hmeets.1 hmeets.2).mono_fault ?_
    exact fun _ hfalse ↦ hfalse.elim
  | globalSend src dst data =>
    refine .require_bind (fun ⟨hsrc, _⟩ ↦ ?_) fun _ ↦ .inr rfl
    refine (h.sendPacket hsrc (.inl rfl) hmeets.1 hmeets.2).mono_fault ?_
    exact fun _ hfalse ↦ hfalse.elim
  | barrierSend src =>
    exact .require_bind (fun hsrc ↦ h.write (carries_barrier hsrc)) fun _ ↦ .inr rfl
  | arrive src dst n => exact (h.arrive src dst n).mono_fault fun _ ↦ .inl
  | recvBytes q n => exact (h.recvBytes q n).mono_fault fun _ hfault ↦ .inl hfault.1
  | poll q => exact (h.poll q).mono_fault fun _ ↦ .inl
  | signal q t => exact (h.signal q t).mono_fault fun _ ↦ .inl
  | wait q t => exact (h.wait q t).mono_fault fun _ ↦ .inl
  | pop q t => exact (h.pop q t).mono_fault fun _ ↦ .inl

theorem Reached.inv (hs : Reached cfg s) : Inv cfg s :=
  hs.invariant (inv_start cfg) fun _ _ _ h hmeets hstep ↦ (h.step hmeets).of_eq_ok hstep

/-! ### Reading goes on -/

/-- The bytes that are still to come over a socket; one that is not yet readable counts twice. -/
def load (s : SockState) (p q : ℕ) : ℕ := 2 * (s.flight p q).length + (s.readable p q).length

def traffic (cfg : SockConfig) (s : SockState) (q : ℕ) : ℕ :=
  ∑ p ∈ Finset.range cfg.ring.procs, s.load p q

/-- The bytes for a process, and how far its update thread is from a socket. -/
def rank (cfg : SockConfig) (s : SockState) (p q : ℕ) : ℕ :=
  cfg.ring.procs * s.traffic cfg q + cfg.ring.distance (s.socket q) p

/-- The threads between a buffer in a list and its receiver. -/
def backlog (s : SockState) (q t : ℕ) : ℕ := 3 * s.unsignalled q t + 2 * s.sem q t + s.woken q t

theorem traffic_lt (hp : p < cfg.ring.procs) (hlt : s'.load p q < s.load p q)
    (hothers : ∀ p', p' ≠ p → s'.load p' q = s.load p' q) : s'.traffic cfg q < s.traffic cfg q := by
  refine Finset.sum_lt_sum (fun p' _ ↦ ?_) ⟨p, Finset.mem_range.mpr hp, hlt⟩
  by_cases heq : p' = p
  · rw [heq]
    exact Nat.le_of_lt hlt
  · exact Nat.le_of_eq (hothers p' heq)

theorem rank_lt_of_traffic (p : ℕ) {q : ℕ} (hlt : s'.traffic cfg q < s.traffic cfg q)
    (hsocket : s'.socket q = s.socket q) : s'.rank cfg p q < s.rank cfg p q := by
  unfold rank
  rw [hsocket]
  exact Nat.add_lt_add_right (Nat.mul_lt_mul_of_pos_left hlt cfg.ring.procs_pos) _

/-- Bytes come from existing processes only. -/
theorem Inv.src_lt (h : Inv cfg s) (hunread : s.unread p q ≠ []) : p < cfg.ring.procs := by
  cases hremaining : s.remaining p q with
  | nil => exact absurd ((h.reads p q).idle hremaining).2 hunread
  | cons pkt rest =>
    have hmem : pkt ∈ s.remaining p q := hremaining ▸ mem_cons_self
    exact (h.carries p q pkt (mem_of_mem_drop hmem)).src

theorem Inv.rank_arrive (h : Inv cfg s) (p src q n : ℕ) :
    Yields (s.arrive src q n) (fun s' ↦ s'.rank cfg p q < s.rank cfg p q) := by
  refine .check fun ⟨hpos, hle⟩ ↦ ?_
  have hunread : s.unread src q ≠ [] := by
    intro hnil
    have hflight := (append_eq_nil_iff.mp hnil).2
    rw [hflight, length_nil] at hle
    omega
  refine rank_lt_of_traffic p (traffic_lt (h.src_lt hunread) ?_ fun p' hne ↦ ?_) rfl
  · show 2 * (set₂ s.flight src q _ src q).length + (set₂ s.readable src q _ src q).length < _
    unfold load
    rw [set₂_self, set₂_self, length_drop, length_append, length_take]
    omega
  · show 2 * (set₂ s.flight src q _ p' q).length + (set₂ s.readable src q _ p' q).length = _
    rw [set₂_of_ne _ _ fun heq ↦ hne heq.1, set₂_of_ne _ _ fun heq ↦ hne heq.1]
    rfl

/-- What a read changes of the streams. -/
theorem recvBytes_streams (s : SockState) (q n : ℕ) :
    Yields (s.recvBytes cfg q n) (fun s' ↦ 0 < n ∧ n ≤ (s.incoming q).length ∧ s'.flight = s.flight ∧
      s'.readable = (s.take q n).readable ∧ s'.socket = s.socket) := by
  refine .check fun ⟨hpos, hle, _⟩ ↦ ?_
  cases (packetFormat.feed (s.reader q) ((s.incoming q).take n)).2 with
  | none => exact ⟨hpos, hle, rfl, rfl, rfl⟩
  | some pkt =>
    show Outcome ((s.takeLast q n).dispatch cfg q pkt) _ _
    unfold dispatch
    split_ifs
    · trivial
    · exact .require_bind (fun _ ↦ ⟨hpos, hle, rfl, rfl, rfl⟩) fun _ ↦ trivial
    · refine (insert_spec (s.takeLast q n) q pkt.tag _).mono ?_ fun _ _ ↦ trivial
      rintro s' ⟨t, -, -, hflight, hreadable, hsocket, -⟩
      exact ⟨hpos, hle, hflight, hreadable, hsocket⟩

theorem Inv.rank_recvBytes (h : Inv cfg s) (p q n : ℕ) :
    Yields (s.recvBytes cfg q n) (fun s' ↦ s'.rank cfg p q < s.rank cfg p q) := by
  refine (recvBytes_streams s q n).mono ?_
  rintro s' ⟨hpos, hle, hflight, hreadable, hsocket⟩
  refine rank_lt_of_traffic p (traffic_lt (h.socket q) ?_ fun p' hne ↦ ?_) (congrFun hsocket q)
  · have hself : s'.readable (s.socket q) q = (s.incoming q).drop n := by
      rw [hreadable]
      exact set₂_self ..
    unfold load
    rw [hflight, hself, length_drop]
    unfold incoming at hle ⊢
    omega
  · have hother : s'.readable p' q = s.readable p' q := by
      rw [hreadable]
      exact set₂_of_ne _ _ fun heq ↦ hne heq.1
    unfold load
    rw [hflight, hother]

/-- A look at an empty socket brings the update thread nearer to one that is not. -/
theorem Inv.rank_poll (h : Inv cfg s) (hreadable : s.readable p q ≠ []) :
    Yields (s.poll cfg q) (fun s' ↦ s'.rank cfg p q < s.rank cfg p q) := by
  refine .check fun ⟨_, _, hincoming⟩ ↦ ?_
  have hp : p < cfg.ring.procs := h.src_lt fun hnil ↦ hreadable (append_eq_nil_iff.mp hnil).1
  have hne : s.socket q ≠ p := by
    intro heq
    subst heq
    exact hreadable hincoming
  show cfg.ring.procs * s.traffic cfg q +
    cfg.ring.distance (update s.socket q (cfg.ring.next (s.socket q)) q) p < _
  rw [update_self]
  exact Nat.add_lt_add_left (Ring.distance_next (h.socket q) hp hne) _

theorem Inv.rank_reads (h : Inv cfg s) (e : SockEvent) (hreads : e.Reads q)
    (hpoll : e = .poll q → s.readable p q ≠ []) (hstep : s.step cfg e = .ok s') :
    s'.rank cfg p q < s.rank cfg p q := by
  cases e with
  | arrive src dst n =>
    cases hreads
    exact (h.rank_arrive p src q n).of_eq_ok hstep
  | recvBytes q' n =>
    cases hreads
    exact (h.rank_recvBytes p q n).of_eq_ok hstep
  | poll q' =>
    cases hreads
    exact (h.rank_poll (hpoll rfl)).of_eq_ok hstep
  | _ => exact hreads.elim

/-- Inside a packet, or before one, there is a byte that has not been read. -/
theorem Inv.unread_ne (h : Inv cfg s) (hremaining : s.remaining p q ≠ []) : s.unread p q ≠ [] := by
  intro hnil
  have havailable := (h.reads p q).available hremaining
  have hshort := (h.reads p q).short
  rw [hnil, length_nil] at havailable
  omega

theorem Inv.can_recvBytes (h : Inv cfg s) {q : ℕ} (hincoming : s.incoming q ≠ []) :
    ∃ s', s.step cfg (.recvBytes q 1) = .ok s' := by
  have hshort := (h.reads (s.socket q) q).short
  rw [readerFor_socket] at hshort
  have hlength := length_pos_iff.mpr hincoming
  have hout := h.recvBytes q 1
  cases hstep : s.recvBytes cfg q 1 with
  | ok s' => exact ⟨s', hstep⟩
  | error fault =>
    rw [hstep] at hout
    exact absurd ⟨Nat.one_pos, hlength, hshort⟩ hout.2

theorem can_arrive (cfg : SockConfig) (s : SockState) (hflight : s.flight p q ≠ []) :
    ∃ s', s.step cfg (.arrive p q 1) = .ok s' :=
  ⟨_, require_bind_eq_ok.mpr ⟨⟨Nat.one_pos, length_pos_iff.mpr hflight⟩, rfl⟩⟩

/-- While a packet is to be read, an event that lowers the rank of its stream is possible. -/
theorem Inv.reading (h : Inv cfg s) (hremaining : s.remaining p q ≠ []) :
    ∃ e s', e.Reads q ∧ s.step cfg e = .ok s' ∧ s'.rank cfg p q < s.rank cfg p q := by
  have harrive : ∀ p', s.flight p' q ≠ [] →
      ∃ e s', e.Reads q ∧ s.step cfg e = .ok s' ∧ s'.rank cfg p q < s.rank cfg p q := by
    intro p' hflight
    obtain ⟨s', hstep⟩ := can_arrive cfg s hflight
    exact ⟨.arrive p' q 1, s', rfl, hstep, h.rank_reads (.arrive p' q 1) rfl nofun hstep⟩
  by_cases hincoming : s.incoming q = []
  · by_cases hbusy : s.remaining (s.socket q) q = []
    · -- the update thread is between two packets, and goes to the next socket
      by_cases hreadable : s.readable p q = []
      · refine harrive p fun hflight ↦ h.unread_ne hremaining ?_
        exact append_eq_nil_iff.mpr ⟨hreadable, hflight⟩
      · have hidle := ((h.reads (s.socket q) q).idle hbusy).1
        rw [readerFor_socket] at hidle
        have hstep : ∃ s', s.step cfg (.poll q) = .ok s' := by
          refine ⟨_, require_bind_eq_ok.mpr ⟨?_, rfl⟩⟩
          rw [hidle]
          exact ⟨rfl, rfl, hincoming⟩
        obtain ⟨s', hstep⟩ := hstep
        exact ⟨.poll q, s', rfl, hstep, h.rank_reads (.poll q) rfl (fun _ ↦ hreadable) hstep⟩
    · -- the rest of the packet has been written
      refine harrive (s.socket q) fun hflight ↦ h.unread_ne hbusy ?_
      exact append_eq_nil_iff.mpr ⟨hincoming, hflight⟩
  · obtain ⟨s', hstep⟩ := h.can_recvBytes hincoming
    exact ⟨.recvBytes q 1, s', rfl, hstep, h.rank_reads (.recvBytes q 1) rfl nofun hstep⟩

/-! ### The other events -/

theorem rank_congr (p : ℕ) {q : ℕ} (hflight : ∀ p, s'.flight p q = s.flight p q)
    (hreadable : ∀ p, s'.readable p q = s.readable p q) (hsocket : s'.socket q = s.socket q) :
    s'.rank cfg p q = s.rank cfg p q := by
  have hload : ∀ p', s'.load p' q = s.load p' q := fun p' ↦ by
    unfold load
    rw [hflight, hreadable]
  unfold rank traffic
  rw [hsocket, Finset.sum_congr rfl fun p' _ ↦ hload p']

/-- What neither sends nor reads for a process leaves the ranks of its streams. -/
theorem rank_kept (p : ℕ) {q : ℕ} (hsend : ¬ e.IsSend) (hreads : ¬ e.Reads q)
    (hstep : s.step cfg e = .ok s') : s'.rank cfg p q = s.rank cfg p q := by
  cases e with
  | send | globalSend | barrierSend => exact absurd trivial hsend
  | arrive src dst n =>
    have hne : q ≠ dst := fun heq ↦ hreads heq.symm
    obtain ⟨-, hok⟩ := require_bind_eq_ok.mp hstep
    cases hok
    exact rank_congr p (fun p' ↦ set₂_of_ne _ _ fun heq ↦ hne heq.2)
      (fun p' ↦ set₂_of_ne _ _ fun heq ↦ hne heq.2) rfl
  | recvBytes q' n =>
    have hne : q ≠ q' := fun heq ↦ hreads heq.symm
    obtain ⟨-, -, hflight, hreadable, hsocket⟩ := (recvBytes_streams s q' n).of_eq_ok hstep
    refine rank_congr p (fun p' ↦ by rw [hflight]) (fun p' ↦ ?_) (congrFun hsocket q)
    rw [hreadable]
    exact set₂_of_ne _ _ fun heq ↦ hne heq.2
  | poll q' =>
    have hne : q ≠ q' := fun heq ↦ hreads heq.symm
    obtain ⟨-, hok⟩ := require_bind_eq_ok.mp hstep
    cases hok
    exact rank_congr p (fun _ ↦ rfl) (fun _ ↦ rfl) (update_of_ne hne ..)
  | signal | wait =>
    obtain ⟨-, hok⟩ := require_bind_eq_ok.mp hstep
    cases hok
    rfl
  | pop q' t =>
    obtain ⟨-, hok⟩ := require_bind_eq_ok.mp hstep
    cases hlist : s.lists q' t with
    | nil =>
      rw [hlist] at hok
      cases hok
    | cons entry rest =>
      rw [hlist] at hok
      cases hok
      rfl

/-- While a buffer is in a list, it is signalled, waited for or taken. -/
theorem Inv.receiving (h : Inv cfg s) {q t : ℕ} (hlist : s.lists q t ≠ []) :
    ∃ e ∈ [SockEvent.signal q t, .wait q t, .pop q t], ∃ s', s.step cfg e = .ok s' ∧
      s'.backlog q t < s.backlog q t := by
  have hcount := h.counts q t
  have hpos := length_pos_iff.mpr hlist
  by_cases hsignal : 0 < s.unsignalled q t
  · refine ⟨.signal q t, by simp, _, require_bind_eq_ok.mpr ⟨hsignal, rfl⟩, ?_⟩
    show 3 * set₂ s.unsignalled q t _ q t + 2 * set₂ s.sem q t _ q t + s.woken q t < s.backlog q t
    unfold backlog
    rw [set₂_self, set₂_self]
    omega
  · by_cases hwait : 0 < s.sem q t
    · refine ⟨.wait q t, by simp, _, require_bind_eq_ok.mpr ⟨hwait, rfl⟩, ?_⟩
      show 3 * s.unsignalled q t + 2 * set₂ s.sem q t _ q t + set₂ s.woken q t _ q t < s.backlog q t
      unfold backlog
      rw [set₂_self, set₂_self]
      omega
    · have hwoken : 0 < s.woken q t := by omega
      obtain ⟨entry, rest, heq⟩ := exists_cons_of_ne_nil hlist
      refine ⟨.pop q t, by simp, _, require_bind_eq_ok.mpr ⟨hwoken, by rw [heq]; rfl⟩, ?_⟩
      show 3 * s.unsignalled q t + 2 * s.sem q t + set₂ s.woken q t _ q t < s.backlog q t
      unfold backlog
      rw [set₂_self]
      omega

/-! ### What is sent -/

/-- The messages that process `p` has sent to list `t` of process `q`. -/
def sentTo (cfg : SockConfig) (s : SockState) (p q t : ℕ) : List (List UInt8) :=
  dataFor cfg t (if q = p then s.sentLocal p else s.sentRemote p q)

theorem sentTo_congr (hlocal : s'.sentLocal = s.sentLocal) (hremote : s'.sentRemote = s.sentRemote)
    (p q t : ℕ) : s'.sentTo cfg p q t = s.sentTo cfg p q t ++ [] := by
  unfold sentTo
  rw [hlocal, hremote, append_nil]

theorem dataFor_singleton {pkt : Packet} {i : ℕ} (h : cfg.listIndex pkt.tag = some i) (t : ℕ) :
    dataFor cfg t [pkt] = if i = t then [pkt.data] else [] := by
  by_cases ht : i = t
  · rw [if_pos ht, dataFor_singleton_of_eq (ht ▸ h)]
  · rw [if_neg ht,
        dataFor_singleton_of_ne fun heq ↦ ht (Option.some_injective _ (h.symm.trans heq))]

/-- A packet for a list is sent unless it is too long for a socket. -/
theorem sendPacket_sends (s : SockState) {src dst i : ℕ} {pkt : Packet}
    (hindex : cfg.listIndex pkt.tag = some i) : Outcome (s.sendPacket cfg src dst pkt)
      (fun s' ↦ ∀ p q t, s'.sentTo cfg p q t = s.sentTo cfg p q t ++
        if src = p ∧ dst = q ∧ i = t then [pkt.data] else [])
      fun _ ↦ dst ≠ src ∧ ¬ 8 + pkt.data.length < 2 ^ 31 := by
  have hmessage := dataFor_singleton hindex
  unfold sendPacket
  split_ifs with hself
  · refine (insert_spec _ src pkt.tag _).mono ?_ fun _ hfault ↦ ?_
    · rintro s' ⟨-, -, -, -, -, -, -, hremote, hlocal, -⟩ p q t
      unfold sentTo
      rw [hlocal, hremote, logLocal]
      dsimp only
      by_cases hp : p = src
      · subst hp
        by_cases hq : q = p
        · rw [if_pos hq, if_pos hq, update_self, dataFor_append, hmessage]
          simp only [hself, hq, true_and]
        · have hother : ¬ (p = p ∧ dst = q ∧ i = t) := fun h ↦ hq (h.2.1.symm.trans hself)
          rw [if_neg hq, if_neg hq, if_neg hother, append_nil]
      · have hother : ¬ (src = p ∧ dst = q ∧ i = t) := fun h ↦ hp h.1.symm
        rw [update_of_ne hp, if_neg hother, append_nil]
    · rw [hindex] at hfault
      cases hfault.2
  · refine .require_bind (fun _ p q t ↦ ?_) fun hlong ↦ ⟨hself, hlong⟩
    unfold sentTo write
    dsimp only
    by_cases hpair : p = src ∧ q = dst
    · obtain ⟨rfl, rfl⟩ := hpair
      rw [if_neg hself, if_neg hself, set₂_self, dataFor_append, hmessage]
      simp only [true_and]
    · have hother : ¬ (src = p ∧ dst = q ∧ i = t) := fun h ↦ hpair ⟨h.1.symm, h.2.1.symm⟩
      rw [set₂_of_ne _ _ hpair, if_neg hother, append_nil]

/-- Every event adds the messages that it sends, and no others. -/
theorem step_sends : Yields (s.step cfg e) (fun s' ↦ ∀ p q t,
    s'.sentTo cfg p q t = s.sentTo cfg p q t ++ e.messages cfg p q t) := by
  cases e with
  | send src tile data =>
    refine .check fun hrange ↦ ?_
    exact (sendPacket_sends s (listIndex_tile hrange.2)).mono_fault fun _ _ ↦ trivial
  | globalSend src dst data =>
    refine .check fun _ ↦ ?_
    exact (sendPacket_sends s listIndex_global).mono_fault fun _ _ ↦ trivial
  | barrierSend src =>
    refine .check fun _ p q t ↦ ?_
    have hmessage : dataFor cfg t [⟨barrierTag, [0, 0, 0, 0]⟩] = [] :=
      dataFor_singleton_of_ne (by rw [listIndex_barrier]; nofun)
    unfold sentTo write
    dsimp only
    by_cases hpair : p = src ∧ q = cfg.ring.next src
    · obtain ⟨rfl, rfl⟩ := hpair
      rw [set₂_self]
      split_ifs
      · exact (append_nil _).symm
      · rw [dataFor_append, hmessage]
        rfl
    · rw [set₂_of_ne _ _ hpair]
      exact (append_nil _).symm
  | arrive | poll | signal | wait => exact .check fun _ ↦ sentTo_congr rfl rfl
  | recvBytes q n =>
    refine .check fun _ ↦ ?_
    split
    · exact sentTo_congr rfl rfl
    · unfold dispatch
      split_ifs
      · trivial
      · exact .check fun _ ↦ sentTo_congr rfl rfl
      · refine (insert_spec _ _ _ _).mono ?_ fun _ _ ↦ trivial
        rintro s' ⟨-, -, -, -, -, -, -, hremote, hlocal, -⟩
        exact sentTo_congr hlocal hremote
  | pop q t =>
    refine .check fun _ ↦ ?_
    split
    · trivial
    · exact sentTo_congr rfl rfl

theorem sendPacket_ok_iff (s : SockState) {src dst i : ℕ} {pkt : Packet}
    (hindex : cfg.listIndex pkt.tag = some i) : (∃ s', s.sendPacket cfg src dst pkt = .ok s') ↔
      (dst ≠ src → 8 + pkt.data.length < 2 ^ 31) := by
  constructor
  · rintro ⟨s', hs'⟩ hne
    rw [sendPacket, if_neg hne] at hs'
    exact (require_bind_eq_ok.mp hs').1
  · intro hshort
    obtain ⟨s', hs', -⟩ := (sendPacket_sends s hindex).exists_ok fun _ hfault ↦
      hfault.2 (hshort hfault.1)
    exact ⟨s', hs'⟩

/-- A message is sent exactly if it meets the condition. -/
theorem step_ok_iff (hsends : e.SendsTo cfg) : (∃ s', s.step cfg e = .ok s') ↔ s.Meets cfg e := by
  cases e with
  | send src tile data =>
    have hpacket : (∃ s', s.sendPacket cfg src (cfg.processNumForTile tile) ⟨tile, data⟩ = .ok s') ↔
        _ := sendPacket_ok_iff s (listIndex_tile hsends.1.2)
    simp only [step, send, require_bind_eq_ok, hsends.1, true_and, hpacket, Meets, hsends.2]
  | globalSend src dst data =>
    have hpacket : (∃ s', s.sendPacket cfg src dst ⟨globalTag, data⟩ = .ok s') ↔ _ :=
      sendPacket_ok_iff s listIndex_global
    simp only [step, globalSend, require_bind_eq_ok, hsends.1, true_and, hpacket, Meets, hsends.2]
  | barrierSend | arrive | recvBytes | poll | signal | wait | pop => exact hsends.elim

/-! ### Delivery -/

/-- A message is sent exactly if it meets the condition, and what is sent are the messages of the
events. The buffers that have come to a list from another process are the messages for it among the
first packets written there, and those from the process itself are all messages for it; `recv` finds
a buffer after it has waited; no event fails. What has not been read is read, by events that lower
the rank of the stream, which sends only raise, and what is in a list is received; then all messages
have been returned. -/
structure Delivers (cfg : SockConfig) (s : SockState) : Prop where
  accepts : ∀ e, e.SendsTo cfg → ((∃ s', s.step cfg e = .ok s') ↔ s.Meets cfg e)
  sends : ∀ e s', s.step cfg e = .ok s' → ∀ p q t,
    s'.sentTo cfg p q t = s.sentTo cfg p q t ++ e.messages cfg p q t
  inOrder : ∀ p q t, buffersFrom (some p) (s.received q t ++ s.lists q t) =
    dataFor cfg t ((s.sentRemote p q).take (s.taken p q))
  within : ∀ q t, buffersFrom none (s.received q t ++ s.lists q t) = dataFor cfg t (s.sentLocal q)
  found : ∀ q t, 0 < s.woken q t → s.lists q t ≠ []
  safe : ∀ e fault, s.Meets cfg e → s.step cfg e = .error fault →
    fault = .disabled ∨ fault = .outOfRange
  reading : ∀ p q, s.taken p q < (s.sentRemote p q).length →
    ∃ e s', e.Reads q ∧ s.step cfg e = .ok s' ∧ s'.rank cfg p q < s.rank cfg p q
  lowers : ∀ p q e s', e.Reads q → (e = .poll q → s.readable p q ≠ []) → s.step cfg e = .ok s' →
    s'.rank cfg p q < s.rank cfg p q
  keeps : ∀ p q e s', ¬ e.IsSend → ¬ e.Reads q → s.step cfg e = .ok s' →
    s'.rank cfg p q = s.rank cfg p q
  receiving : ∀ q t, s.lists q t ≠ [] → ∃ e ∈ [SockEvent.signal q t, .wait q t, .pop q t],
    ∃ s', s.step cfg e = .ok s' ∧ s'.backlog q t < s.backlog q t
  complete : ∀ p q t, (s.sentRemote p q).length ≤ s.taken p q → s.lists q t = [] →
    buffersFrom (some p) (s.received q t) = dataFor cfg t (s.sentRemote p q) ∧
      buffersFrom none (s.received q t) = dataFor cfg t (s.sentLocal q)

theorem sockets_deliver (hs : Reached cfg s) : Delivers cfg s where
  accepts e hsends := step_ok_iff hsends
  sends e s' hstep := step_sends.of_eq_ok hstep
  inOrder := hs.inv.remote
  within := hs.inv.within
  found q t hwoken hnil := by
    have hcount := hs.inv.counts q t
    rw [hnil, length_nil] at hcount
    omega
  safe e fault hmeets hstep := (hs.inv.step hmeets).of_eq_error hstep
  reading p q hlt := hs.inv.reading fun hnil ↦ by
    have hle := drop_eq_nil_iff.mp hnil
    omega
  lowers p q e s' hreads hpoll hstep := hs.inv.rank_reads e hreads hpoll hstep
  keeps p q e s' hsend hreads hstep := rank_kept p hsend hreads hstep
  receiving q t hlist := hs.inv.receiving hlist
  complete p q t hall hnil := by
    have hremote := hs.inv.remote p q t
    have hwithin := hs.inv.within q t
    unfold arrived at hremote hwithin
    rw [hnil, append_nil] at hremote hwithin
    rw [take_of_length_le hall] at hremote
    exact ⟨hremote, hwithin⟩

/-- Two processes with a tile each. -/
def pair : SockConfig where
  ring := ⟨2, by decide⟩
  totalTiles := 2
  processNumForTile tile := tile % 2
  processNumForTile_lt tile _ := Nat.mod_lt tile (by decide)
  totalTiles_lt := by decide

/-- Process 0 sends to the tile of process 1, which sends to its tile too; the packet is read in four
pieces. -/
def crossing : List SockEvent :=
  [.send 0 1 [7, 8], .arrive 0 1 6, .recvBytes 1 3, .send 1 1 [9], .arrive 0 1 4, .recvBytes 1 1,
    .recvBytes 1 4, .recvBytes 1 2, .signal 1 1, .wait 1 1, .pop 1 1, .signal 1 1, .wait 1 1, .pop 1 1]

theorem sockets_deliver_pair :
    ∃ s, Reached pair s ∧ s.received 1 1 = [⟨none, [9]⟩, ⟨some 0, [7, 8]⟩] ∧ Delivers pair s := by
  have hrun : Reached pair _ := Machine.Reached.start.exec crossing rfl rfl
  exact ⟨_, hrun, rfl, sockets_deliver hrun⟩

/-- A packet whose length is not a positive signed word is not sent. -/
theorem send_long (s : SockState) {data : List UInt8} (hsrc : src < cfg.ring.procs)
    (htile : tile < cfg.totalTiles) (hne : cfg.processNumForTile tile ≠ src)
    (hlong : 2 ^ 31 ≤ 8 + data.length) : s.send cfg src tile data = .error .packetTooLong := by
  unfold send require
  rw [if_pos ⟨hsrc, htile⟩]
  unfold sendPacket require
  rw [if_neg hne, if_neg (Nat.not_lt.mpr hlong)]
  rfl

/-- A message inside a process is sent, however long it is. -/
theorem send_within (s : SockState) (data : List UInt8) (hsrc : src < cfg.ring.procs)
    (htile : tile < cfg.totalTiles) (heq : cfg.processNumForTile tile = src) :
    ∃ s', s.send cfg src tile data = .ok s' := by
  unfold send require
  rw [if_pos ⟨hsrc, htile⟩]
  unfold sendPacket insertInBufferList
  rw [if_pos heq, listIndex_tile htile]
  exact ⟨_, rfl⟩

/-- The length of a packet overflows at the sender, while a tile of the same process gets the message. -/
theorem long_message_not_sent :
    ∃ data : List UInt8, 0 < data.length ∧ data.length < 2 ^ 32 ∧
      start.send pair 0 1 data = .error .packetTooLong ∧ ∃ s, start.send pair 1 1 data = .ok s := by
  have hlength : (List.replicate (2 ^ 31 - 8) (0 : UInt8)).length = 2 ^ 31 - 8 := length_replicate
  generalize List.replicate (2 ^ 31 - 8) (0 : UInt8) = data at hlength
  have hsent : ∃ s, start.send pair 1 1 data = .ok s :=
    send_within start data (by decide) (by decide) rfl
  refine ⟨data, by omega, by omega, ?_, hsent⟩
  exact send_long start (by decide) (by decide) (by decide) (by omega)

end SockState

end CarbonSim.Transport
