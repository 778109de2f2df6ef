import CarbonSim.Msi.LineInvariant
import CarbonSim.Msi.System
import CarbonSim.Msi.TileInvariant

/-!
# The memory system as seen by one line

`View` relates a state of the memory system to a state of the one-line protocol: the entry and the
request queue of the home directory, the copy in each L2 cache, and the messages about the line in
the two channels between each tile and the home. `Good` is the invariant of the memory system: every
line has a view that satisfies the invariant of the one-line protocol.

While a handler of the directory runs, the front request of a queue may not have been tried again
yet, or may have been answered and not yet been removed; this is the `Phase` of the line.
-/

namespace CarbonSim.Msi

open Directory List

variable {A : Type} [DecidableEq A] {N : ℕ}

/-! ### Messages and requests of a line -/

/-- The front request of a line: it waits for replies, is about to be tried, or is answered. -/
inductive Phase
  | settled
  | trying
  | done
  deriving DecidableEq

omit [DecidableEq A] in
/-- A request of a queue as the line sees it. -/
def ShmemReq.toLine (r : ShmemReq A N) : LineReq N :=
  match r.type with
  | .exReq => .miss .ex r.requester
  | .shReq => .miss .sh r.requester
  | _ => .nullify

/-- A message from the directory about line `a`. -/
def downMsg (a : A) (p : Packet A N) : Option (DownMsg Block) :=
  if p.msg.route = .fromDirectory ∧ p.msg.address = a then
    match p.msg.type, p.msg.data with
    | .invReq, _ => some .invReq
    | .flushReq, _ => some .flushReq
    | .wbReq, _ => some .wbReq
    | .exRep, some x => some (.exRep x)
    | .shRep, some x => some (.shRep x)
    | _, _ => none
  else none

/-- A message to the directory about line `a`. -/
def upMsg (a : A) (p : Packet A N) : Option (UpMsg Block) :=
  if p.msg.route = .toDirectory ∧ p.msg.address = a then
    match p.msg.type, p.msg.data with
    | .exReq, _ => some (.req .ex)
    | .shReq, _ => some (.req .sh)
    | .invRep, _ => some .invRep
    | .flushRep, some x => some (.flushRep x)
    | .wbRep, some x => some (.wbRep x)
    | _, _ => none
  else none

/-- The messages about line `a` on their way from its home to tile `t`. -/
def downs (cfg : Config A N) (s : Sys A N) (a : A) (t : Fin N) : List (DownMsg Block) :=
  (s.chan (cfg.home a) t).filterMap (downMsg a)

/-- The messages about line `a` on their way from tile `t` to its home. -/
def ups (cfg : Config A N) (s : Sys A N) (a : A) (t : Fin N) : List (UpMsg Block) :=
  (s.chan t (cfg.home a)).filterMap (upMsg a)

/-! ### The view of a line -/

def LineDState.toDState : LineDState → DState
  | .uncached => .uncached
  | .shared => .shared
  | .modified => .modified

/-- The owner as the entry records it. -/
def ownerId : Option (Fin N) → ℤ
  | none => invalidTileId
  | some o => (o : ℕ)

/-- The entry of the line in the directory. -/
structure EntryView (listed : Prop) (e : Entry) (L : Line N Block) : Prop where
  dstate : e.dstate = L.dstate.toDState
  owner : e.owner = ownerId L.owner
  sharers : Represents listed e.sharers L.sharers
  tracked : ∀ o, L.owner = some o → Tracked listed e.sharers o

/-- The home directory of line `a`. -/
structure DirView (cfg : Config A N) (listed : Prop) (d : Dir A N) (ph : Phase) (a : A)
    (L : Line N Block) : Prop where
  entry : ∀ e, d.cache.entry cfg.directory a = some e → EntryView listed e L
  noEntry : d.cache.entry cfg.directory a = none → L.dstate = .uncached
  queue : L.queue = (if ph = .done then (d.queue a).tail else d.queue a).map ShmemReq.toLine
  busy : ph ≠ .settled → d.queue a ≠ []
  pending : L.pending = decide (ph = .settled ∧ d.queue a ≠ [])
  address : ∀ r ∈ d.queue a, r.address = a
  dram : L.dram = (d.dram a).getD .zero
  asked : L.sharers.Nonempty → (d.dram a).isSome
  replaced : a ∈ d.cache.replaced.map Prod.fst ↔ .nullify ∈ L.queue

/-- What the L2 cache of a tile holds. -/
def TileView.held (v : TileView Block) : Option (CState × Block) :=
  match v.cstate with
  | .invalid => none
  | .shared => some (.shared, v.cval)
  | .modified => some (.modified, v.cval)

/-- The request that a memory operation needs. -/
def kindOf (op : MemOp) : ReqKind := if op.exclusive then .ex else .sh

/-- Where the outstanding miss of a tile is, if it is about line `a`. -/
def StageView (t : Tile A) (a : A) (stage : Stage) : Prop :=
  match t.app with
  | .missed acc _ =>
    if acc.address = a then
      if t.outstanding.isNone then stage = .asking (kindOf acc.op)
      else stage = .requested (kindOf acc.op) ∨ stage = .queued (kindOf acc.op) ∨
        stage = .granted (kindOf acc.op)
    else stage = .none
  | _ => stage = .none

/-- Tile `t` and its two channels as line `a` sees them. -/
structure TileMatch (cfg : Config A N) (s : Sys A N) (a : A) (t : Fin N) (v : TileView Block) :
    Prop where
  held : (s.tile t).content (cfg.tile t) a = v.held
  down : v.down = downs cfg s a t
  up : v.up = ups cfg s a t
  stage : StageView (s.tile t) a v.stage

/-- The memory system as seen by line `a`. -/
structure View (cfg : Config A N) (listed : Prop) (s : Sys A N) (ph : Phase) (a : A)
    (L : Line N Block) : Prop where
  dir : DirView cfg listed (s.dir (cfg.home a)) ph a L
  tile : ∀ t, TileMatch cfg s a t (L.tile t)

/-! ### The invariant of the memory system -/

/-- The packet is a request from an L1 cache. -/
def Packet.fromL1 (p : Packet A N) : Bool :=
  match p.msg.route with
  | .fromL1 _ => true
  | _ => false

/-- The requests from the L1 caches of tile `t` to its L2 cache. -/
def l1Asks (s : Sys A N) (t : Fin N) : List (ShmemMsg A N) :=
  ((s.chan t t).filter Packet.fromL1).map Packet.msg

/-- A tile has one such request exactly if its miss has not reached the L2. -/
def AsksFor (t : Fin N) (x : Tile A) (msgs : List (ShmemMsg A N)) : Prop :=
  match x.app, x.outstanding with
  | .missed acc _, none => ∃ modeled, msgs = [Tile.l1Request t acc modeled]
  | _, _ => msgs = []

/-- A reply or a request for a line. -/
def MsgType.isReq : MsgType → Bool
  | .exReq => true
  | .shReq => true
  | _ => false

def MsgType.isRep : MsgType → Bool
  | .exRep => true
  | .shRep => true
  | _ => false

/-- Nothing about the outstanding miss of tile `t` is older than `time`. -/
structure Timely (s : Sys A N) (t : Fin N) (time : ℕ) : Prop where
  queue : ∀ h a r, r ∈ (s.dir h).queue a → r.type.isReq = true → r.requester = t → time ≤ r.time
  request : ∀ h p, p ∈ s.chan t h → p.msg.route = .toDirectory → p.msg.type.isReq = true →
    time ≤ p.time
  reply : ∀ h p, p ∈ s.chan h t → p.msg.type.isRep = true → time ≤ p.time

/-- A tile tries an access twice at most: after the fill the L1 holds the line as the access needs
it. -/
def Ready (cfg : TileConfig A) (x : Tile A) : Prop :=
  match x.app with
  | .idle => True
  | .missed _ n => n = 1
  | .filled acc n => n = 1 ∧ acc.op.permissible (x.l1State cfg acc.comp acc.address) = true

/-- The invariant of the memory system; `mem` is what the lines should contain. -/
structure Good (cfg : Config A N) (allowed : Fin N → A → L1Kind → Prop) (listed : Prop)
    (ph : A → Phase)
    (s : Sys A N) (mem : A → Block) : Prop where
  line : ∀ a, ∃ L, View cfg listed s (ph a) a L ∧ L.Inv listed ∧ L.latest = mem a
  tile : ∀ t, (s.tile t).Inv (cfg.tile t) (allowed t)
  ready : ∀ t, Ready (cfg.tile t) (s.tile t)
  cache : ∀ h, (s.dir h).cache.WF cfg.directory
  foreign : ∀ h a, cfg.home a ≠ h →
    (s.dir h).queue a = [] ∧ (s.dir h).cache.entry cfg.directory a = none
  wf : ∀ src dst p, p ∈ s.chan src dst → p.msg.WF cfg.home src dst
  asks : ∀ t, AsksFor t (s.tile t) (l1Asks s t)
  timely : ∀ t, Timely s t (s.tile t).outstandingTime

/-- The invariant between two steps, when no line is being worked on. -/
abbrev Coherent (cfg : Config A N) (allowed : Fin N → A → L1Kind → Prop) (listed : Prop)
    (s : Sys A N)
    (mem : A → Block) : Prop := Good cfg allowed listed (fun _ ↦ .settled) s mem

/-! ### The start -/

theorem View.start (cfg : Config A N) (listed : Prop) (a : A) :
    View cfg listed Sys.start .settled a (Line.start Block.zero) := by
  have hentry : (Dir.start : Dir A N).cache.entry cfg.directory a = none := by
    simp [Dir.start, DirectoryCache.entry, DirectoryCache.empty]
  refine ⟨⟨fun e he ↦ ?_, fun _ ↦ rfl, rfl, by simp, rfl, by simp [Sys.start, Dir.start], rfl,
    by simp [Line.start], ?_⟩, fun t ↦ ⟨?_, rfl, rfl, rfl⟩⟩
  · exact absurd (hentry.symm.trans he) (by simp)
  · simp [Sys.start, Dir.start, DirectoryCache.empty, Line.start]
  · simp [Sys.start, Tile.content, Tile.start, Tile.l2Line, Line.start, TileView.held]

theorem Good.start (cfg : Config A N) (allowed : Fin N → A → L1Kind → Prop) (listed : Prop) :
    Coherent cfg allowed listed Sys.start fun _ ↦ Block.zero :=
  ⟨fun a ↦ ⟨_, View.start cfg listed a, Line.Inv.start _, rfl⟩, fun _ ↦ .start,
    fun _ ↦ trivial, fun _ ↦ DirectoryCache.WF.empty _,
    by simp [Sys.start, Dir.start, DirectoryCache.entry, DirectoryCache.empty],
    by simp [Sys.start], fun _ ↦ rfl,
    fun _ ↦ ⟨by simp [Sys.start, Dir.start], by simp [Sys.start], by simp [Sys.start]⟩⟩

/-! ### Channels -/

section Channels

variable {cfg : Config A N} {s : Sys A N} {sends : List (Send A N)} {p : Packet A N} {src : Fin N}
  {rest : List (Packet A N)} {a : A}

/-- The messages that the caches of a tile send: those to a directory go to the home of the line. -/
def FromTile (home : A → Fin N) (sends : List (Send A N)) : Prop :=
  ∀ x ∈ sends, x.packet.msg.route ≠ .fromDirectory ∧
    (x.packet.msg.route = .toDirectory → x.receiver = home x.packet.msg.address)

/-- What the home of line `a` receives of them. -/
def upsOf (a : A) (sends : List (Send A N)) : List (UpMsg Block) :=
  sends.filterMap fun x ↦ upMsg a x.packet

/-- What tile `t` receives about line `a`. -/
def downsOf (a : A) (t : Fin N) (sends : List (Send A N)) : List (DownMsg Block) :=
  (Sys.packetsTo t sends).filterMap (downMsg a)

theorem downMsg_eq_none (h : p.msg.route ≠ .fromDirectory ∨ p.msg.address ≠ a) :
    downMsg a p = none := by
  rw [downMsg, if_neg (by tauto)]

theorem upMsg_eq_none (h : p.msg.route ≠ .toDirectory ∨ p.msg.address ≠ a) : upMsg a p = none := by
  rw [upMsg, if_neg (by tauto)]

theorem upsOf_eq_nil
    (h : ∀ x ∈ sends, x.packet.msg.route ≠ .toDirectory ∨ x.packet.msg.address ≠ a) :
    upsOf a sends = [] :=
  filterMap_eq_nil_iff.mpr fun x hx ↦ upMsg_eq_none (h x hx)

omit [DecidableEq A] in
theorem mem_packetsTo {t : Fin N} : p ∈ Sys.packetsTo t sends ↔ ⟨t, p⟩ ∈ sends := by
  simp only [Sys.packetsTo, mem_map, mem_filter, decide_eq_true_eq]
  constructor
  · rintro ⟨⟨_, _⟩, ⟨hx, rfl⟩, rfl⟩
    exact hx
  · exact fun h ↦ ⟨_, ⟨h, rfl⟩, rfl⟩

omit [DecidableEq A] in
theorem packetsTo_append (t : Fin N) (xs ys : List (Send A N)) :
    Sys.packetsTo t (xs ++ ys) = Sys.packetsTo t xs ++ Sys.packetsTo t ys := by
  simp [Sys.packetsTo]

theorem downsOf_append (a : A) (t : Fin N) (xs ys : List (Send A N)) :
    downsOf a t (xs ++ ys) = downsOf a t xs ++ downsOf a t ys := by
  simp [downsOf, packetsTo_append]

theorem downsOf_eq_nil {t : Fin N}
    (h : ∀ x ∈ sends, x.packet.msg.route ≠ .fromDirectory ∨ x.packet.msg.address ≠ a) :
    downsOf a t sends = [] :=
  filterMap_eq_nil_iff.mpr fun _ hp ↦ downMsg_eq_none (h _ (mem_packetsTo.mp hp))

/-- The messages to the home of a line are those about the line. -/
theorem filterMap_packetsTo {home : A → Fin N} (h : FromTile home sends) (a : A) :
    (Sys.packetsTo (home a) sends).filterMap (upMsg a) = upsOf a sends := by
  induction sends with
  | nil => rfl
  | cons x xs ih =>
    have hx := (h x (by simp)).2
    have hxs := ih fun y hy ↦ h y (by simp [hy])
    by_cases hr : x.receiver = home a
    · simp only [Sys.packetsTo, upsOf, filter_cons, hr, decide_true, if_true, map_cons,
        filterMap_cons]
      simp only [Sys.packetsTo, upsOf] at hxs
      rw [hxs]
    · have hne : x.packet.msg.route ≠ .toDirectory ∨ x.packet.msg.address ≠ a := by
        by_contra! hcon
        exact hr (by rw [hx hcon.1, hcon.2])
      simp only [Sys.packetsTo, upsOf] at hxs ⊢
      simp [hr, hxs, upMsg_eq_none hne]

omit [DecidableEq A] in
theorem chan_setChan (src dst : Fin N) (q : List (Packet A N)) (u v : Fin N) :
    (s.setChan src dst q).chan u v = if u = src ∧ v = dst then q else s.chan u v := by
  unfold Sys.setChan
  by_cases hu : u = src
  · subst hu
    by_cases hv : v = dst
    · subst hv
      simp
    · simp [hv]
  · simp [hu]

omit [DecidableEq A] in
theorem chan_post (src : Fin N) (sends : List (Send A N)) (u v : Fin N) :
    (s.post src sends).chan u v = s.chan u v ++ if u = src then Sys.packetsTo v sends else [] := by
  unfold Sys.post
  by_cases hu : u = src
  · subst hu
    simp
  · simp [hu]

theorem downs_post (src : Fin N) (sends : List (Send A N)) (a : A) (t : Fin N) :
    downs cfg (s.post src sends) a t =
      downs cfg s a t ++ if cfg.home a = src then downsOf a t sends else [] := by
  unfold downs
  rw [chan_post, filterMap_append]
  split_ifs <;> rfl

/-- What an L2 cache sends is not seen in the channels from the directory. -/
theorem downs_post_fromTile (h : FromTile cfg.home sends) (a : A) (t : Fin N) :
    downs cfg (s.post src sends) a t = downs cfg s a t := by
  have hnil : downsOf a t sends = [] := downsOf_eq_nil fun x hx ↦ .inl (h x hx).1
  rw [downs_post, hnil, ite_self, append_nil]

theorem ups_post_fromTile (h : FromTile cfg.home sends) (a : A) (t : Fin N) :
    ups cfg (s.post src sends) a t = ups cfg s a t ++ if t = src then upsOf a sends else [] := by
  unfold ups
  rw [chan_post, filterMap_append]
  split_ifs
  · rw [filterMap_packetsTo h]
  · rfl

/-- What a directory sends is not seen in the channels to the directory. -/
theorem ups_post_fromDirectory (h : ∀ x ∈ sends, x.packet.msg.route = .fromDirectory) (a : A)
    (t : Fin N) : ups cfg (s.post src sends) a t = ups cfg s a t := by
  have hnil (v : Fin N) : (Sys.packetsTo v sends).filterMap (upMsg a) = [] := by
    refine filterMap_eq_nil_iff.mpr fun p hp ↦ upMsg_eq_none (.inl ?_)
    have hroute : p.msg.route = .fromDirectory := h ⟨v, p⟩ (mem_packetsTo.mp hp)
    simp [hroute]
  unfold ups
  rw [chan_post, filterMap_append]
  split_ifs
  · rw [hnil, append_nil]
  · exact append_nil _

/-- The first packet of a channel is taken. -/
theorem downs_pop {src dst : Fin N} (hc : s.chan src dst = p :: rest) (a : A) (t : Fin N) :
    downs cfg s a t = (if cfg.home a = src ∧ t = dst then (downMsg a p).toList else []) ++
      downs cfg (s.setChan src dst rest) a t := by
  unfold downs
  rw [chan_setChan]
  split_ifs with h
  · rw [h.1, h.2, hc, filterMap_cons]
    cases downMsg a p <;> rfl
  · rfl

theorem ups_pop {src dst : Fin N} (hc : s.chan src dst = p :: rest) (a : A) (t : Fin N) :
    ups cfg s a t = (if t = src ∧ cfg.home a = dst then (upMsg a p).toList else []) ++
      ups cfg (s.setChan src dst rest) a t := by
  unfold ups
  rw [chan_setChan]
  split_ifs with h
  · rw [h.1, h.2, hc, filterMap_cons]
    cases upMsg a p <;> rfl
  · rfl

end Channels

end CarbonSim.Msi
