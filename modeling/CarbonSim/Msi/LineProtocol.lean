import Mathlib.Data.Finset.Card

/-!
# The private-L2 MSI protocol, one line at a time

The abstract model of `pr_l1_pr_l2_dram_directory_msi`: one cache line, its home directory, the
tiles that may hold it, and the two message queues between each tile and the home. The state says
what the directory records about the line (`dstate`, `sharers`, `owner`, `queue`) and what each tile
and its two queues hold (`TileView`). Lines meet only through evictions and NULLIFYs, which are
steps of a single line here, so a run of the whole memory system is a run of this model on every
line.

Two components are bookkeeping: `pending` records that the front request of the queue has already
been tried and waits for replies, and `stage` where the outstanding miss of a tile is on its way.
The directory may send an INV_REQ to any tiles it likes; only when its sharer list is exact
(the proposition `listed`) are all recorded sharers among them.

`Present` and `Absent` list what a tile and its two queues can look like, one constructor for each
phase of a copy's life, and `Line.Inv` is the inductive invariant made of them.
-/

namespace CarbonSim.Msi

/-! ### The state of a line -/

/-- The two requests a tile sends to the directory, EX_REQ and SH_REQ. -/
inductive ReqKind
  | ex
  | sh
  deriving DecidableEq, Repr

/-- What the directory knows about a line. -/
inductive LineDState
  | uncached
  | shared
  | modified
  deriving DecidableEq, Repr

/-- The state of a line in the L2 cache of a tile. -/
inductive LineCState
  | invalid
  | shared
  | modified
  deriving DecidableEq, Repr

/-- A request in the queue of a line: a miss of a tile, or the NULLIFY of a replaced entry. -/
inductive LineReq (N : ℕ)
  | miss (kind : ReqKind) (tile : Fin N)
  | nullify
  deriving DecidableEq, Repr

/-- A message from the home directory to the L2 cache of a tile. -/
inductive DownMsg (V : Type)
  | invReq
  | flushReq
  | wbReq
  | exRep (data : V)
  | shRep (data : V)
  deriving DecidableEq, Repr

/-- A message from the L2 cache of a tile to the home directory. -/
inductive UpMsg (V : Type)
  | req (kind : ReqKind)
  | invRep
  | flushRep (data : V)
  | wbRep (data : V)
  deriving DecidableEq, Repr

/-- Where the outstanding miss of a tile on the line is: nowhere, in the message from L1 to L2, in
the request to the directory, in the directory's queue, or in the reply. -/
inductive Stage
  | none
  | asking (kind : ReqKind)
  | requested (kind : ReqKind)
  | queued (kind : ReqKind)
  | granted (kind : ReqKind)
  deriving DecidableEq, Repr

/-- One tile as the line sees it. -/
structure TileView (V : Type) where
  cstate : LineCState
  cval : V
  down : List (DownMsg V)
  up : List (UpMsg V)
  stage : Stage

/-- One line of the memory system. -/
structure Line (N : ℕ) (V : Type) where
  dstate : LineDState
  sharers : Finset (Fin N)
  owner : Option (Fin N)
  queue : List (LineReq N)
  pending : Bool
  tile : Fin N → TileView V
  dram : V
  latest : V

variable {N : ℕ} {V : Type} {m : DownMsg V} {stale live : List (DownMsg V)}

namespace Line

/-- The line with tile `t` replaced. -/
@[simps]
def setTile (L : Line N V) (t : Fin N) (v : TileView V) : Line N V :=
  { L with tile := Function.update L.tile t v }

/-- The line before any access. -/
def start (x : V) : Line N V where
  dstate := .uncached
  sharers := ∅
  owner := none
  queue := []
  pending := false
  tile := fun _ ↦ ⟨.invalid, x, [], [], .none⟩
  dram := x
  latest := x

end Line

/-! ### The steps of a line -/

/-- The line after the directory has sent `m` to every tile of `targets`. -/
def Line.send (L : Line N V) (m : DownMsg V) (targets : Finset (Fin N)) : Line N V :=
  { L with tile := fun t ↦ if t ∈ targets then { L.tile t with down := (L.tile t).down ++ [m] }
                           else L.tile t }

/-- The request is an SH_REQ. -/
def LineReq.isSh : LineReq N → Bool
  | .miss .sh _ => true
  | _ => false

/-- The front request is an SH_REQ. -/
def Line.frontSh (L : Line N V) : Bool := L.queue.head?.any LineReq.isSh

/-- The request the directory sends to the owner of a modified line for the front request. -/
def LineReq.ownerMsg (r : LineReq N) : DownMsg V :=
  if r.isSh then .wbReq else .flushReq

/-- One step of a line. `listed` says that the directory's sharer list names every sharer. -/
inductive Line.Step (listed : Prop) : Line N V → Line N V → Prop
  /-- A store that completes in an L2 holding the line MODIFIED. -/
  | write (L : Line N V) (t : Fin N) (x : V) (hm : (L.tile t).cstate = .modified) :
      Step listed L { L.setTile t { L.tile t with cval := x } with latest := x }
  /-- An access that misses in L1 and L2: the L1 asks the L2. -/
  | ask (L : Line N V) (t : Fin N) (kind : ReqKind) (hs : (L.tile t).stage = .none)
      (hc : (L.tile t).cstate = .invalid ∨ kind = .ex ∧ (L.tile t).cstate = .shared) :
      Step listed L (L.setTile t { L.tile t with stage := .asking kind })
  /-- The L2 forwards a miss on a line it does not hold. -/
  | request (L : Line N V) (t : Fin N) (kind : ReqKind) (hs : (L.tile t).stage = .asking kind)
      (hc : (L.tile t).cstate = .invalid) :
      Step listed L (L.setTile t
        { L.tile t with stage := .requested kind, up := (L.tile t).up ++ [.req kind] })
  /-- The L2 gives up its shared copy before it forwards an EX_REQ. -/
  | drop (L : Line N V) (t : Fin N) (hs : (L.tile t).stage = .asking .ex)
      (hc : (L.tile t).cstate = .shared) :
      Step listed L (L.setTile t
        { L.tile t with cstate := .invalid, up := (L.tile t).up ++ [.invRep] })
  /-- A clean line is evicted. -/
  | evictClean (L : Line N V) (t : Fin N) (hs : (L.tile t).stage = .none)
      (hc : (L.tile t).cstate = .shared) :
      Step listed L (L.setTile t
        { L.tile t with cstate := .invalid, up := (L.tile t).up ++ [.invRep] })
  /-- A dirty line is evicted. -/
  | evictDirty (L : Line N V) (t : Fin N) (hs : (L.tile t).stage = .none)
      (hc : (L.tile t).cstate = .modified) :
      Step listed L (L.setTile t
        { L.tile t with cstate := .invalid, up := (L.tile t).up ++ [.flushRep (L.tile t).cval] })
  /-- A request of the directory reaches a tile that no longer holds the line. -/
  | ignore (L : Line N V) (t : Fin N) (m : DownMsg V) (rest : List (DownMsg V))
      (hm : m = .invReq ∨ m = .flushReq ∨ m = .wbReq)
      (hd : (L.tile t).down = m :: rest) (hc : (L.tile t).cstate = .invalid) :
      Step listed L (L.setTile t { L.tile t with down := rest })
  /-- An INV_REQ reaches a sharer. -/
  | invalidate (L : Line N V) (t : Fin N) (rest : List (DownMsg V))
      (hd : (L.tile t).down = .invReq :: rest) (hc : (L.tile t).cstate = .shared) :
      Step listed L (L.setTile t
        { L.tile t with cstate := .invalid, down := rest, up := (L.tile t).up ++ [.invRep] })
  /-- A FLUSH_REQ reaches the owner. -/
  | flush (L : Line N V) (t : Fin N) (rest : List (DownMsg V))
      (hd : (L.tile t).down = .flushReq :: rest) (hc : (L.tile t).cstate = .modified) :
      Step listed L (L.setTile t { L.tile t with
          cstate := .invalid, down := rest, up := (L.tile t).up ++ [.flushRep (L.tile t).cval] })
  /-- A WB_REQ reaches the owner. -/
  | writeBack (L : Line N V) (t : Fin N) (rest : List (DownMsg V))
      (hd : (L.tile t).down = .wbReq :: rest) (hc : (L.tile t).cstate = .modified) :
      Step listed L (L.setTile t { L.tile t with
          cstate := .shared, down := rest, up := (L.tile t).up ++ [.wbRep (L.tile t).cval] })
  /-- An EX_REP fills the line. -/
  | fillEx (L : Line N V) (t : Fin N) (x : V) (rest : List (DownMsg V))
      (hd : (L.tile t).down = .exRep x :: rest) :
      Step listed L (L.setTile t
        { L.tile t with cstate := .modified, cval := x, down := rest, stage := .none })
  /-- A SH_REP fills the line. -/
  | fillSh (L : Line N V) (t : Fin N) (x : V) (rest : List (DownMsg V))
      (hd : (L.tile t).down = .shRep x :: rest) :
      Step listed L (L.setTile t
        { L.tile t with cstate := .shared, cval := x, down := rest, stage := .none })
  /-- A request arrives at the directory. -/
  | enqueue (L : Line N V) (t : Fin N) (kind : ReqKind) (rest : List (UpMsg V))
      (hu : (L.tile t).up = .req kind :: rest) :
      Step listed L { L.setTile t { L.tile t with up := rest, stage := .queued kind } with
          queue := L.queue ++ [.miss kind t] }
  /-- The directory replaces the entry of a line with no request. -/
  | nullifyStart (L : Line N V) (hq : L.queue = []) :
      Step listed L { L with queue := [.nullify] }
  /-- The NULLIFY of an uncached line is complete. -/
  | nullifyDone (L : Line N V) (rest : List (LineReq N)) (hq : L.queue = .nullify :: rest)
      (hd : L.dstate = .uncached) :
      Step listed L { L with queue := rest, pending := false }
  /-- The directory answers the EX_REQ at the front of the queue of an uncached line. -/
  | grantEx (L : Line N V) (t : Fin N) (rest : List (LineReq N))
      (hq : L.queue = .miss .ex t :: rest) (hd : L.dstate = .uncached) :
      Step listed L { L.setTile t { L.tile t with
            down := (L.tile t).down ++ [.exRep L.dram], stage := .granted .ex } with
          dstate := .modified, sharers := {t}, owner := some t, queue := rest, pending := false }
  /-- The directory answers the SH_REQ at the front of the queue of a line that is not modified. -/
  | grantSh (L : Line N V) (t : Fin N) (rest : List (LineReq N))
      (hq : L.queue = .miss .sh t :: rest) (hd : L.dstate ≠ .modified) :
      Step listed L { L.setTile t { L.tile t with
            down := (L.tile t).down ++ [.shRep L.dram], stage := .granted .sh } with
          dstate := .shared, sharers := insert t L.sharers, queue := rest, pending := false }
  /-- The directory asks the owner of a modified line for the front request. -/
  | askOwner (L : Line N V) (o : Fin N) (r : LineReq N) (rest : List (LineReq N))
      (hq : L.queue = r :: rest) (hp : L.pending = false) (hd : L.dstate = .modified)
      (ho : L.owner = some o) :
      Step listed L { L.send r.ownerMsg {o} with pending := true }
  /-- The directory sends INV_REQs for an EX_REQ or a NULLIFY at the front of the queue. -/
  | invSharers (L : Line N V) (targets : Finset (Fin N)) (r : LineReq N)
      (rest : List (LineReq N)) (hq : L.queue = r :: rest) (hr : r.isSh = false)
      (hd : L.dstate = .shared) (he : listed → L.sharers ⊆ targets) :
      Step listed L { L.send .invReq targets with pending := true }
  /-- The directory invalidates one sharer to make room for the SH_REQ at the front. -/
  | invOne (L : Line N V) (targets : Finset (Fin N)) (t : Fin N)
      (rest : List (LineReq N)) (hq : L.queue = .miss .sh t :: rest)
      (hd : L.dstate = .shared) (he : listed → (L.sharers ∩ targets).Nonempty) :
      Step listed L { L.send .invReq targets with pending := true }
  /-- An INV_REP removes a sharer. -/
  | invRep (L : Line N V) (t : Fin N) (rest : List (UpMsg V))
      (hu : (L.tile t).up = .invRep :: rest) (hd : L.dstate = .shared) :
      Step listed L { L.setTile t { L.tile t with up := rest } with
          sharers := L.sharers.erase t
          dstate := if L.sharers.erase t = ∅ then .uncached else .shared
          pending := L.pending && decide (L.sharers.erase t ≠ ∅) && !L.frontSh }
  /-- A FLUSH_REP whose data is written to DRAM. -/
  | flushRep (L : Line N V) (t : Fin N) (x : V) (rest : List (UpMsg V))
      (hu : (L.tile t).up = .flushRep x :: rest) (hd : L.dstate = .modified) :
      Step listed L { L.setTile t { L.tile t with up := rest } with
          sharers := L.sharers.erase t, owner := none, dstate := .uncached, pending := false
          dram := x }
  /-- A FLUSH_REP whose data is forwarded to the EX_REQ at the front of the queue. -/
  | flushForward (L : Line N V) (t u : Fin N) (x : V) (rest : List (UpMsg V))
      (qrest : List (LineReq N)) (hu : (L.tile t).up = .flushRep x :: rest)
      (hd : L.dstate = .modified) (hq : L.queue = .miss .ex u :: qrest) (hut : u ≠ t) :
      Step listed L { (L.setTile t { L.tile t with up := rest }).setTile u { L.tile u with
            down := (L.tile u).down ++ [.exRep x], stage := .granted .ex } with
          sharers := {u}, owner := some u, pending := false, queue := qrest }
  /-- A WB_REP: the owner keeps a shared copy and the data is written to DRAM. -/
  | wbRep (L : Line N V) (t : Fin N) (x : V) (rest : List (UpMsg V))
      (hu : (L.tile t).up = .wbRep x :: rest) (hd : L.dstate = .modified) :
      Step listed L { L.setTile t { L.tile t with up := rest } with
          owner := none, dstate := .shared, pending := false, dram := x }

/-! ### The phases of a copy -/

/-- The message is a request of the directory, not a reply. -/
def DownMsg.IsReq : DownMsg V → Prop
  | .exRep _ => False
  | .shRep _ => False
  | _ => True

/-- The request of a tile that follows everything else it has sent. -/
def Stage.upTail : Stage → List (UpMsg V)
  | .requested kind => [.req kind]
  | _ => []

/-- A tile that the directory does not record: whatever the directory still has on its way to it is
a request sent to an earlier copy. -/
structure Absent (v : TileView V) : Prop where
  cstate : v.cstate = .invalid
  stale : ∀ m ∈ v.down, m.IsReq
  up : v.up = v.stage.upTail
  stage : ∀ kind, v.stage ≠ .granted kind

/-- A tile that the directory records as a sharer, when the directory is in state `d`, has asked the
owner of a modified line for `ask` and the last value written is `x`. -/
inductive Present (d : LineDState) (ask : Option (DownMsg V)) (x : V) : TileView V → Prop
  /-- The SH_REP is on its way; requests before it were sent to an earlier copy. -/
  | incomingSh (w : V) (stale live : List (DownMsg V)) (hd : d = .shared)
      (hs : ∀ m ∈ stale, m.IsReq) (hl : ∀ m ∈ live, m = .invReq) :
      Present d ask x ⟨.invalid, w, stale ++ .shRep x :: live, [], .granted .sh⟩
  /-- The EX_REP is on its way. -/
  | incomingEx (w : V) (stale : List (DownMsg V)) (hd : d = .modified)
      (hs : ∀ m ∈ stale, m.IsReq) :
      Present d ask x ⟨.invalid, w, stale ++ .exRep x :: ask.toList, [], .granted .ex⟩
  /-- The L2 holds the line SHARED. -/
  | heldSh (live : List (DownMsg V)) (stage : Stage) (hd : d = .shared)
      (hl : ∀ m ∈ live, m = .invReq) (hst : stage = .none ∨ stage = .asking .ex) :
      Present d ask x ⟨.shared, x, live, [], stage⟩
  /-- The L2 holds the line MODIFIED. -/
  | heldEx (hd : d = .modified) : Present d ask x ⟨.modified, x, ask.toList, [], .none⟩
  /-- The L2 has written the line back and the WB_REP is on its way. -/
  | heldWb (stage : Stage) (hd : d = .modified) (ha : ask = some .wbReq)
      (hst : stage = .none ∨ stage = .asking .ex) :
      Present d ask x ⟨.shared, x, [], [.wbRep x], stage⟩
  /-- The INV_REP of a clean copy is on its way. -/
  | leavingSh (w : V) (down : List (DownMsg V)) (stage : Stage) (hd : d = .shared)
      (hs : ∀ m ∈ down, m.IsReq)
      (hst : ∀ kind, stage ≠ .queued kind ∧ stage ≠ .granted kind) :
      Present d ask x ⟨.invalid, w, down, .invRep :: stage.upTail, stage⟩
  /-- The WB_REP and, after it, the INV_REP of the copy written back are on their way. -/
  | leavingWb (w : V) (stage : Stage) (hd : d = .modified) (ha : ask = some .wbReq)
      (hst : ∀ kind, stage ≠ .queued kind ∧ stage ≠ .granted kind) :
      Present d ask x ⟨.invalid, w, [], .wbRep x :: .invRep :: stage.upTail, stage⟩
  /-- The FLUSH_REP of a dirty copy is on its way. -/
  | leavingEx (w : V) (down : List (DownMsg V)) (stage : Stage) (hd : d = .modified)
      (hs : ∀ m ∈ down, m.IsReq)
      (hst : ∀ kind, stage ≠ .queued kind ∧ stage ≠ .granted kind) :
      Present d ask x ⟨.invalid, w, down, .flushRep x :: stage.upTail, stage⟩

/-- What the directory has asked the owner for on behalf of the front request. -/
def Line.asked (L : Line N V) : Option (DownMsg V) :=
  if L.pending then L.queue.head?.map LineReq.ownerMsg else none

@[simp] theorem Line.setTile_asked (L : Line N V) (t : Fin N) (v : TileView V) :
    (L.setTile t v).asked = L.asked := rfl

/-- An INV_REQ is on its way to a copy, or the INV_REP of the copy to the directory. -/
def TileView.InvDue (v : TileView V) : Prop :=
  (∃ stale live, v.down = stale ++ .invReq :: live ∧ ∀ m ∈ live, m.IsReq) ∨ .invRep ∈ v.up

/-- The inductive invariant of a line. -/
structure Line.Inv (listed : Prop) (L : Line N V) : Prop where
  /-- Recorded tiles are those in a phase of `Present`. -/
  present : ∀ t ∈ L.sharers, Present L.dstate L.asked L.latest (L.tile t)
  absent : ∀ t ∉ L.sharers, Absent (L.tile t)
  uncached : L.dstate = .uncached → L.sharers = ∅
  shared : L.dstate = .shared → L.sharers.Nonempty
  modified : L.dstate = .modified → ∃ o, L.owner = some o ∧ L.sharers = {o}
  noOwner : L.dstate ≠ .modified → L.owner = none
  /-- DRAM is fresh unless some tile has been given the line to modify. -/
  fresh : L.dstate ≠ .modified → L.dram = L.latest
  queued : ∀ kind t, .miss kind t ∈ L.queue ↔ (L.tile t).stage = .queued kind
  nodup : L.queue.Nodup
  /-- A NULLIFY is never queued behind a request. -/
  nullifyFirst : .nullify ∉ L.queue.tail
  pending : L.pending = true → L.queue ≠ [] ∧ L.dstate ≠ .uncached
  /-- A waiting request is waiting for somebody. -/
  waitAll : listed → L.pending = true → L.dstate = .shared → L.frontSh = false →
    ∀ t ∈ L.sharers, (L.tile t).InvDue
  waitOne : listed → L.pending = true → L.dstate = .shared → L.frontSh = true →
    ∃ t ∈ L.sharers, (L.tile t).InvDue

/-! ### What a tile does to its phase -/

@[simp] theorem upTail_none : (Stage.upTail .none : List (UpMsg V)) = [] := rfl

@[simp] theorem upTail_asking (kind : ReqKind) :
    (Stage.upTail (.asking kind) : List (UpMsg V)) = [] := rfl

@[simp] theorem upTail_requested (kind : ReqKind) :
    (Stage.upTail (.requested kind) : List (UpMsg V)) = [.req kind] := rfl

@[simp] theorem upTail_queued (kind : ReqKind) :
    (Stage.upTail (.queued kind) : List (UpMsg V)) = [] := rfl

section Phases

variable {d : LineDState} {ask : Option (DownMsg V)} {x : V} {v : TileView V}
  {rest : List (DownMsg V)} {kind : ReqKind} {stage : Stage}

/-- A copy that is about to be given up sends nothing after its notice. -/
theorem upTail_of_held (hst : stage = .none ∨ stage = .asking .ex) :
    (stage.upTail : List (UpMsg V)) = [] := by
  rcases hst with rfl | rfl <;> rfl

theorem held_not_queued (hst : stage = .none ∨ stage = .asking .ex) (kind : ReqKind) :
    stage ≠ .queued kind ∧ stage ≠ .granted kind := by
  rcases hst with rfl | rfl <;> simp

section

variable (h : Present d ask x v)

include h

/-- A shared copy is given up: by an eviction, an upgrade miss or an INV_REQ. -/
theorem Present.giveUpShared (hc : v.cstate = .shared) (rest : List (DownMsg V))
    (hrest : rest <:+ v.down) :
    Present d ask x { v with cstate := .invalid, down := rest, up := v.up ++ [.invRep] } := by
  cases h with
  | incomingSh | incomingEx | heldEx | leavingSh | leavingWb | leavingEx => simp at hc
  | heldSh live stage hd hl hst =>
    have hreq : ∀ m ∈ rest, m.IsReq := fun m hm ↦ by
      rw [hl m (hrest.subset hm)]
      trivial
    simpa [upTail_of_held hst] using Present.leavingSh x rest stage hd hreq (held_not_queued hst)
  | heldWb stage hd ha hst =>
    obtain rfl : rest = [] := List.suffix_nil.mp hrest
    simpa [upTail_of_held hst] using Present.leavingWb x stage hd ha (held_not_queued hst)

/-- A tile that holds the line MODIFIED is the owner and its copy is the last value written. -/
theorem Present.of_modified (hc : v.cstate = .modified) :
    d = .modified ∧ v = ⟨.modified, x, ask.toList, [], .none⟩ := by
  cases h with
  | heldEx hd => exact ⟨hd, rfl⟩
  | incomingSh | incomingEx | heldSh | heldWb | leavingSh | leavingWb | leavingEx => simp at hc

/-- A modified copy is given up: by an eviction or a FLUSH_REQ. -/
theorem Present.giveUpModified (hc : v.cstate = .modified) (hask : ∀ m ∈ ask, m.IsReq)
    (rest : List (DownMsg V)) (hrest : rest <:+ v.down) :
    Present d ask x
      { v with cstate := .invalid, down := rest, up := v.up ++ [.flushRep v.cval] } := by
  obtain ⟨hd, rfl⟩ := h.of_modified hc
  have hreq : ∀ m ∈ rest, m.IsReq := fun m hm ↦ hask m (by simpa using hrest.subset hm)
  exact .leavingEx x rest .none hd hreq (by simp)

/-- The owner answers a WB_REQ. -/
theorem Present.writeBack (hc : v.cstate = .modified) (hdown : v.down = .wbReq :: rest) :
    Present d ask x { v with cstate := .shared, down := rest, up := v.up ++ [.wbRep v.cval] } := by
  obtain ⟨hd, rfl⟩ := h.of_modified hc
  cases ask with
  | none => simp at hdown
  | some m =>
    obtain ⟨rfl, rfl⟩ : m = .wbReq ∧ rest = [] := by simpa using hdown
    exact .heldWb .none hd rfl (.inl rfl)

/-- A readable copy is the last value written. -/
theorem Present.cval (hc : v.cstate ≠ .invalid) : v.cval = x := by
  cases h <;> simp_all

/-- A recorded tile has no request in the directory's queue. -/
theorem Present.not_queued (kind : ReqKind) : v.stage ≠ .queued kind := by
  cases h with
  | incomingSh | incomingEx | heldEx => simp
  | heldSh _ _ _ _ hst | heldWb _ _ _ hst => exact (held_not_queued hst kind).1
  | leavingSh _ _ _ _ _ hst | leavingWb _ _ _ _ hst | leavingEx _ _ _ _ _ hst => exact (hst kind).1

/-- While the notice of a copy is on its way, the next miss of the tile follows it. -/
theorem Present.restage (hc : v.cstate = .invalid) (hs : ∀ kind, v.stage ≠ .granted kind) :
    ∃ notice, v.up = notice ++ v.stage.upTail ∧
      ∀ stage : Stage, (∀ kind, stage ≠ .queued kind ∧ stage ≠ .granted kind) →
        Present d ask x { v with up := notice ++ stage.upTail, stage } := by
  cases h with
  | incomingSh | incomingEx => exact absurd rfl (hs _)
  | heldEx | heldSh | heldWb => simp at hc
  | leavingSh w down _ hd hreq _ =>
    exact ⟨[.invRep], rfl, fun stage hst ↦ .leavingSh w down stage hd hreq hst⟩
  | leavingWb w _ hd ha _ =>
    exact ⟨[.wbRep x, .invRep], rfl, fun stage hst ↦ .leavingWb w stage hd ha hst⟩
  | leavingEx w down _ hd hreq _ =>
    exact ⟨[.flushRep x], rfl, fun stage hst ↦ .leavingEx w down stage hd hreq hst⟩

/-- The L1 of a recorded tile asks for the line. -/
theorem Present.asking (hs : v.stage = .none)
    (hc : v.cstate = .invalid ∨ kind = .ex ∧ v.cstate = .shared) :
    Present d ask x { v with stage := .asking kind } := by
  rcases hc with hc | ⟨rfl, hc⟩
  · obtain ⟨notice, hup, hnext⟩ := h.restage hc (by simp [hs])
    have hasking := hnext (.asking kind) (by simp)
    rwa [upTail_asking, ← upTail_none, ← hs, ← hup] at hasking
  · cases h with
    | incomingSh | incomingEx | heldEx | leavingSh | leavingWb | leavingEx => simp at hc
    | heldSh live stage hd hl hst => exact .heldSh live _ hd hl (.inr rfl)
    | heldWb stage hd ha hst => exact .heldWb _ hd ha (.inr rfl)

/-- The L2 of a recorded tile whose notice is on its way forwards a new miss. -/
theorem Present.request (hs : v.stage = .asking kind) (hc : v.cstate = .invalid) :
    Present d ask x { v with stage := .requested kind, up := v.up ++ [.req kind] } := by
  obtain ⟨notice, hup, hnext⟩ := h.restage hc (by simp [hs])
  have hrequested := hnext (.requested kind) (by simp)
  rw [hs, upTail_asking, List.append_nil] at hup
  rwa [upTail_requested, ← hup] at hrequested

/-- What is on its way to a recorded tile that has no reply on its way are requests. -/
theorem Present.reply_or_isReq (hask : ∀ m ∈ ask, m.IsReq) :
    (∃ w stale live, d = .shared ∧ (∀ m ∈ stale, m.IsReq) ∧ (∀ m ∈ live, m = .invReq) ∧
      v = ⟨.invalid, w, stale ++ .shRep x :: live, [], .granted .sh⟩) ∨
    (∃ w stale, d = .modified ∧ (∀ m ∈ stale, m.IsReq) ∧
      v = ⟨.invalid, w, stale ++ .exRep x :: ask.toList, [], .granted .ex⟩) ∨
    ∀ m ∈ v.down, m.IsReq := by
  cases h with
  | incomingSh w stale live hd hs hl => exact .inl ⟨w, stale, live, hd, hs, hl, rfl⟩
  | incomingEx w stale hd hs => exact .inr (.inl ⟨w, stale, hd, hs, rfl⟩)
  | heldSh live stage hd hl hst => exact .inr (.inr fun m hm ↦ by rw [hl m hm]; trivial)
  | heldEx hd => exact .inr (.inr fun m hm ↦ hask m (by simpa using hm))
  | heldWb | leavingWb => exact .inr (.inr (by simp))
  | leavingSh w down stage hd hreq hst | leavingEx w down stage hd hreq hst =>
    exact .inr (.inr hreq)

end

/-- A reply that is received is the first one on its way. -/
theorem reply_received {m' : DownMsg V}
    (hs : ∀ m ∈ stale, m.IsReq) (hm : ¬ m.IsReq) (hdown : stale ++ m' :: live = m :: rest) :
    m' = m ∧ live = rest := by
  cases stale with
  | nil => simpa using hdown
  | cons first stale =>
    obtain ⟨rfl, -⟩ : first = m ∧ _ := by simpa using hdown
    exact absurd (hs first (by simp)) hm

/-- A request that is received was sent before any reply on its way. -/
theorem request_received {m' : DownMsg V} (hm : m.IsReq)
    (hm' : ¬ m'.IsReq) (hdown : stale ++ m' :: live = m :: rest) :
    ∃ stale', stale = m :: stale' ∧ rest = stale' ++ m' :: live := by
  cases stale with
  | nil =>
    obtain ⟨rfl, -⟩ : m' = m ∧ live = rest := by simpa using hdown
    exact absurd hm hm'
  | cons first stale =>
    obtain ⟨rfl, rfl⟩ : first = m ∧ stale ++ m' :: live = rest := by simpa using hdown
    exact ⟨stale, rfl, rfl⟩

/-- A request that reaches a recorded tile without the line was sent to an earlier copy. -/
theorem Present.ignore (h : Present d ask x v) (hm : m.IsReq)
    (hdown : v.down = m :: rest) (hc : v.cstate = .invalid) :
    Present d ask x { v with down := rest } := by
  cases h with
  | heldEx | heldSh | heldWb => simp at hc
  | incomingSh w stale live hd hs hl =>
    obtain ⟨stale', rfl, rfl⟩ := request_received hm id hdown
    exact .incomingSh w stale' live hd (fun m hm ↦ hs m (by simp [hm])) hl
  | incomingEx w stale hd hs =>
    obtain ⟨stale', rfl, rfl⟩ := request_received hm id hdown
    exact .incomingEx w stale' hd (fun m hm ↦ hs m (by simp [hm]))
  | leavingSh w down stage hd hreq hst =>
    obtain rfl : down = m :: rest := hdown
    exact .leavingSh w rest stage hd (fun m hm ↦ hreq m (by simp [hm])) hst
  | leavingWb => simp at hdown
  | leavingEx w down stage hd hreq hst =>
    obtain rfl : down = m :: rest := hdown
    exact .leavingEx w rest stage hd (fun m hm ↦ hreq m (by simp [hm])) hst

/-- A recorded tile that receives an EX_REP becomes the owner of the last value written. -/
theorem Present.fillEx (h : Present d ask x v) (hask : ∀ m ∈ ask, m.IsReq) {y : V}
    (hdown : v.down = .exRep y :: rest) :
    y = x ∧ Present d ask x
      { v with cstate := .modified, cval := y, down := rest, stage := .none } := by
  rcases h.reply_or_isReq hask with ⟨w, stale, live, hd, hs, hl, rfl⟩ | ⟨w, stale, hd, hs, rfl⟩ | hreq
  · exact absurd (reply_received hs id hdown).1 (by simp)
  · obtain ⟨heq, rfl⟩ := reply_received hs id hdown
    obtain rfl : x = y := by simpa using heq
    exact ⟨rfl, Present.heldEx hd⟩
  · exact (hreq (.exRep y) (by simp [hdown])).elim

/-- A recorded tile that receives a SH_REP gets the last value written. -/
theorem Present.fillSh (h : Present d ask x v) (hask : ∀ m ∈ ask, m.IsReq) {y : V}
    (hdown : v.down = .shRep y :: rest) :
    y = x ∧ Present d ask x
      { v with cstate := .shared, cval := y, down := rest, stage := .none } := by
  rcases h.reply_or_isReq hask with ⟨w, stale, live, hd, hs, hl, rfl⟩ | ⟨w, stale, hd, hs, rfl⟩ | hreq
  · obtain ⟨heq, rfl⟩ := reply_received hs id hdown
    obtain rfl : x = y := by simpa using heq
    exact ⟨rfl, Present.heldSh live .none hd hl (.inl rfl)⟩
  · exact absurd (reply_received hs id hdown).1 (by simp)
  · exact (hreq (.shRep y) (by simp [hdown])).elim

end Phases

end CarbonSim.Msi
