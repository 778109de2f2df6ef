import CarbonSim.Directory.EntryFaults
import CarbonSim.Msi.DirectoryFrame

/-!
# The directory serves a request

The front request of a line is either answered, or messages are sent to the tiles that hold the
line and the request waits. Each outcome is a sequence of steps of the line.
-/

namespace CarbonSim.Msi

open Directory List Function
open Relation (ReflTransGen)

variable {A : Type} [DecidableEq A] {N : ℕ} {cfg : Config A N} {allowed : Fin N → A → L1Kind → Prop}
  {listed : Prop} {ph : A → Phase} {s : Sys A N} {mem : A → Block} {g t : Fin N}
  {d d' : Dir A N} {sends : List (Send A N)} {a : A} {L : Line N Block}
  {req : ShmemReq A N} {rest : List (ShmemReq A N)} {e : Entry} {S : Finset (Fin N)}
  {p : Packet A N} {qrest : List (LineReq N)} {m : DownMsg Block}

/-- The memory manager accepts the scheme, and if `listed` holds, the directory can name every tile:
unless it has a bit for each, ids fit in 16 bits, and unless it has a software list, an entry has
room for one of them. -/
structure Config.Supported (cfg : Config A N) (listed : Prop) : Prop where
  scheme : cfg.scheme ≠ .limitedBroadcast
  lists : listed → cfg.scheme ≠ .fullMap →
    N ≤ 2 ^ 15 ∧ (cfg.scheme ≠ .limitless → 0 < cfg.maxHwSharers)
  ways : listed → N ≤ cfg.directory.scan.toFinset.card

/-! ### Effects on the directory -/

namespace Dir

theorem getDirectoryEntry_of_some (h : d.cache.WF cfg.directory)
    (he : d.cache.entry cfg.directory a = some e) :
    ∃ c, d.clock ≤ c ∧ d.getDirectoryEntry cfg a = (some e, { d with clock := c }) := by
  unfold Dir.getDirectoryEntry
  rw [h.getDirectoryEntry_of_some he]
  exact ⟨_, by omega, rfl⟩

omit [DecidableEq A] in
theorem sendMsg_fin (d : Dir A N) (t : Fin N) (m : ShmemMsg A N) :
    d.sendMsg ((t : ℕ) : ℤ) m = .ok { d with out := d.out ++ [⟨t, ⟨m, d.clock⟩⟩] } := by
  unfold Dir.sendMsg
  rw [dif_pos ⟨by omega, by simp⟩]
  rfl

omit [DecidableEq A] in
theorem sendMsg_outcome (d : Dir A N) (z : ℤ) (m : ShmemMsg A N) :
    Outcome (d.sendMsg z m)
      (fun d' ↦ ∃ t : Fin N, z = (t : ℕ) ∧ d' = { d with out := d.out ++ [⟨t, ⟨m, d.clock⟩⟩] })
      fun e ↦ e = .noSuchTile ∧ ∀ t : Fin N, z ≠ (t : ℕ) := by
  by_cases hz : ∃ t : Fin N, z = (t : ℕ)
  · obtain ⟨t, rfl⟩ := hz
    rw [sendMsg_fin]
    exact ⟨t, rfl, rfl⟩
  · have hout : d.sendMsg z m = .error .noSuchTile := by
      unfold Dir.sendMsg
      rw [dif_neg]
      rintro ⟨h0, hN⟩
      exact hz ⟨⟨z.toNat, hN⟩, by simp [h0]⟩
    rw [hout]
    exact ⟨rfl, fun t ht ↦ hz ⟨t, ht⟩⟩

omit [DecidableEq A] in
/-- The messages to a list of tiles. -/
theorem sendEach_outcome (m : ShmemMsg A N) (zs : List ℤ) (d : Dir A N) :
    Outcome (sendEach m zs d)
      (fun d' ↦ ∃ ts : List (Fin N), zs = ts.map (fun t : Fin N ↦ ((t : ℕ) : ℤ)) ∧
        d' = { d with out := d.out ++ ts.map fun t ↦ ⟨t, ⟨m, d.clock⟩⟩ })
      fun e ↦ e = .noSuchTile ∧ ∃ z ∈ zs, ∀ t : Fin N, z ≠ (t : ℕ) := by
  induction zs generalizing d with
  | nil => exact ⟨[], rfl, by simp⟩
  | cons z zs ih =>
    unfold Dir.sendEach
    refine .bind_mono (d.sendMsg_outcome z m) ?_ ?_
    · rintro e ⟨rfl, hno⟩
      exact ⟨rfl, z, by simp, hno⟩
    · rintro d₁ ⟨t, rfl, rfl⟩
      refine (ih _).mono ?_ ?_
      · rintro d' ⟨ts, rfl, rfl⟩
        exact ⟨t :: ts, rfl, by simp⟩
      · rintro e ⟨rfl, z, hz, hno⟩
        exact ⟨rfl, z, by simp [hz], hno⟩

omit [DecidableEq A] in
/-- INV_REQs go to all sharers if the list is exact. -/
theorem sendInvReqs_outcome (h : Represents listed e.sharers S) :
    Outcome (d.sendInvReqs e req)
      (fun d' ↦ ∃ ts : List (Fin N), (listed → ts.Nodup ∧ ∀ t ∈ S, t ∈ ts) ∧
        d' = { d with out := d.out ++ ts.map fun t ↦ ⟨t, ⟨message .invReq req none, d.clock⟩⟩ })
      (Tolerated listed) := by
  unfold Dir.sendInvReqs
  refine .bind (e.sharers.getSharersList_noDramFault.tolerated h.1.getSharersList) ?_
  rintro ⟨all, list⟩ hr
  dsimp only
  split_ifs with hall
  · refine ⟨List.finRange N, fun _ ↦ ⟨nodup_finRange N, by simp⟩, rfl⟩
  · refine (sendEach_outcome _ _ _).mono ?_ ?_
    · rintro d' ⟨ts, rfl, rfl⟩
      refine ⟨ts, fun hl ↦ ⟨(hr.nodup hl).of_map _, fun t ht ↦ ?_⟩, rfl⟩
      have hmem := hr.complete hl (hr.all (by simpa using hall)) t ht
      obtain ⟨u, hu, heq⟩ := mem_map.mp hmem
      obtain rfl : u = t := Fin.ext (by exact_mod_cast heq)
      exact hu
    · rintro e ⟨rfl, z, hz, hno⟩
      refine ⟨fun hl ↦ ?_, by decide⟩
      obtain ⟨t, -, ht⟩ := hr.sound hl z hz
      exact hno t ht

/-- The data of a reply, from an earlier reply or from DRAM. -/
theorem retrieveDataAndSendToL2Cache_eq (env : Env A) (d : Dir A N) (type : MsgType)
    (req : ShmemReq A N) (cachedData : Option Block) :
    ∃ c, d.clock ≤ c ∧ d.retrieveDataAndSendToL2Cache env type req cachedData = .ok { d with
        clock := c
        dram := if cachedData.isNone then
            update d.dram req.address (some ((d.dram req.address).getD .zero))
          else d.dram
        out := d.out ++ [⟨req.requester, ⟨message type req
          (some (cachedData.getD ((d.dram req.address).getD .zero))), c⟩⟩] } := by
  unfold Dir.retrieveDataAndSendToL2Cache
  cases cachedData with
  | some data =>
    refine ⟨d.clock, le_refl _, ?_⟩
    dsimp only
    rw [sendMsg_fin]
    rfl
  | none =>
    unfold Dir.getDataFromDram
    refine ⟨_, Nat.le_add_right _ (if req.modeled then env.dramLatency req.address d.clock else 0), ?_⟩
    dsimp only
    rw [sendMsg_fin]
    rfl

end Dir

/-! ### Views of entries -/

omit [DecidableEq A] in
theorem EntryView.fresh (hcfg : cfg.Supported listed) (hL : L.Inv listed)
    (hd : L.dstate = .uncached) : EntryView listed cfg.freshEntry L := by
  have howner : L.owner = none := hL.noOwner (by simp [hd])
  refine ⟨?_, ?_, ?_, ?_⟩
  · rw [hd]
    rfl
  · rw [howner]
    rfl
  · rw [hL.uncached hd]
    exact .create hcfg.scheme hcfg.lists
  · simp [howner]

theorem Entry.addSharer_outcome (h : Represents listed e.sharers S) (ht : t ∉ S) :
    Outcome (e.addSharer ((t : ℕ) : ℤ))
      (fun r ↦ ∃ x, r.2 = { e with sharers := x } ∧ AddPost listed e.sharers S t (r.1, x))
      (Tolerated listed) := by
  unfold Entry.addSharer
  refine .bind ((e.sharers.addSharer_noDramFault _).tolerated (h.addSharer ht)) fun r hr ↦ ?_
  exact ⟨r.2, rfl, hr⟩

theorem Entry.hasSharer_outcome {x : Sharers} (h : Tracked listed x t) :
    Outcome (x.hasSharer ((t : ℕ) : ℤ)) (fun r ↦ listed → r = true) (Tolerated listed) := by
  refine (x.hasSharer_noDramFault _).tolerated (.provided fun hl ↦ ?_)
  rw [h hl]
  rfl

theorem Entry.setOwner_outcome (h : Tracked listed e.sharers t) :
    Outcome (e.setOwner ((t : ℕ) : ℤ)) (fun e' ↦ e' = { e with owner := ownerId (some t) })
      (Tolerated listed) := by
  unfold Entry.setOwner
  rw [if_neg (by simp only [invalidTileId]; omega)]
  refine .bind (Entry.hasSharer_outcome h) fun r hr ↦ ?_
  exact .require_bind (fun _ ↦ rfl) fun hn ↦ ⟨fun hl ↦ hn (hr hl), by decide⟩

theorem Entry.removeSharer_outcome (h : Represents listed e.sharers S) (ht : t ∈ S) :
    Outcome (e.removeSharer ((t : ℕ) : ℤ) false)
      (fun e' ↦ ∃ x, e' = { e with sharers := x } ∧ Represents listed x (S.erase t))
      (Tolerated listed) := by
  unfold Entry.removeSharer
  refine .bind ((e.sharers.removeSharer_noDramFault _ _).tolerated (h.removeSharer ht))
    fun x hx ↦ ?_
  exact ⟨x, rfl, hx⟩

/-- One sharer is chosen to make room for another. -/
theorem Entry.getOneSharer_outcome (h : Represents listed e.sharers S)
    (hmode : e.sharers.inBroadcastMode = false) (hS : listed → S.Nonempty) :
    Outcome e.getOneSharer
      (fun r ↦ (∃ k, r.2 = { e with seed := k }) ∧ (listed → ∃ t ∈ S, r.1 = ((t : ℕ) : ℤ)))
      (Tolerated listed) := by
  unfold Entry.getOneSharer
  refine .bind ((e.sharers.oneSharer_noDramFault _).tolerated
    (h.1.oneSharer (fun n hn ↦ Nat.mod_lt _ hn) hmode hS)) fun z hz ↦ ?_
  refine ⟨?_, hz⟩
  by_cases hinv : z = invalidTileId
  · exact ⟨e.seed, by simp [hinv]⟩
  · exact ⟨Entry.nextSeed e.seed, by simp [hinv]⟩

/-! ### Steps of the line -/

theorem StageView.grant {x : Tile A} {kind : ReqKind} (h : StageView x a (.queued kind)) :
    StageView x a (.granted kind) := by
  unfold StageView at h ⊢
  split at h
  · split_ifs at h ⊢
    obtain ⟨rfl⟩ : kind = kindOf _ := by simpa using h
    exact .inr (.inr rfl)
  · simp at h

/-- A request that has been tried and waits. -/
theorem DirView.wait (h : DirView cfg listed d .trying a L) (tile : Fin N → TileView Block) :
    DirView cfg listed d .settled a { L with tile, pending := true } := by
  have hq := h.busy (by simp)
  exact ⟨fun e he ↦ ⟨(h.entry e he).dstate, (h.entry e he).owner, (h.entry e he).sharers,
    (h.entry e he).tracked⟩, h.noEntry, h.queue, by simp, by simp [hq], h.address, h.dram, h.asked,
    h.replaced⟩

theorem Line.send_tile (m : DownMsg Block) (targets : Finset (Fin N)) (t : Fin N) :
    (L.send m targets).tile t =
      { L.tile t with down := (L.tile t).down ++ if t ∈ targets then [m] else [] } := by
  unfold Line.send
  dsimp only
  split_ifs <;> simp

omit [DecidableEq A] in
theorem packetsTo_singleton (o t : Fin N) (p : Packet A N) :
    Sys.packetsTo t [⟨o, p⟩] = if t = o then [p] else [] := by
  unfold Sys.packetsTo
  by_cases ht : t = o
  · simp [ht]
  · simp [ht, Ne.symm ht]

theorem downsOf_singleton {o : Fin N} (hm : downMsg a p = some m) (t : Fin N) :
    downsOf a t [⟨o, p⟩] = if t = o then [m] else [] := by
  unfold downsOf
  rw [packetsTo_singleton]
  split_ifs <;> simp [hm]

theorem downsOf_map (hm : downMsg a p = some m) (ts : List (Fin N)) (t : Fin N) :
    downsOf a t (ts.map fun u ↦ ⟨u, p⟩) = List.replicate (ts.count t) m := by
  induction ts with
  | nil => rfl
  | cons u ts ih =>
    have hcons : (u :: ts).map (fun u ↦ (⟨u, p⟩ : Send A N)) =
        [⟨u, p⟩] ++ ts.map fun u ↦ ⟨u, p⟩ := rfl
    rw [hcons, downsOf_append, downsOf_singleton hm, ih, count_cons]
    by_cases hu : t = u
    · subst hu
      simp [replicate_succ]
    · simp [hu, Ne.symm hu]

/-- The owner of a modified line is asked for it. -/
theorem LineStep.askOwner (h : DirView cfg listed d .trying a L) {r : LineReq N}
    (hq : L.queue = r :: qrest) (hm : L.dstate = .modified) {o : Fin N} (ho : L.owner = some o)
    (hp : downMsg a p = some r.ownerMsg) : LineStep cfg listed s .settled d [⟨o, p⟩] a L := by
  have hpend : L.pending = false := by simp [h.pending]
  refine ⟨_, ReflTransGen.single (.askOwner L o r qrest hq hpend hm ho), h.wait _, rfl,
    fun t ↦ (L.tile t).stage, fun t ↦ ?_, fun _ hs ↦ hs⟩
  rw [Line.send_tile, downsOf_singleton hp]
  simp

/-- The line after INV_REQs to a list of tiles. -/
def Line.sendInvReqs (L : Line N Block) (ts : List (Fin N)) : Line N Block :=
  { L with
    tile := fun t ↦ { L.tile t with
      down := (L.tile t).down ++ List.replicate (ts.count t) .invReq }
    pending := true }

/-- INV_REQs to a list of tiles, which has no duplicates if it is exact. -/
theorem Line.steps_sendInvReqs (ts : List (Fin N)) (L : Line N Block)
    (targets : Finset (Fin N) → Prop)
    (hstep : ∀ L' : Line N Block, L'.queue = L.queue → L'.dstate = L.dstate → L'.sharers = L.sharers →
      ∀ S, targets S → Line.Step listed L' { L'.send .invReq S with pending := true })
    (hlisted : listed → ts.Nodup ∧ targets ts.toFinset) (hother : ¬ listed → ∀ S, targets S) :
    ReflTransGen (Line.Step listed) L (L.sendInvReqs ts) := by
  by_cases hl : listed
  · obtain ⟨hnodup, htargets⟩ := hlisted hl
    have heq : L.sendInvReqs ts = { L.send .invReq ts.toFinset with pending := true } := by
      unfold Line.sendInvReqs
      congr 1
      funext t
      have htile := L.send_tile .invReq ts.toFinset t
      refine .trans ?_ htile.symm
      by_cases ht : t ∈ ts
      · simp [count_eq_one_of_mem hnodup ht, ht]
      · simp [count_eq_zero_of_not_mem ht, ht]
    rw [heq]
    exact .single (hstep L rfl rfl rfl _ htargets)
  · induction ts generalizing L with
    | nil =>
      have heq : L.sendInvReqs [] = { L.send .invReq ∅ with pending := true } := by
        simp [Line.sendInvReqs, Line.send]
      rw [heq]
      exact .single (hstep L rfl rfl rfl _ (hother hl _))
    | cons u ts ih =>
      have hfirst := hstep L rfl rfl rfl {u} (hother hl _)
      refine (ReflTransGen.single hfirst).trans ?_
      have hrest := ih { L.send .invReq {u} with pending := true } hstep fun h ↦ absurd h hl
      have heq : Line.sendInvReqs { L.send .invReq {u} with pending := true } ts
          = L.sendInvReqs (u :: ts) := by
        unfold Line.sendInvReqs
        congr 1
        funext t
        have htile := L.send_tile .invReq {u} t
        rw [htile]
        by_cases ht : t = u
        · subst ht
          simp [replicate_succ]
        · simp [ht, Ne.symm ht]
      rw [← heq]
      exact hrest

/-- INV_REQs for the front request of a shared line. -/
theorem LineStep.invReqs (h : DirView cfg listed d .trying a L) {ts : List (Fin N)}
    (hsteps : ReflTransGen (Line.Step listed) L (L.sendInvReqs ts))
    (hp : downMsg a p = some .invReq) :
    LineStep cfg listed s .settled d (ts.map fun t ↦ ⟨t, p⟩) a L := by
  refine ⟨_, hsteps, h.wait _, rfl, fun t ↦ (L.tile t).stage, fun t ↦ ?_, fun _ hs ↦ hs⟩
  rw [downsOf_map hp]
  rfl

theorem LineStep.congr {q : Phase} (h : LineStep cfg listed s q d sends a L)
    (hentry : d'.cache.entry cfg.directory a = d.cache.entry cfg.directory a)
    (hreplaced : a ∈ d'.cache.replaced.map Prod.fst ↔ a ∈ d.cache.replaced.map Prod.fst)
    (hqueue : d'.queue a = d.queue a) (hdram : d'.dram a = d.dram a) :
    LineStep cfg listed s q d' sends a L := by
  obtain ⟨L', hsteps, hdir, hrest⟩ := h
  exact ⟨L', hsteps, hdir.congr hentry hreplaced hqueue hdram, hrest⟩

/-! ### A request is tried -/

/-- The state after an attempt to serve the front request of line `a`: it is answered, or waits. -/
structure Tried (cfg : Config A N) (allowed : Fin N → A → L1Kind → Prop) (listed : Prop)
    (ph : A → Phase)
    (s : Sys A N) (g : Fin N) (mem : A → Block) (a : A) (d : Dir A N) (r : Dir A N × Bool) :
    Prop where
  good : Good cfg allowed listed (update ph a (if r.2 then .done else .settled))
    (s.commit g r.1) mem
  touches : Dir.Touches cfg (· = a) d r.1
  queue : r.1.queue a = d.queue a
  clock : d.clock ≤ r.1.clock

/-- Messages without data that ask tiles for the line of a request. -/
def Recalls (req : ShmemReq A N) (sends : List (Send A N)) : Prop :=
  ∀ y ∈ sends, ∃ type, (type = .invReq ∨ type = .flushReq ∨ type = .wbReq) ∧
    y.packet.msg = Dir.message type req none

omit [DecidableEq A] in
theorem Recalls.fromHome (h : Recalls req sends) (hg : cfg.home req.address = g) :
    FromHome cfg.home (· = req.address) g sends := by
  intro y hy
  obtain ⟨type, htype, hmsg⟩ := h y hy
  rw [hmsg]
  refine ⟨rfl, rfl, ?_, hg.symm, ?_⟩
  · rcases htype with rfl | rfl | rfl <;> rfl
  · rcases htype with rfl | rfl | rfl <;> simp [Dir.message]

/-- The front request waits for the tiles that have been asked for the line; `d'` is the directory
before the messages are sent. -/
theorem Good.wait (h : Good cfg allowed listed ph (s.commit g d) mem)
    (hg : cfg.home req.address = g)
    (hL : LineOf cfg listed (s.commit g d) mem (ph req.address) req.address L)
    (hd' : Dir.Touches cfg (· = req.address) d d') (hqueue : d'.queue = d.queue)
    (hclock : d'.clock = d.clock) (hout : d'.out = d.out) (hsends : Recalls req sends)
    (hline : LineStep cfg listed s .settled d' sends req.address L) :
    Tried cfg allowed listed ph s g mem req.address d
      ({ d' with out := d'.out ++ sends }, false) := by
  have htouch : Dir.Touches cfg (· = req.address) d { d' with out := d'.out ++ sends } :=
    ⟨hd'.wf, hd'.entry, hd'.replaced, hd'.queue, hd'.dram⟩
  refine ⟨h.midStep (T := (· = req.address)) ?_ ?_ htouch ?_ (hsends.fromHome hg) ?_ ?_ ?_,
    htouch, congrFun hqueue _, hclock.ge⟩
  · rintro b rfl
    exact hg
  · intro b hb
    rw [update_of_ne hb]
  · rw [← hout]
  · intro y hy hrep
    obtain ⟨type, htype, hmsg⟩ := hsends y hy
    rw [hmsg] at hrep
    rcases htype with rfl | rfl | rfl <;> simp [Dir.message, MsgType.isRep] at hrep
  · intro b _ r hr hreq
    have hr' : r ∈ d'.queue b := hr
    rw [hqueue] at hr'
    exact h.queue_timely hr' hreq
  · rintro b rfl
    rw [update_self]
    exact ⟨L, hL, hline.congr rfl Iff.rfl rfl rfl⟩

theorem toDState_injective : Function.Injective LineDState.toDState := by
  intro x y h
  cases x <;> cases y <;> simp_all [LineDState.toDState]

section Front

/-! The front request of line `req.address` is about to be tried. -/

variable (h : Good cfg allowed listed ph (s.commit g d) mem) (hg : cfg.home req.address = g)
  (htry : ph req.address = .trying) (hq : d.queue req.address = req :: rest)
  (he : d.cache.entry cfg.directory req.address = some e)

include h hg htry hq he

/-- The owner of a modified line is asked for it. -/
theorem Good.askOwner {type : MsgType} (htype : type = if req.toLine.isSh then .wbReq else .flushReq)
    (hm : e.dstate = .modified) :
    Outcome (d.sendMsg e.owner (Dir.message type req none))
      (fun d' ↦ Tried cfg allowed listed ph s g mem req.address d (d', false))
      fun _ ↦ False := by
  obtain ⟨L, hL⟩ := h.lineOf req.address
  have hdir := hL.dir hg
  rw [htry] at hdir
  have hev := hdir.entry e he
  have hmod : L.dstate = .modified := toDState_injective (hev.dstate.symm.trans hm)
  obtain ⟨o, ho, -⟩ := hL.inv.modified hmod
  have howner : e.owner = ((o : ℕ) : ℤ) := by
    rw [hev.owner, ho]
    rfl
  rw [howner, Dir.sendMsg_fin]
  have htype' : type = .invReq ∨ type = .flushReq ∨ type = .wbReq := by
    split_ifs at htype <;> simp [htype]
  refine h.wait hg hL (.refl h.cache_wf) rfl rfl rfl ?_
    (.askOwner hdir (by rw [hdir.queue, hq]; rfl) hmod ho ?_)
  · intro y hy
    rw [mem_singleton.mp hy]
    exact ⟨type, htype', rfl⟩
  · unfold downMsg LineReq.ownerMsg
    rw [if_pos ⟨rfl, rfl⟩]
    split_ifs at htype ⊢ <;> simp_all [Dir.message]

/-- The sharers of a line are invalidated. -/
theorem Good.invalidateSharers (hsh : req.toLine.isSh = false) (hm : e.dstate = .shared) :
    Outcome (d.sendInvReqs e req)
      (fun d' ↦ Tried cfg allowed listed ph s g mem req.address d (d', false))
      (Tolerated listed) := by
  obtain ⟨L, hL⟩ := h.lineOf req.address
  have hdir := hL.dir hg
  rw [htry] at hdir
  have hev := hdir.entry e he
  have hst : L.dstate = .shared := toDState_injective (hev.dstate.symm.trans hm)
  have hqL : L.queue = req.toLine :: rest.map ShmemReq.toLine := by
    rw [hdir.queue, hq]
    rfl
  refine (Dir.sendInvReqs_outcome hev.sharers).imp ?_
  rintro d' ⟨ts, hts, rfl⟩
  have hmsg : downMsg req.address (⟨Dir.message .invReq req none, d.clock⟩ : Packet A N)
      = some .invReq := by
    simp [downMsg, Dir.message]
  refine h.wait hg hL (.refl h.cache_wf) rfl rfl rfl ?_ (.invReqs hdir (Line.steps_sendInvReqs ts L
    (fun S ↦ listed → L.sharers ⊆ S) ?_ ?_ ?_) hmsg)
  · intro y hy
    obtain ⟨t, -, rfl⟩ := mem_map.mp hy
    exact ⟨.invReq, .inl rfl, rfl⟩
  · intro L₁ hq₁ hd₁ hs₁ S hS
    refine .invSharers L₁ S req.toLine _ (hq₁.trans hqL) hsh (hd₁.trans hst) fun hl ↦ ?_
    rw [hs₁]
    exact hS hl
  · refine fun hl ↦ ⟨(hts hl).1, fun _ t ht ↦ ?_⟩
    exact mem_toFinset.mpr ((hts hl).2 t ht)
  · exact fun hno _ hl ↦ absurd hl hno

end Front

/-! ### NULLIFY -/

theorem entry_isSome_of_replaced {c : DirectoryCache A} {k : Geometry A}
    (h : a ∈ c.replaced.map Prod.fst) : ∃ e, c.entry k a = some e := by
  refine Option.isSome_iff_exists.mp ?_
  rw [DirectoryCache.entry, Option.isSome_or, DirectoryCache.lookup_isSome_iff.mpr h, Bool.or_true]

theorem Tried.of_clock {r : Dir A N × Bool} {c : ℕ} (hc : d.clock ≤ c)
    (h : Tried cfg allowed listed ph s g mem a { d with clock := c } r) :
    Tried cfg allowed listed ph s g mem a d r :=
  ⟨h.good, ⟨h.touches.wf, h.touches.entry, h.touches.replaced, h.touches.queue, h.touches.dram⟩,
    h.queue, hc.trans h.clock⟩

/-- The NULLIFY of a line that no tile holds removes its entry. -/
theorem LineStep.nullifyDone (h : DirView cfg listed d .trying a L) (hL : L.Inv listed)
    (hqL : L.queue = .nullify :: qrest) (hd : L.dstate = .uncached)
    (hentry : d'.cache.entry cfg.directory a = none) (hkeys : a ∉ d'.cache.replaced.map Prod.fst)
    (hqueue : d'.queue a = d.queue a) (hdram : d'.dram a = d.dram a) :
    LineStep cfg listed s .done d' [] a L := by
  have hq : L.queue = (d.queue a).map ShmemReq.toLine := h.queue
  refine ⟨_, ReflTransGen.single (.nullifyDone L qrest hqL hd), ⟨?_, fun _ ↦ hd, ?_, ?_, ?_, ?_, ?_,
    ?_, ?_⟩, rfl, fun t ↦ (L.tile t).stage, fun t ↦ ?_, fun _ hs ↦ hs⟩
  · simp [hentry]
  · rw [if_pos rfl, hqueue, map_tail, ← hq, hqL]
    rfl
  · intro _
    rw [hqueue]
    exact h.busy (by simp)
  · simp
  · rw [hqueue]
    exact h.address
  · rw [hdram]
    exact h.dram
  · rw [hdram]
    exact h.asked
  · have hfirst := hL.nullifyFirst
    rw [hqL] at hfirst
    exact iff_of_false hkeys hfirst
  · simp [downsOf, Sys.packetsTo]

theorem Good.processNullifyReq (h : Good cfg allowed listed ph (s.commit g d) mem)
    (hg : cfg.home req.address = g) (htry : ph req.address = .trying)
    (hq : d.queue req.address = req :: rest) (hnull : req.toLine = .nullify) :
    Outcome (d.processNullifyReq cfg req) (Tried cfg allowed listed ph s g mem req.address d)
      (Tolerated listed) := by
  obtain ⟨L, hL⟩ := h.lineOf req.address
  have hdir := hL.dir hg
  rw [htry] at hdir
  have hqL : L.queue = .nullify :: rest.map ShmemReq.toLine := by
    rw [hdir.queue, hq, ← hnull]
    rfl
  have hmem : req.address ∈ d.cache.replaced.map Prod.fst := hdir.replaced.mpr (by simp [hqL])
  obtain ⟨e, he⟩ := entry_isSome_of_replaced (k := cfg.directory) hmem
  obtain ⟨c, hc, hget⟩ := Dir.getDirectoryEntry_of_some h.cache_wf he
  have hsh : req.toLine.isSh = false := by rw [hnull]; rfl
  have hev := hdir.entry e he
  unfold Dir.processNullifyReq
  rw [hget]
  dsimp only
  refine .mono ?_ (fun r hr ↦ .of_clock hc hr) fun _ hf ↦ hf
  refine .fetch_bind (fun e' he' ↦ ?_) fun hn ↦ absurd hn (by simp)
  obtain rfl := Option.some.inj he'
  cases hst : L.dstate with
  | modified =>
    have hm : e.dstate = .modified := by rw [hev.dstate, hst]; rfl
    rw [hm]
    refine .bind_mono ((h.clock c).askOwner hg htry hq he (by simp [hsh]) hm)
      (fun _ hf ↦ hf.elim) fun d' hd' ↦ hd'
  | shared =>
    have hm : e.dstate = .shared := by rw [hev.dstate, hst]; rfl
    rw [hm]
    exact .bind ((h.clock c).invalidateSharers hg htry hq he hsh hm) fun d' hd' ↦ hd'
  | uncached =>
    have hm : e.dstate = .uncached := by rw [hev.dstate, hst]; rfl
    obtain ⟨c', hinv, hupd, hkeys, -⟩ := h.cache_wf.invalidateDirectoryEntry hmem
    rw [hm]
    dsimp only
    rw [hinv]
    have hout : ({ d with cache := c', clock := c } : Dir A N).out = d.out ++ [] := by simp
    have htouch : Dir.Touches cfg (· = req.address) d { d with cache := c', clock := c } := by
      refine ⟨hupd.wf, fun b hb ↦ ?_, fun b hb ↦ ?_, fun _ _ ↦ rfl, fun _ _ ↦ rfl⟩
      · rw [hupd.entry, if_neg hb]
      · rw [hkeys]
        exact mem_erase_of_ne hb
    refine ⟨h.midStep (T := (· = req.address)) ?_ ?_ htouch hout (by simp [FromHome]) (by simp) ?_
      ?_, ⟨htouch.wf, htouch.entry, htouch.replaced, htouch.queue, htouch.dram⟩, rfl, le_refl _⟩
    · rintro b rfl
      exact hg
    · intro b hb
      rw [update_of_ne hb]
    · exact fun b _ r hr hreq ↦ h.queue_timely hr hreq
    · rintro b rfl
      rw [update_self]
      refine ⟨L, hL, .nullifyDone hdir hL.inv hqL hst ?_ ?_ rfl rfl⟩
      · rw [hupd.entry, if_pos rfl]
      · rw [hkeys]
        exact fun hm ↦ (List.Nodup.not_mem_erase h.cache_wf.nodup) hm

end CarbonSim.Msi
