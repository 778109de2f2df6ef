import CarbonSim.Msi.DirectoryRequests

/-!
# The directory answers a request

The EX_REQ or SH_REQ at the front of the queue of a line whose entry is known. `Good.serveExReq` and
`Good.serveShReq` cover the states of the entry: the request is answered with the data of DRAM, or it
waits for the tiles that hold the line.
-/

namespace CarbonSim.Msi

open Function Directory
open Relation (ReflTransGen)

variable {A : Type} [DecidableEq A] {N : ℕ} {cfg : Config A N} {allowed : Fin N → A → L1Kind → Prop}
  {listed : Prop} {ph : A → Phase} {s : Sys A N} {mem : A → Block} {g t : Fin N}
  {d d' : Dir A N} {sends : List (Send A N)} {a : A} {L L' : Line N Block}
  {req : ShmemReq A N} {rest : List (ShmemReq A N)} {e e' : Entry} {env : Env A}
  {cachedData : Option Block} {type : MsgType} {c : ℕ} {qrest : List (LineReq N)} {kind : ReqKind}
  {p : Packet A N} {q : Phase}

/-! ### The effect on the directory -/

/-- The directory after a request has been answered: the new entry, and the reply with the data of
an earlier reply or of DRAM. -/
def Dir.answer (cfg : Config A N) (d : Dir A N) (e : Entry) (type : MsgType) (req : ShmemReq A N)
    (c : ℕ) (cachedData : Option Block) : Dir A N :=
  { d.putEntry cfg req.address e with
    clock := c
    dram := if cachedData.isNone then
        update d.dram req.address (some ((d.dram req.address).getD .zero))
      else d.dram
    out := d.out ++ [⟨req.requester, ⟨Dir.message type req
      (some (cachedData.getD ((d.dram req.address).getD .zero))), c⟩⟩] }

namespace Dir

theorem retrieveData_putEntry (cfg : Config A N) (env : Env A) (d : Dir A N) (e : Entry)
    (type : MsgType) (req : ShmemReq A N) (cachedData : Option Block) :
    ∃ c, d.clock ≤ c ∧
      (d.putEntry cfg req.address e).retrieveDataAndSendToL2Cache env type req cachedData
        = .ok (d.answer cfg e type req c cachedData) :=
  retrieveDataAndSendToL2Cache_eq env (d.putEntry cfg req.address e) type req cachedData

theorem touches_answer (h : d.cache.WF cfg.directory)
    (he : d.cache.entry cfg.directory req.address = some e) :
    Dir.Touches cfg (· = req.address) d (d.answer cfg e' type req c cachedData) := by
  obtain ⟨hupd, hkeys, -⟩ := h.putEntry he e'
  refine ⟨hupd.wf, fun b hb ↦ ?_, fun b _ ↦ ?_, fun _ _ ↦ rfl, fun b hb ↦ ?_⟩
  · exact (hupd.entry b).trans (if_neg hb)
  · exact iff_of_eq (congrArg (b ∈ ·) hkeys)
  · change (if cachedData.isNone then update d.dram req.address _ else d.dram) b = d.dram b
    split_ifs
    · exact update_of_ne hb _ _
    · rfl

theorem entry_answer (h : d.cache.WF cfg.directory)
    (he : d.cache.entry cfg.directory req.address = some e) :
    (d.answer cfg e' type req c cachedData).cache.entry cfg.directory req.address = some e' :=
  ((h.putEntry he e').1.entry _).trans (if_pos rfl)

theorem replaced_answer (h : d.cache.WF cfg.directory)
    (he : d.cache.entry cfg.directory req.address = some e) (b : A) :
    b ∈ (d.answer cfg e' type req c cachedData).cache.replaced.map Prod.fst ↔
      b ∈ d.cache.replaced.map Prod.fst :=
  iff_of_eq (congrArg (b ∈ ·) (h.putEntry he e').2.1)

/-- The EX_REQ of an uncached line is answered. -/
theorem serveExReq_of_uncached (hd : e.dstate = .uncached)
    (h : Represents listed e.sharers (∅ : Finset (Fin N))) :
    Outcome (d.serveExReq cfg env e req cachedData)
      (fun r ↦ ∃ x c, d.clock ≤ c ∧ Represents listed x {req.requester} ∧
        Tracked listed x req.requester ∧
        r = (d.answer cfg ⟨x, ownerId (some req.requester), .modified, e.seed⟩ .exRep req c
          cachedData, true))
      (Tolerated listed) := by
  unfold Dir.serveExReq
  rw [hd]
  refine .bind (Entry.addSharer_outcome h (Finset.notMem_empty _)) ?_
  rintro ⟨added, e₁⟩ ⟨x, rfl, hadd, hno⟩
  dsimp only at hadd hno ⊢
  refine .require_bind (fun hadded ↦ ?_) fun hn ↦ ?_
  · obtain ⟨hrep, htracked⟩ := hadd hadded
    have htr := htracked rfl
    refine .bind (Entry.setOwner_outcome (e := { e with sharers := x }) htr) ?_
    rintro e₂ rfl
    obtain ⟨c, hc, heq⟩ := retrieveData_putEntry cfg env d
      ⟨x, ownerId (some req.requester), .modified, e.seed⟩ .exRep req cachedData
    rw [heq]
    exact ⟨x, c, hc, by simpa using hrep, htr, rfl⟩
  · refine ⟨fun hl ↦ ?_, by decide⟩
    obtain ⟨-, -, hne⟩ := hno (by simpa using hn)
    exact absurd (hne hl) (by simp)

end Dir

/-! ### The effect on the line -/

/-- The view of a line whose front request has been answered. -/
theorem DirView.answered (h : DirView cfg listed d q a L) (hphase : q ≠ .done)
    (hqL : L.queue = .miss kind t :: qrest) (hentry : d'.cache.entry cfg.directory a = some e)
    (hev : EntryView listed e L')
    (hreplaced : a ∈ d'.cache.replaced.map Prod.fst ↔ a ∈ d.cache.replaced.map Prod.fst)
    (hqueue : (d'.queue a).map ShmemReq.toLine = (d.queue a).map ShmemReq.toLine)
    (hadr : ∀ r ∈ d'.queue a, r.address = a) (hdram : d'.dram a = some L'.dram)
    (hqL' : L'.queue = qrest) (hpend : L'.pending = false) : DirView cfg listed d' .done a L' := by
  have hq : (d'.queue a).map ShmemReq.toLine = .miss kind t :: qrest := by
    rw [hqueue, ← hqL, h.queue, if_neg hphase]
  refine ⟨fun e₁ he₁ ↦ ?_, fun hn ↦ ?_, ?_, ?_, ?_, hadr, ?_, ?_, ?_⟩
  · obtain rfl : e = e₁ := Option.some.inj (hentry.symm.trans he₁)
    exact hev
  · exact absurd (hentry.symm.trans hn) (by simp)
  · rw [if_pos rfl, List.map_tail, hq, hqL']
    rfl
  · intro _ hnil
    simp [hnil] at hq
  · simp [hpend]
  · rw [hdram]
    rfl
  · simp [hdram]
  · rw [hreplaced, h.replaced, hqL, hqL']
    simp

/-- The tile whose request is answered gets the reply. -/
theorem StageView.update_granted (hL : L.Inv listed) (hmem : .miss kind t ∈ L.queue) (u : Fin N)
    (h : StageView (s.tile u) a (L.tile u).stage) :
    StageView (s.tile u) a (update (fun v ↦ (L.tile v).stage) t (.granted kind) u) := by
  by_cases hu : u = t
  · subst hu
    rw [update_self]
    rw [(hL.queued kind u).mp hmem] at h
    exact h.grant
  · rw [update_of_ne hu]
    exact h

theorem granted_tile {m : DownMsg Block} (hp : downMsg a p = some m) (u : Fin N) :
    update L.tile t { L.tile t with
        down := (L.tile t).down ++ [m], stage := .granted kind } u
      = { L.tile u with
          down := (L.tile u).down ++ downsOf a u [⟨t, p⟩]
          stage := update (fun v ↦ (L.tile v).stage) t (.granted kind) u } := by
  rw [downsOf_singleton hp]
  by_cases hu : u = t
  · subst hu
    simp
  · simp [hu]

/-- The EX_REQ of an uncached line is answered with the data of DRAM. -/
theorem LineStep.grantEx (h : DirView cfg listed d .trying a L) (hL : L.Inv listed)
    (hqL : L.queue = .miss .ex t :: qrest) (hd : L.dstate = .uncached)
    (hentry : d'.cache.entry cfg.directory a = some e) (hdstate : e.dstate = .modified)
    (howner : e.owner = ownerId (some t)) (hrep : Represents listed e.sharers {t})
    (htracked : Tracked listed e.sharers t)
    (hreplaced : a ∈ d'.cache.replaced.map Prod.fst ↔ a ∈ d.cache.replaced.map Prod.fst)
    (hqueue : d'.queue a = d.queue a) (hdram : d'.dram a = some L.dram)
    (hp : downMsg a p = some (.exRep L.dram)) : LineStep cfg listed s .done d' [⟨t, p⟩] a L := by
  refine ⟨_, ReflTransGen.single (.grantEx L t qrest hqL hd),
    h.answered (by simp) hqL hentry ⟨hdstate, howner, hrep, ?_⟩ hreplaced (by rw [hqueue])
      (by rw [hqueue]; exact h.address) hdram rfl rfl, rfl,
    update (fun u ↦ (L.tile u).stage) t (.granted .ex), granted_tile hp,
    StageView.update_granted hL (by simp [hqL])⟩
  intro o ho
  obtain rfl : t = o := Option.some.inj ho
  exact htracked

/-- The SH_REQ of a line that is not modified is answered with the data of DRAM. -/
theorem LineStep.grantSh (h : DirView cfg listed d .trying a L) (hL : L.Inv listed)
    (hqL : L.queue = .miss .sh t :: qrest) (hd : L.dstate ≠ .modified)
    (hentry : d'.cache.entry cfg.directory a = some e) (hdstate : e.dstate = .shared)
    (howner : e.owner = invalidTileId) (hrep : Represents listed e.sharers (insert t L.sharers))
    (hreplaced : a ∈ d'.cache.replaced.map Prod.fst ↔ a ∈ d.cache.replaced.map Prod.fst)
    (hqueue : d'.queue a = d.queue a) (hdram : d'.dram a = some L.dram)
    (hp : downMsg a p = some (.shRep L.dram)) : LineStep cfg listed s .done d' [⟨t, p⟩] a L := by
  have hnone := hL.noOwner hd
  refine ⟨_, ReflTransGen.single (.grantSh L t qrest hqL hd),
    h.answered (by simp) hqL hentry ⟨hdstate, ?_, hrep, ?_⟩ hreplaced (by rw [hqueue])
      (by rw [hqueue]; exact h.address) hdram rfl rfl, rfl,
    update (fun u ↦ (L.tile u).stage) t (.granted .sh), granted_tile hp,
    StageView.update_granted hL (by simp [hqL])⟩
  · change e.owner = ownerId L.owner
    rw [howner, hnone]
    rfl
  · intro o ho
    exact absurd (hnone.symm.trans ho) (by simp)

/-! ### The effect on the memory system -/

/-- The data of an earlier reply is that of DRAM. -/
theorem DirView.answer_data (h : DirView cfg listed d q req.address L)
    (hdata : ∀ x, cachedData = some x → d.dram req.address = some x) :
    cachedData.getD ((d.dram req.address).getD .zero) = L.dram := by
  rw [← h.dram]
  cases cachedData with
  | none => rfl
  | some x => simp [h.dram, hdata x rfl]

theorem DirView.dram_answer (h : DirView cfg listed d q req.address L)
    (hdata : ∀ x, cachedData = some x → d.dram req.address = some x) :
    (d.answer cfg e type req c cachedData).dram req.address = some L.dram := by
  unfold Dir.answer
  cases cachedData with
  | none => simp [h.dram]
  | some x => simp [h.dram, hdata x rfl]

theorem downMsg_invReq (req : ShmemReq A N) (c : ℕ) :
    downMsg req.address (⟨Dir.message .invReq req none, c⟩ : Packet A N) = some .invReq := by
  simp [downMsg, Dir.message]

theorem downMsg_exRep (req : ShmemReq A N) (x : Block) (c : ℕ) :
    downMsg req.address (⟨Dir.message .exRep req (some x), c⟩ : Packet A N) = some (.exRep x) := by
  simp [downMsg, Dir.message]

theorem downMsg_shRep (req : ShmemReq A N) (x : Block) (c : ℕ) :
    downMsg req.address (⟨Dir.message .shRep req (some x), c⟩ : Packet A N) = some (.shRep x) := by
  simp [downMsg, Dir.message]

omit [DecidableEq A] in
theorem toLine_eq_miss (h : req.toLine = .miss kind t) :
    req.type.isReq = true ∧ t = req.requester := by
  unfold ShmemReq.toLine at h
  split at h <;> simp_all [MsgType.isReq]

section Front

variable (h : Good cfg allowed listed ph (s.commit g d) mem) (hg : cfg.home req.address = g)
  (htry : ph req.address = .trying) (hq : d.queue req.address = req :: rest)
  (he : d.cache.entry cfg.directory req.address = some e) (htime : req.time ≤ d.clock)

include h hg hq he htime

/-- The front request is answered. -/
theorem Good.answer (hreq : req.type.isReq = true) (htype : type = .exRep ∨ type = .shRep)
    (hc : d.clock ≤ c) (hL : LineOf cfg listed (s.commit g d) mem (ph req.address) req.address L)
    (hline : LineStep cfg listed s .done (d.answer cfg e' type req c cachedData)
      [⟨req.requester, ⟨Dir.message type req
        (some (cachedData.getD ((d.dram req.address).getD .zero))), c⟩⟩] req.address L) :
    Tried cfg allowed listed ph s g mem req.address d
      (d.answer cfg e' type req c cachedData, true) := by
  have htouch : Dir.Touches cfg (· = req.address) d (d.answer cfg e' type req c cachedData) :=
    Dir.touches_answer h.cache_wf he
  refine ⟨h.midStep (T := (· = req.address)) ?_ ?_ htouch rfl ?_ ?_ ?_ ?_, htouch, rfl, hc⟩
  · rintro b rfl
    exact hg
  · intro b hb
    rw [update_of_ne hb]
  · intro y hy
    rw [List.mem_singleton.mp hy]
    refine ⟨rfl, rfl, ?_, hg.symm, ?_⟩
    all_goals rcases htype with rfl | rfl <;> simp [Dir.message]
  · intro y hy _
    rw [List.mem_singleton.mp hy]
    have hold := h.queue_timely (b := req.address) (r := req) (by simp [hq]) hreq
    exact hold.trans (htime.trans hc)
  · intro b _ r hr hreq'
    exact h.queue_timely hr hreq'
  · rintro b rfl
    rw [update_self]
    exact ⟨L, hL, hline⟩

include htry

/-- The EX_REQ at the front of the queue. -/
theorem Good.serveExReq (hex : req.type = .exReq) :
    Outcome (d.serveExReq cfg env e req none)
      (Tried cfg allowed listed ph s g mem req.address d) (Tolerated listed) := by
  obtain ⟨L, hL⟩ := h.lineOf req.address
  have hdir := hL.dir hg
  rw [htry] at hdir
  have hev := hdir.entry e he
  have hline : req.toLine = .miss .ex req.requester := by simp [ShmemReq.toLine, hex]
  have hsh : req.toLine.isSh = false := by rw [hline]; rfl
  have hqL : L.queue = .miss .ex req.requester :: rest.map ShmemReq.toLine := by
    rw [hdir.queue, hq, ← hline]
    rfl
  cases hst : L.dstate with
  | modified =>
    have hm : e.dstate = .modified := by rw [hev.dstate, hst]; rfl
    unfold Dir.serveExReq
    rw [hm]
    refine .require_pos rfl ?_
    exact .bind_mono (h.askOwner hg htry hq he (by simp [hsh]) hm)
      (fun _ hf ↦ hf.elim) fun d' hd' ↦ hd'
  | shared =>
    have hm : e.dstate = .shared := by rw [hev.dstate, hst]; rfl
    unfold Dir.serveExReq
    rw [hm]
    refine .require_pos rfl ?_
    exact .bind (h.invalidateSharers hg htry hq he hsh hm) fun d' hd' ↦ hd'
  | uncached =>
    have hm : e.dstate = .uncached := by rw [hev.dstate, hst]; rfl
    have hrep := hev.sharers
    rw [hL.inv.uncached hst] at hrep
    refine (Dir.serveExReq_of_uncached hm hrep).imp ?_
    rintro r ⟨x, c, hc, hx, htr, rfl⟩
    refine h.answer hg hq he htime (toLine_eq_miss hline).1 (.inl rfl) hc hL ?_
    rw [hdir.answer_data (by simp)]
    exact .grantEx hdir hL.inv hqL hst (Dir.entry_answer h.cache_wf he) rfl rfl hx htr
      (Dir.replaced_answer h.cache_wf he _) rfl (hdir.dram_answer (by simp))
      (downMsg_exRep req L.dram c)

/-- A copy is added for the SH_REQ at the front of the queue. -/
theorem Good.shareLine (hline : req.toLine = .miss .sh req.requester)
    (hdata : ∀ x, cachedData = some x → d.dram req.address = some x)
    (hL : LineOf cfg listed (s.commit g d) mem (ph req.address) req.address L)
    (hmod : L.dstate ≠ .modified) {x : Sharers}
    (hx : Represents listed x (insert req.requester L.sharers)) :
    Outcome ((d.putEntry cfg req.address ⟨x, e.owner, .shared, e.seed⟩).retrieveDataAndSendToL2Cache
        env .shRep req cachedData)
      (fun d' ↦ Tried cfg allowed listed ph s g mem req.address d (d', true))
      (Tolerated listed) := by
  have hdir := hL.dir hg
  rw [htry] at hdir
  have howner : e.owner = invalidTileId := by
    rw [(hdir.entry e he).owner, hL.inv.noOwner hmod]
    rfl
  have hqL : L.queue = .miss .sh req.requester :: rest.map ShmemReq.toLine := by
    rw [hdir.queue, hq, ← hline]
    rfl
  obtain ⟨c, hc, heq⟩ := Dir.retrieveData_putEntry cfg env d ⟨x, e.owner, .shared, e.seed⟩ .shRep
    req cachedData
  rw [heq]
  refine h.answer hg hq he htime (toLine_eq_miss hline).1 (.inr rfl) hc hL ?_
  rw [hdir.answer_data hdata]
  exact .grantSh (e := ⟨x, e.owner, .shared, e.seed⟩) hdir hL.inv hqL hmod
    (Dir.entry_answer h.cache_wf he) rfl howner hx
    (Dir.replaced_answer h.cache_wf he _) rfl (hdir.dram_answer hdata) (downMsg_shRep req L.dram c)

omit htime in
/-- One sharer is asked to give up the line for the SH_REQ at the front of the queue. -/
theorem Good.invalidateOne (hline : req.toLine = .miss .sh req.requester)
    (hm : e.dstate = .shared) (hmode : e.sharers.inBroadcastMode = false) :
    Outcome (do
        let (sharerId, e) ← e.getOneSharer
        let d := d.putEntry cfg req.address e
        let d ← d.sendMsg sharerId (Dir.message .invReq req none)
        return (d, false))
      (Tried cfg allowed listed ph s g mem req.address d) (Tolerated listed) := by
  obtain ⟨L, hL⟩ := h.lineOf req.address
  have hdir := hL.dir hg
  rw [htry] at hdir
  have hev := hdir.entry e he
  have hst : L.dstate = .shared := toDState_injective (hev.dstate.symm.trans hm)
  have hqL : L.queue = .miss .sh req.requester :: rest.map ShmemReq.toLine := by
    rw [hdir.queue, hq, ← hline]
    rfl
  refine .bind (Entry.getOneSharer_outcome hev.sharers hmode fun _ ↦ hL.inv.shared hst) ?_
  rintro ⟨z, e₁⟩ ⟨⟨k, rfl⟩, hz⟩
  dsimp only at hz ⊢
  obtain ⟨hupd, hkeys, -⟩ := h.cache_wf.putEntry he { e with seed := k }
  refine .bind_mono (Dir.sendMsg_outcome _ z _) ?_ ?_
  · rintro f ⟨rfl, hno⟩
    refine ⟨fun hl ↦ ?_, by decide⟩
    obtain ⟨t, -, ht⟩ := hz hl
    exact hno t ht
  · rintro d' ⟨t, rfl, rfl⟩
    have hdir' : DirView cfg listed (d.putEntry cfg req.address { e with seed := k }) .trying
        req.address L := by
      refine hdir.setEntry (e := { e with seed := k }) ?_
        ⟨hev.dstate, hev.owner, hev.sharers, hev.tracked⟩ ?_ rfl rfl
      · exact (hupd.entry _).trans (if_pos rfl)
      · exact iff_of_eq (congrArg (req.address ∈ ·) hkeys)
    refine h.wait hg hL ⟨hupd.wf, ?_, ?_, fun _ _ ↦ rfl, fun _ _ ↦ rfl⟩ rfl rfl rfl ?_
      (.invReqs hdir' (Line.steps_sendInvReqs [t] L
        (fun S ↦ listed → (L.sharers ∩ S).Nonempty) ?_ ?_ ?_) (downMsg_invReq req _))
    · exact fun b hb ↦ (hupd.entry b).trans (if_neg hb)
    · exact fun b _ ↦ iff_of_eq (congrArg (b ∈ ·) hkeys)
    · intro y hy
      rw [List.mem_singleton.mp hy]
      exact ⟨.invReq, .inl rfl, rfl⟩
    · intro L₁ hq₁ hd₁ hs₁ S hS
      refine .invOne L₁ S req.requester _ (hq₁.trans hqL) (hd₁.trans hst) fun hl ↦ ?_
      rw [hs₁]
      exact hS hl
    · intro hl
      refine ⟨List.nodup_singleton t, fun _ ↦ ⟨t, ?_⟩⟩
      obtain ⟨u, hu, heq⟩ := hz hl
      obtain rfl : t = u := Fin.ext (by exact_mod_cast heq)
      simp [hu]
    · exact fun hno _ hl ↦ absurd hl hno

/-- The SH_REQ at the front of the queue. -/
theorem Good.serveShReq (hsh : req.type = .shReq)
    (hdata : ∀ x, cachedData = some x → d.dram req.address = some x)
    (hmod : cachedData.isSome → e.dstate ≠ .modified) :
    Outcome (d.serveShReq cfg env e req cachedData)
      (Tried cfg allowed listed ph s g mem req.address d) (Tolerated listed) := by
  obtain ⟨L, hL⟩ := h.lineOf req.address
  have hdir := hL.dir hg
  rw [htry] at hdir
  have hev := hdir.entry e he
  have hline : req.toLine = .miss .sh req.requester := by simp [ShmemReq.toLine, hsh]
  have hnew : req.requester ∉ L.sharers := hL.inv.not_mem_of_queued (by
    rw [hdir.queue, hq, if_neg (by simp), List.map_cons, hline]
    exact List.mem_cons_self)
  unfold Dir.serveShReq
  cases hst : L.dstate with
  | modified =>
    have hm : e.dstate = .modified := by rw [hev.dstate, hst]; rfl
    rw [hm]
    refine .require_bind (fun _ ↦ ?_) fun hn ↦ ?_
    swap
    · exact absurd hm (hmod (by simpa [Option.isSome_iff_ne_none] using hn))
    exact .bind_mono (h.askOwner hg htry hq he (by simp [hline, LineReq.isSh]) hm)
      (fun _ hf ↦ hf.elim) fun d' hd' ↦ hd'
  | shared =>
    have hm : e.dstate = .shared := by rw [hev.dstate, hst]; rfl
    have hmod' : L.dstate ≠ .modified := by simp [hst]
    rw [hm]
    refine .bind (Entry.addSharer_outcome hev.sharers hnew) ?_
    rintro ⟨added, e₁⟩ ⟨x, rfl, hadd, hno⟩
    dsimp only at hadd hno ⊢
    split_ifs with hadded
    · rw [hm]
      exact .bind (h.shareLine hg htry hq he htime hline hdata hL hmod' (hadd hadded).1)
        fun d' hd' ↦ hd'
    · obtain ⟨rfl, hmode, -⟩ := hno (by simpa using hadded)
      exact h.invalidateOne hg htry hq he hline hm hmode
  | uncached =>
    have hm : e.dstate = .uncached := by rw [hev.dstate, hst]; rfl
    have hmod' : L.dstate ≠ .modified := by simp [hst]
    rw [hm]
    refine .bind (Entry.addSharer_outcome hev.sharers hnew) ?_
    rintro ⟨added, e₁⟩ ⟨x, rfl, hadd, hno⟩
    refine .require_bind (fun hadded ↦ ?_) fun hn ↦ ?_
    · exact .bind (h.shareLine hg htry hq he htime hline hdata hL hmod' (hadd hadded).1)
        fun d' hd' ↦ hd'
    · refine ⟨fun hl ↦ ?_, by decide⟩
      have hne := (hno (by simpa using hn)).2.2 hl
      rw [hL.inv.uncached hst] at hne
      exact absurd hne (by simp)

end Front

end CarbonSim.Msi
