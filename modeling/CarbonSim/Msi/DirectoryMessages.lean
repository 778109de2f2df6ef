import CarbonSim.Msi.DirectoryQueue

/-!
# The directory handles a message

A request joins the queue of its line, a reply changes the entry and lets the front request be tried
again. `Good.handleMsgFromL2Cache` is the specification of the directory: every message that can
reach it leaves the invariant intact, and with exact sharer lists no check of a handler can fail.
-/

namespace CarbonSim.Msi

open Function List Directory Option
open Relation (ReflTransGen)

variable {A : Type} [DecidableEq A] {N : ℕ} {cfg : Config A N} {allowed : Fin N → A → L1Kind → Prop}
  {listed : Prop} {s : Sys A N} {mem : A → Block} {g src : Fin N} {d' : Dir A N} {a : A}
  {L L' : Line N Block} {p : Packet A N} {rest : List (Packet A N)} {e : Entry} {env : Env A}
  {q : Phase} {now : ℕ} {queue : List (ShmemReq A N)} {data : Block} {kind : ReqKind}
  {req : ShmemReq A N} {x : List (ShmemReq A N)}

/-! ### A message is taken from its channel -/

theorem LineOf.up (hL : LineOf cfg listed s mem q a L) (hc : s.chan src g = p :: rest)
    (hg : cfg.home a = g) {m : UpMsg Block} (hm : upMsg a p = some m) :
    (L.tile src).up = m :: ups cfg (s.setChan src g rest) a src := by
  rw [(hL.view.tile src).up, ups_pop hc, if_pos ⟨rfl, hg⟩, hm]
  rfl

theorem LineOf.up_of_ne (hL : LineOf cfg listed s mem q a L) (hc : s.chan src g = p :: rest)
    {t : Fin N} (ht : t ≠ src) : (L.tile t).up = ups cfg (s.setChan src g rest) a t := by
  rw [(hL.view.tile t).up, ups_pop hc, if_neg fun h ↦ ht h.1]
  rfl

section Receive

variable (h : Coherent cfg allowed listed s mem) (hc : s.chan src g = p :: rest)
  (hroute : p.msg.route = .toDirectory) (hg : cfg.home p.msg.address = g)
  (hL : LineOf cfg listed s mem .settled p.msg.address L)
  (htouch : Dir.Touches cfg (· = p.msg.address) (s.dir g) d')
  (hqueue : ∀ r ∈ d'.queue p.msg.address, r.type.isReq = true →
    (s.tile r.requester).outstandingTime ≤ r.time)
  (hdir : DirView cfg listed d' q p.msg.address L') (hlatest : L'.latest = L.latest)
  (hstep : Line.Step listed L L')

include h hc hroute hg hL htouch hqueue hdir hlatest hstep

/-- The first action of a handler, which may already send messages. -/
theorem Good.receive (hsends : FromHome cfg.home (· = p.msg.address) g d'.out)
    (hrep : ∀ y ∈ d'.out, y.packet.msg.type.isRep = true →
      (s.tile y.receiver).outstandingTime ≤ y.packet.time)
    (stage : Fin N → Stage)
    (htile : ∀ t, L'.tile t = { L.tile t with
      down := (L.tile t).down ++ downsOf p.msg.address t d'.out
      up := ups cfg (s.setChan src g rest) p.msg.address t
      stage := stage t })
    (hstage : ∀ t, StageView (s.tile t) p.msg.address (L.tile t).stage →
      StageView (s.tile t) p.msg.address (stage t)) :
    Good cfg allowed listed (Phase.only p.msg.address q) ((s.setChan src g rest).commit g d') mem := by
  refine h.dirStep (T := (· = p.msg.address)) ?_ (.setChan hc hroute)
    (fun b hb ↦ Phase.only_of_ne _ hb) htouch hsends hrep ?_ ?_
  · rintro b rfl
    exact hg
  · rintro b rfl
    exact hqueue
  · rintro b rfl
    rw [Phase.only_self]
    refine ⟨L, hL, L', ReflTransGen.single hstep, hdir, hlatest, fun t ↦ ⟨?_, ?_, ?_, ?_⟩⟩
    · rw [htile t]
      rfl
    · rw [htile t]
    · rw [htile t]
    · rw [htile t]
      exact hstage t

/-- The first action of a handler that has sent nothing yet; `v` is the sender after it. -/
theorem Good.receiveSilent (hout : d'.out = []) (stage : Stage)
    (htile : L'.tile = update L.tile src { L.tile src with
      up := ups cfg (s.setChan src g rest) p.msg.address src, stage })
    (hstage : StageView (s.tile src) p.msg.address (L.tile src).stage →
      StageView (s.tile src) p.msg.address stage) :
    Good cfg allowed listed (Phase.only p.msg.address q) ((s.setChan src g rest).commit g d') mem := by
  refine h.receive hc hroute hg hL htouch hqueue hdir hlatest hstep (by simp [FromHome, hout])
    (by simp [hout]) (update (fun t ↦ (L.tile t).stage) src stage) (fun t ↦ ?_) fun t ht ↦ ?_
  · rw [htile, hout]
    by_cases hts : t = src
    · subst hts
      simp [downsOf, Sys.packetsTo]
    · simp [downsOf, Sys.packetsTo, hts, ← hL.up_of_ne hc hts]
  · by_cases hts : t = src
    · subst hts
      rw [update_self]
      exact hstage ht
    · rw [update_of_ne hts]
      exact ht

end Receive

/-! ### Requests -/

theorem StageView.enqueue {x : Tile A} (h : StageView x a (.requested kind)) :
    StageView x a (.queued kind) := by
  unfold StageView at h ⊢
  split at h
  · split_ifs at h ⊢
    obtain ⟨rfl⟩ : kind = kindOf _ := by simpa using h
    exact .inr (.inl rfl)
  · simp at h

theorem DirView.enqueue {d : Dir A N} {tile : Fin N → TileView Block}
    (h : DirView cfg listed d .settled a L) (hline : req.toLine = .miss kind src)
    (hadr : req.address = a) :
    DirView cfg listed (d.enqueue a req) (if d.queue a = [] then .trying else .settled) a
      { L with tile, queue := L.queue ++ [.miss kind src] } := by
  have hself : (d.enqueue a req).queue a = d.queue a ++ [req] := update_self ..
  have hq : L.queue = (d.queue a).map ShmemReq.toLine := h.queue
  refine ⟨fun e he ↦ ?_, h.noEntry, ?_, ?_, ?_, ?_, h.dram, h.asked, ?_⟩
  · have hev := h.entry e he
    exact ⟨hev.dstate, hev.owner, hev.sharers, hev.tracked⟩
  · rw [hself, if_neg (by split_ifs <;> simp), map_append, map_singleton, hline, ← hq]
  · simp [hself]
  · rw [hself]
    have hpend := h.pending
    split_ifs with hnil
    all_goals simpa [hnil] using hpend
  · rw [hself]
    intro r hr
    rcases mem_append.mp hr with hr | hr
    · exact h.address r hr
    · rw [mem_singleton.mp hr]
      exact hadr
  · change a ∈ d.cache.replaced.map Prod.fst ↔ _
    simp [h.replaced]

omit [DecidableEq A] in
@[simp] theorem Sys.enter_queue (s : Sys A N) (g : Fin N) (now : ℕ) :
    (s.enter g now).queue = (s.dir g).queue := rfl

/-- The home of the line when its handler starts. -/
theorem LineOf.enter (hL : LineOf cfg listed s mem q a L) (hg : cfg.home a = g) (now : ℕ) :
    DirView cfg listed (s.enter g now) q a L := by
  have hdir := hL.view.dir
  rw [hg] at hdir
  exact hdir.congr rfl Iff.rfl rfl rfl

/-- A request as the line sees it. -/
theorem reqKind_of_type {m : ShmemMsg A N} (h : m.type = .exReq ∨ m.type = .shReq) (c : ℕ) :
    ∃ kind, (⟨m.type, m.requester, m.address, m.modeled, c⟩ : ShmemReq A N).toLine
        = .miss kind m.requester ∧
      ∀ time, m.route = .toDirectory → upMsg m.address ⟨m, time⟩ = some (.req kind) := by
  rcases h with h | h
  · exact ⟨.ex, by simp [ShmemReq.toLine, h], fun time hr ↦ by simp [upMsg, h, hr]⟩
  · exact ⟨.sh, by simp [ShmemReq.toLine, h], fun time hr ↦ by simp [upMsg, h, hr]⟩

/-- The front request is tried, and the queue is served if it is answered. -/
theorem Good.retry {d : Dir A N} (hcfg : cfg.Supported listed) (hg : cfg.home a = g)
    {r : Except Fault (Dir A N × Bool)}
    (h : Good cfg allowed listed (Phase.only a .trying) (s.commit g d) mem)
    (hr : Outcome r (Attempted cfg allowed listed s g mem a d) (Tolerated listed)) :
    Settles cfg allowed listed s g mem (r >>= Dir.afterReq cfg env a) := by
  obtain ⟨L, hL⟩ := h.lineOf a
  have hmiss := (hL.dir hg).miss_of_tail hL.inv (by simp [Phase.only_self])
  exact .bind hr fun r hr ↦ Good.afterReq hcfg hg hmiss r hr

section Handler

variable (hcfg : cfg.Supported listed) (h : Coherent cfg allowed listed s mem)
  (hc : s.chan src g = p :: rest) (hroute : p.msg.route = .toDirectory)
  (hg : cfg.home p.msg.address = g) (hnow : p.time ≤ now)

include hcfg h hc hroute hg hnow

theorem Good.handleReqFromL2Cache (htype : p.msg.type = .exReq ∨ p.msg.type = .shReq)
    (hdata : p.msg.data = none) (hsrc : p.msg.requester = src) :
    Settles cfg allowed listed (s.setChan src g rest) g mem
      (Dir.handleReqFromL2Cache cfg env (s.enter g now) p.msg) := by
  obtain ⟨kind, hline, hup⟩ := reqKind_of_type htype now
  obtain ⟨L, hL⟩ := h.lineOf p.msg.address
  have hdir := hL.enter hg now
  have hu := hL.up hc hg (hup p.time hroute)
  have hstage := hL.inv.stage_of_req (hu ▸ mem_cons_self)
  let req : ShmemReq A N := ⟨p.msg.type, p.msg.requester, p.msg.address, p.msg.modeled, now⟩
  have hself : ((s.enter g now).enqueue p.msg.address req).queue p.msg.address
      = (s.dir g).queue p.msg.address ++ [req] := update_self ..
  have hmiss : req.toLine ≠ .nullify := fun hn ↦ absurd (hline.symm.trans hn) (by simp)
  have hgood : Good cfg allowed listed
      (Phase.only p.msg.address (if (s.dir g).queue p.msg.address = [] then .trying else .settled))
      ((s.setChan src g rest).commit g ((s.enter g now).enqueue p.msg.address req)) mem := by
    refine h.receiveSilent hc hroute hg hL ?_ ?_ (hdir.enqueue (hsrc ▸ hline) rfl) rfl
      (.enqueue L src kind _ hu) rfl (.queued kind) rfl fun hs ↦ ?_
    · refine ⟨h.cache g, fun _ _ ↦ rfl, fun _ _ ↦ .rfl, fun b hb ↦ ?_, fun _ _ ↦ rfl⟩
      exact update_of_ne hb _ _
    · intro r hr hreq
      rw [hself] at hr
      rcases mem_append.mp hr with hr | hr
      · exact (h.timely r.requester).queue g _ r hr hreq rfl
      · rw [mem_singleton.mp hr] at hreq ⊢
        have hold := (h.timely src).request g p (by simp [hc]) hroute hreq
        change (s.tile p.msg.requester).outstandingTime ≤ now
        rw [hsrc]
        exact hold.trans hnow
    · rw [hstage] at hs
      exact hs.enqueue
  unfold Dir.handleReqFromL2Cache
  refine .require_pos hdata ?_
  change Outcome (if (((s.enter g now).enqueue p.msg.address req).queue p.msg.address).length = 1 then _
    else _) _ _
  rw [hself]
  by_cases hnil : (s.dir g).queue p.msg.address = []
  · rw [hnil, if_pos rfl] at hgood
    rw [hnil] at hself
    rw [hnil, if_pos (by simp)]
    exact hgood.retry hcfg hg (hgood.processReq hcfg hg hself le_rfl hmiss)
  · rw [if_neg hnil, Phase.only_settled] at hgood
    rw [if_neg (by simpa using hnil)]
    exact hgood

end Handler

/-! ### Replies -/

/-- A reply changes the entry of its line, and may change the times of its requests and DRAM. -/
structure Dir.Replied (cfg : Config A N) (d : Dir A N) (a : A) (e : Entry) (d' : Dir A N) :
    Prop where
  cache : d'.cache = d.cache.putEntry cfg.directory a e
  queue : ∀ b, b ≠ a → d'.queue b = d.queue b
  dram : ∀ b, b ≠ a → d'.dram b = d.dram b
  out : d'.out = d.out

theorem Dir.Replied.putEntry (d : Dir A N) (a : A) (e : Entry) (c : ℕ) :
    Dir.Replied cfg d a e (Dir.putEntry cfg { d with clock := c } a e) :=
  ⟨rfl, fun _ _ ↦ rfl, fun _ _ ↦ rfl, rfl⟩

theorem Dir.Replied.touchFront {d : Dir A N} (h : Dir.Replied cfg d a e d') (req : ShmemReq A N)
    (queue : List (ShmemReq A N)) : Dir.Replied cfg d a e (d'.touchFront a req queue).2 :=
  ⟨h.cache, fun b hb ↦ (update_of_ne hb _ _).trans (h.queue b hb), h.dram, h.out⟩

theorem Dir.putDataToDram_eq {d : Dir A N} (h : (d.dram a).isSome) :
    d.putDataToDram a data = .ok (d.setDram a data) := by
  simp only [Dir.putDataToDram, require, h, if_true]
  rfl

theorem Dir.touchFront_queue (d : Dir A N) (a : A) (req : ShmemReq A N)
    (queue : List (ShmemReq A N)) :
    (d.touchFront a req queue).2.queue a = (d.touchFront a req queue).1 :: queue :=
  update_self ..

theorem Dir.Replied.setDram {d : Dir A N} (h : Dir.Replied cfg d a e d') (data : Block) :
    Dir.Replied cfg d a e (d'.setDram a data) :=
  ⟨h.cache, h.queue, fun b hb ↦ (update_of_ne hb _ _).trans (h.dram b hb), h.out⟩

/-- The line has data in DRAM once it has been given to a tile. -/
theorem DirView.dram_eq {d : Dir A N} (h : DirView cfg listed d q a L) (hne : L.sharers.Nonempty) :
    d.dram a = some L.dram := by
  obtain ⟨x, hx⟩ := isSome_iff_exists.mp (h.asked hne)
  rw [h.dram, hx]
  rfl

/-- A line that is held has an entry. -/
theorem DirView.exists_entry {d : Dir A N} (h : DirView cfg listed d q a L)
    (hd : L.dstate ≠ .uncached) : ∃ e, d.cache.entry cfg.directory a = some e :=
  ne_none_iff_exists'.mp fun hn ↦ hd (h.noEntry hn)

omit [DecidableEq A] in
theorem Retimed.nil_iff {y : List (ShmemReq A N)} (h : Retimed s a x y) : y = [] ↔ x = [] := by
  rw [← map_eq_nil_iff (f := ShmemReq.toLine), h.lines, map_eq_nil_iff]

theorem Retimed.touchFront {d : Dir A N}
    (h : Retimed s a x x) (hx : x = req :: queue) :
    Retimed s a x ((d.touchFront a req queue).2.queue a) := by
  rw [Dir.touchFront_queue]
  subst hx
  exact h.touch d.clock

/-- The first action of the handler of a reply. -/
theorem Good.reply (h : Coherent cfg allowed listed s mem)
    (hc : s.chan src g = p :: rest) (hroute : p.msg.route = .toDirectory)
    (hg : cfg.home p.msg.address = g) (hL : LineOf cfg listed s mem .settled p.msg.address L)
    (he : (s.enter g now).cache.entry cfg.directory p.msg.address = some e) {e' : Entry}
    (hd' : Dir.Replied cfg (s.enter g now) p.msg.address e' d')
    (hre : Retimed s p.msg.address ((s.dir g).queue p.msg.address) (d'.queue p.msg.address))
    (hstep : Line.Step listed L L') (hev : EntryView listed e' L') (hqL : L'.queue = L.queue)
    (hdram : d'.dram p.msg.address = some L'.dram) (hlatest : L'.latest = L.latest)
    (htile : L'.tile = update L.tile src { L.tile src with
      up := ups cfg (s.setChan src g rest) p.msg.address src })
    (hdone : q ≠ .done) (hbusy : q ≠ .settled → (s.dir g).queue p.msg.address ≠ [])
    (hpend : L'.pending = decide (q = .settled ∧ (s.dir g).queue p.msg.address ≠ [])) :
    Good cfg allowed listed (Phase.only p.msg.address q) ((s.setChan src g rest).commit g d') mem := by
  obtain ⟨hupd, hkeys, -⟩ := (h.cache g).putEntry he e'
  have hcache : d'.cache = (s.dir g).cache.putEntry cfg.directory p.msg.address e' := hd'.cache
  have hdir := hL.enter hg now
  have hkeys' (b : A) : b ∈ d'.cache.replaced.map Prod.fst ↔
      b ∈ (s.dir g).cache.replaced.map Prod.fst := by rw [hcache, hkeys]
  have hentry : d'.cache.entry cfg.directory p.msg.address = some e' := by
    rw [hcache, hupd.entry, if_pos rfl]
  refine h.receiveSilent hc hroute hg hL ⟨?_, fun b hb ↦ ?_, fun b _ ↦ hkeys' b, hd'.queue, hd'.dram⟩
    hre.timely ⟨fun e₁ he₁ ↦ ?_, fun hn ↦ ?_, ?_, fun hs ↦ ?_, ?_, hre.address, ?_, ?_, ?_⟩ hlatest
    hstep hd'.out (L.tile src).stage htile id
  · rw [hcache]
    exact hupd.wf
  · rw [hcache, hupd.entry, if_neg hb]
  · obtain rfl : e' = e₁ := some.inj (hentry.symm.trans he₁)
    exact hev
  · exact absurd (hentry.symm.trans hn) (by simp)
  · rw [if_neg hdone, hre.lines, hqL]
    exact hdir.queue
  · rw [Ne, hre.nil_iff]
    exact hbusy hs
  · simp only [Ne, hre.nil_iff]
    exact hpend
  · rw [hdram]
    rfl
  · simp [hdram]
  · rw [hkeys', hqL]
    exact hdir.replaced

theorem Good.retimed_self (h : Coherent cfg allowed listed s mem)
    (hg : cfg.home a = g) : Retimed s a ((s.dir g).queue a) ((s.dir g).queue a) := by
  obtain ⟨L, hL⟩ := h.lineOf a
  exact ⟨rfl, (hL.enter hg 0).address, fun r hr hreq ↦ (h.timely r.requester).queue g a r hr hreq rfl⟩

omit [DecidableEq A] in
theorem toLine_eq_nullify (hex : req.type ≠ .exReq) (hsh : req.type ≠ .shReq) :
    req.toLine = .nullify := by
  unfold ShmemReq.toLine
  split <;> simp_all

/-- The front of the queue is the front request of the line. -/
theorem DirView.front_of_queue {d : Dir A N} {r : LineReq N} {qrest : List (LineReq N)}
    (h : DirView cfg listed d .settled a L) (hq : L.queue = r :: qrest) :
    ∃ req queue, d.queue a = req :: queue ∧ req.toLine = r := by
  rw [h.queue, if_neg (by simp)] at hq
  obtain ⟨req, queue, heq, hr, -⟩ := map_eq_cons_iff.mp hq
  exact ⟨req, queue, heq, hr⟩

/-- The front request is an SH_REQ. -/
theorem DirView.frontSh {d : Dir A N} (h : DirView cfg listed d .settled a L)
    (hq : d.queue a = req :: queue) : L.frontSh = req.toLine.isSh := by
  have hqL : L.queue = req.toLine :: queue.map ShmemReq.toLine := by
    rw [h.queue, hq]
    rfl
  simp [Line.frontSh, hqL]

section Resume

variable {d : Dir A N} (hcfg : cfg.Supported listed) (hg : cfg.home a = g)

include hcfg hg

omit hcfg hg in
theorem Good.retryNullifyReq
    (h : Good cfg allowed listed (Phase.only req.address .trying) (s.commit g d) mem)
    (hg : cfg.home req.address = g) (hq : d.queue req.address = req :: queue)
    (hnull : req.toLine = .nullify) :
    Outcome (d.processNullifyReq cfg req) (Attempted cfg allowed listed s g mem req.address d)
      (Tolerated listed) :=
  (h.processNullifyReq hg (Phase.only_self ..) hq hnull).imp (fun _ hr ↦ hr.attempted rfl)

theorem Good.resumeAfterInvRep (hadr : ∀ r ∈ d.queue a, r.address = a) (hidle : d.queue a = [] →
      Good cfg allowed listed (Phase.only a .settled) (s.commit g d) mem)
    (hwait : ∀ req queue, d.queue a = req :: queue → req.toLine.isSh = false →
      e.dstate ≠ .uncached →
      Good cfg allowed listed (Phase.only a .settled) (s.commit g (d.touchFront a req queue).2) mem)
    (htry : ∀ req queue, d.queue a = req :: queue → req.toLine.isSh = true ∨ e.dstate = .uncached →
      Good cfg allowed listed (Phase.only a .trying) (s.commit g (d.touchFront a req queue).2) mem) :
    Settles cfg allowed listed s g mem (d.resumeAfterInvRep cfg env e a) := by
  rw [Phase.only_settled] at hidle
  simp only [Phase.only_settled] at hwait
  unfold Dir.resumeAfterInvRep
  cases hq : d.queue a with
  | nil => exact hidle hq
  | cons req queue =>
    have hadr' : (d.touchFront a req queue).1.address = a := hadr req (by simp [hq])
    have hfront := d.touchFront_queue a req queue
    have htime : (d.touchFront a req queue).1.time ≤ (d.touchFront a req queue).2.clock :=
      le_max_right _ _
    have hline : req.toLine = (d.touchFront a req queue).1.toLine := rfl
    have hwait' := hwait req queue hq
    have htry' := htry req queue hq
    rw [hline] at hwait' htry'
    dsimp only
    generalize d.touchFront a req queue = front at hadr' hfront htime hwait' htry' ⊢
    obtain ⟨req', d'⟩ := front
    subst hadr'
    dsimp only at hfront htime hwait' htry' ⊢
    split
    · next htype =>
      have hsh : req'.toLine.isSh = false := by simp [ShmemReq.toLine, htype, LineReq.isSh]
      split_ifs with hunc
      · have hgood := htry' (.inr hunc)
        exact hgood.retry hcfg hg (hgood.processExReqFromL2Cache hcfg hg hfront htime htype)
      · exact hwait' hsh hunc
    · next htype =>
      have hgood := htry' (.inl (by simp [ShmemReq.toLine, htype, LineReq.isSh]))
      exact hgood.retry hcfg hg
        (hgood.processShReqFromL2Cache hcfg hg hfront htime htype fun x hx ↦ by simp at hx)
    · next hex hsh =>
      have hnull := toLine_eq_nullify hex hsh
      split_ifs with hunc
      · have hgood := htry' (.inr hunc)
        exact hgood.retry hcfg hg (hgood.retryNullifyReq hg hfront hnull)
      · exact hwait' (by rw [hnull]; rfl) hunc

theorem Good.resumeAfterFlushRep (hadr : ∀ r ∈ d.queue a, r.address = a) (hdram : (d.dram a).isSome)
    (he : d.cache.entry cfg.directory a = some e) (hmod : e.dstate ≠ .modified)
    (hmiss : ∀ r ∈ (d.queue a).tail, r.toLine ≠ .nullify) (hidle : d.queue a = [] →
      Good cfg allowed listed (Phase.only a .settled) (s.commit g (d.setDram a data)) mem)
    (hforward : ∀ req queue, d.queue a = req :: queue → req.type = .exReq →
      Outcome ((d.touchFront a req queue).2.processExReqFromL2Cache cfg env
          (d.touchFront a req queue).1 (some data))
        (Attempted cfg allowed listed s g mem a (d.touchFront a req queue).2) (Tolerated listed))
    (htry : ∀ req queue, d.queue a = req :: queue → req.type ≠ .exReq →
      Good cfg allowed listed (Phase.only a .trying)
        (s.commit g ((d.touchFront a req queue).2.setDram a data)) mem) :
    Settles cfg allowed listed s g mem (d.resumeAfterFlushRep cfg env a data) := by
  rw [Phase.only_settled] at hidle
  unfold Dir.resumeAfterFlushRep
  match hq : d.queue a with
  | [] =>
    rw [Dir.putDataToDram_eq hdram]
    exact hidle hq
  | req :: queue =>
    have hadr' : (d.touchFront a req queue).1.address = a := hadr req (by simp [hq])
    have hfront := d.touchFront_queue a req queue
    have htime : (d.touchFront a req queue).1.time ≤ (d.touchFront a req queue).2.clock :=
      le_max_right _ _
    have htype : req.type = (d.touchFront a req queue).1.type := rfl
    have hdram' : ((d.touchFront a req queue).2.dram a).isSome := hdram
    have he' : (d.touchFront a req queue).2.cache.entry cfg.directory a = some e := he
    have hforward' := hforward req queue hq
    have htry' := htry req queue hq
    have hmiss' : ∀ r ∈ ((d.touchFront a req queue).2.queue a).tail, r.toLine ≠ .nullify := by
      rw [hfront]
      rw [hq] at hmiss
      exact hmiss
    rw [htype] at hforward' htry'
    dsimp only
    generalize d.touchFront a req queue = front at *
    obtain ⟨req', d'⟩ := front
    subst hadr'
    dsimp only at hfront htime hforward' htry' hdram' he' hmiss' ⊢
    split
    · next htype =>
      exact .bind (hforward' htype) fun r hr ↦ Good.afterReq hcfg hg hmiss' r hr
    · next htype =>
      have hgood := htry' (by simp [htype])
      rw [Dir.putDataToDram_eq hdram']
      refine hgood.retry hcfg hg (hgood.processShReqFromL2Cache hcfg hg hfront htime htype ?_)
      intro x hx
      obtain rfl := some.inj hx
      exact ⟨update_self .., e, he', hmod⟩
    · next hex hsh =>
      have hgood := htry' hex
      rw [Dir.putDataToDram_eq hdram']
      exact hgood.retry hcfg hg (hgood.retryNullifyReq hg hfront (toLine_eq_nullify hex hsh))

theorem Good.resumeAfterWbRep (hq : d.queue a = req :: queue)
    (hadr : req.address = a) (htype : req.type = .shReq) (hdram : (d.dram a).isSome)
    (he : d.cache.entry cfg.directory a = some e) (hmod : e.dstate ≠ .modified)
    (hgood : Good cfg allowed listed (Phase.only a .trying)
      (s.commit g ((d.touchFront a req queue).2.setDram a data)) mem) :
    Settles cfg allowed listed s g mem (d.resumeAfterWbRep cfg env a data) := by
  subst hadr
  unfold Dir.resumeAfterWbRep
  rw [hq]
  dsimp only
  rw [Dir.putDataToDram_eq (d := (d.touchFront req.address req queue).2) hdram]
  refine .require_pos htype ?_
  have hfront := d.touchFront_queue req.address req queue
  refine hgood.retry hcfg hg (hgood.processShReqFromL2Cache hcfg hg hfront (le_max_right _ _) htype ?_)
  intro x hx
  obtain rfl := some.inj hx
  exact ⟨update_self .., e, he, hmod⟩

end Resume

section Reply

variable (hcfg : cfg.Supported listed) (h : Coherent cfg allowed listed s mem)
  (hc : s.chan src g = p :: rest) (hroute : p.msg.route = .toDirectory)
  (hg : cfg.home p.msg.address = g)

include hcfg h hc hroute hg

theorem Good.processInvRepFromL2Cache (htype : p.msg.type = .invRep) :
    Settles cfg allowed listed (s.setChan src g rest) g mem
      (Dir.processInvRepFromL2Cache cfg env (s.enter g now) src p.msg) := by
  obtain ⟨L, hL⟩ := h.lineOf p.msg.address
  have hdir := hL.enter hg now
  have hu := hL.up hc hg (m := .invRep) (by simp [upMsg, hroute, htype])
  obtain ⟨hsrc, hst⟩ := hL.inv.shared_of_invRep hu
  obtain ⟨e, he⟩ := hdir.exists_entry (by simp [hst])
  have hev := hdir.entry e he
  obtain ⟨c, -, hget⟩ := Dir.getDirectoryEntry_of_some (d := s.enter g now) (h.cache g) he
  have hdst : e.dstate = .shared := by rw [hev.dstate, hst]; rfl
  unfold Dir.processInvRepFromL2Cache
  rw [hget]
  refine .require_pos hdst ?_
  refine .bind (Entry.removeSharer_outcome hev.sharers hsrc) ?_
  rintro e₁ ⟨x, rfl, hx⟩
  -- the entry becomes UNCACHED with its last sharer
  have he₂ : (if x.getNumSharers = 0 then ({ e with sharers := x, dstate := .uncached } : Entry)
      else { e with sharers := x }) = ⟨x, e.owner,
        (if L.sharers.erase src = ∅ then LineDState.uncached else .shared).toDState, e.seed⟩ := by
    rw [hx.1.getNumSharers]
    by_cases hempty : L.sharers.erase src = ∅
    · simp [hempty, LineDState.toDState]
    · have hcard : (L.sharers.erase src).card ≠ 0 := by simpa using hempty
      simp [hempty, hcard, LineDState.toDState, hdst]
  dsimp only
  rw [he₂]
  have hgood (q : Phase) (d' : Dir A N)
      (hd' : Dir.Replied cfg (s.enter g now) p.msg.address ⟨x, e.owner,
        (if L.sharers.erase src = ∅ then LineDState.uncached else .shared).toDState, e.seed⟩ d')
      (hre : Retimed s p.msg.address ((s.dir g).queue p.msg.address) (d'.queue p.msg.address))
      (hdram : d'.dram = (s.dir g).dram) (hdone : q ≠ .done)
      (hbusy : q ≠ .settled → (s.dir g).queue p.msg.address ≠ [])
      (hpend : (L.pending && decide (L.sharers.erase src ≠ ∅) && !L.frontSh)
        = decide (q = .settled ∧ (s.dir g).queue p.msg.address ≠ [])) :
      Good cfg allowed listed (Phase.only p.msg.address q)
        ((s.setChan src g rest).commit g d') mem := by
    refine h.reply hc hroute hg hL he hd' hre (.invRep L src _ hu hst) ⟨rfl, hev.owner, hx, ?_⟩ rfl
      ?_ rfl rfl hdone hbusy hpend
    · intro o ho
      exact absurd ((hL.inv.noOwner (by simp [hst])).symm.trans ho) (by simp)
    · rw [hdram]
      exact hdir.dram_eq ⟨src, hsrc⟩
  have hd₁ : Dir.Replied cfg (s.enter g now) p.msg.address _ _ := .putEntry _ _ ⟨x, e.owner,
    (if L.sharers.erase src = ∅ then LineDState.uncached else .shared).toDState, e.seed⟩ c
  have hre := h.retimed_self hg
  refine Good.resumeAfterInvRep hcfg hg hre.address (fun hq ↦ ?_) (fun req queue hq hsh hne ↦ ?_)
    fun req queue hq htry ↦ ?_
  · have hq' : (s.dir g).queue p.msg.address = [] := hq
    have hpend : L.pending = false := by simp [hdir.pending, hq']
    exact hgood .settled _ hd₁ hre rfl (by simp) (by simp) (by simp [hpend, hq'])
  · have hq' : (s.dir g).queue p.msg.address = req :: queue := hq
    have hpend : L.pending = true := by simp [hdir.pending, hq']
    have hempty : L.sharers.erase src ≠ ∅ := by
      intro hempty
      simp [hempty, LineDState.toDState] at hne
    refine hgood .settled _ (hd₁.touchFront req queue) (hre.touchFront hq') rfl (by simp) (by simp) ?_
    simp [hpend, hempty, hdir.frontSh hq', hsh, hq']
  · have hq' : (s.dir g).queue p.msg.address = req :: queue := hq
    refine hgood .trying _ (hd₁.touchFront req queue) (hre.touchFront hq') rfl (by simp)
      (by simp [hq']) ?_
    rcases htry with hsh | hunc
    · simp [hdir.frontSh hq', hsh]
    · have hempty : L.sharers.erase src = ∅ := by
        by_contra hempty
        simp [hempty, LineDState.toDState] at hunc
      simp [hempty]

theorem Good.processWbRepFromL2Cache (htype : p.msg.type = .wbRep)
    (hdata : p.msg.data = some data) :
    Settles cfg allowed listed (s.setChan src g rest) g mem
      (Dir.processWbRepFromL2Cache cfg env (s.enter g now) src p.msg) := by
  obtain ⟨L, hL⟩ := h.lineOf p.msg.address
  have hdir := hL.enter hg now
  have hu := hL.up hc hg (m := .wbRep data) (by simp [upMsg, hroute, htype, hdata])
  obtain ⟨hsrc, hst, u, qrest, hqL⟩ := hL.inv.modified_of_wbRep hu
  obtain ⟨e, he⟩ := hdir.exists_entry (by simp [hst])
  have hev := hdir.entry e he
  obtain ⟨c, -, hget⟩ := Dir.getDirectoryEntry_of_some (d := s.enter g now) (h.cache g) he
  have hdst : e.dstate = .modified := by rw [hev.dstate, hst]; rfl
  unfold Dir.processWbRepFromL2Cache
  refine .fetch_bind (fun x hx ↦ ?_) fun hn ↦ absurd (hdata.symm.trans hn) (by simp)
  obtain rfl := some.inj (hdata.symm.trans hx)
  rw [hget]
  refine .require_pos hdst ?_
  obtain ⟨o, ho, hS⟩ := hL.inv.modified hst
  obtain rfl : src = o := by simpa [hS] using hsrc
  refine .bind (Entry.hasSharer_outcome (hev.tracked src ho)) fun present hpresent ↦ ?_
  refine .require_bind (fun _ ↦ ?_) fun hn ↦ ⟨fun hl ↦ hn (hpresent hl), by decide⟩
  obtain ⟨req, queue, hq, hline⟩ := hdir.front_of_queue hqL
  rw [Sys.enter_queue] at hq
  have hsh : req.type = .shReq := by
    unfold ShmemReq.toLine at hline
    split at hline <;> simp_all
  have hasked := hdir.dram_eq ⟨src, hsrc⟩
  have hd₁ : Dir.Replied cfg (s.enter g now) p.msg.address _ _ :=
    .putEntry _ _ ⟨e.sharers, invalidTileId, .shared, e.seed⟩ c
  refine Good.resumeAfterWbRep (e := ⟨e.sharers, invalidTileId, .shared, e.seed⟩) hcfg hg hq ?_ hsh ?_
    ?_ (by simp) (h.reply hc hroute hg hL he ((hd₁.touchFront req queue).setDram data)
      ((h.retimed_self hg).touchFront hq) (.wbRep L src data _ hu hst)
      ⟨rfl, rfl, hev.sharers, by simp⟩ rfl (update_self ..) rfl rfl (by simp) ?_ (by simp))
  · exact hdir.address req (by simp [hq])
  · change ((s.enter g now).dram p.msg.address).isSome
    simp [hasked]
  · exact (((h.cache g).putEntry he _).1.entry _).trans (if_pos rfl)
  · intro _
    simp [hq]

omit hcfg in
/-- The owner of a modified line gives it up to the EX_REQ at the front of the queue. -/
theorem Good.flushForward {d : Dir A N}
    (hL : LineOf cfg listed s mem .settled p.msg.address L)
    (hu : (L.tile src).up = .flushRep data :: ups cfg (s.setChan src g rest) p.msg.address src)
    (he : (s.enter g now).cache.entry cfg.directory p.msg.address = some e) {e' : Entry}
    (hd : Dir.Replied cfg (s.enter g now) p.msg.address e' d) (hunc : e'.dstate = .uncached)
    (hrep : Represents listed e'.sharers (∅ : Finset (Fin N)))
    (hdram : d.dram p.msg.address = (s.dir g).dram p.msg.address)
    (hq : (s.dir g).queue p.msg.address = req :: queue) (htype : req.type = .exReq) :
    Outcome ((d.touchFront p.msg.address req queue).2.processExReqFromL2Cache cfg env
        (d.touchFront p.msg.address req queue).1 (some data))
      (Attempted cfg allowed listed (s.setChan src g rest) g mem p.msg.address
        (d.touchFront p.msg.address req queue).2) (Tolerated listed) := by
  have hd₂ := hd.touchFront req queue
  have hre : Retimed s p.msg.address ((s.dir g).queue p.msg.address)
      ((d.touchFront p.msg.address req queue).2.queue p.msg.address) :=
    (h.retimed_self hg).touchFront hq
  have hfront := d.touchFront_queue p.msg.address req queue
  have hadr : (d.touchFront p.msg.address req queue).1.address = p.msg.address :=
    hre.address _ (by simp [hfront])
  have htype' : (d.touchFront p.msg.address req queue).1.type = .exReq := htype
  have hdram₂ : (d.touchFront p.msg.address req queue).2.dram p.msg.address
      = (s.dir g).dram p.msg.address := hdram
  have hline : (d.touchFront p.msg.address req queue).1.toLine = req.toLine := rfl
  have htime : (d.touchFront p.msg.address req queue).1.time
      ≤ (d.touchFront p.msg.address req queue).2.clock := le_max_right _ _
  generalize d.touchFront p.msg.address req queue = front at *
  obtain ⟨req', d₂⟩ := front
  dsimp only at *
  obtain ⟨hupd, hkeys, -⟩ := (h.cache g).putEntry he e'
  have hcache : d₂.cache = (s.dir g).cache.putEntry cfg.directory p.msg.address e' := hd₂.cache
  have he₂ : d₂.cache.entry cfg.directory req'.address = some e' := by
    rw [hadr, hcache, hupd.entry, if_pos rfl]
  have hwf₂ : d₂.cache.WF cfg.directory := hcache ▸ hupd.wf
  obtain ⟨c₁, hc₁, hget⟩ := Dir.getDirectoryEntry_of_some hwf₂ he₂
  unfold Dir.processExReqFromL2Cache Dir.entryFor
  rw [hget]
  refine (Dir.serveExReq_of_uncached hunc hrep).imp ?_
  rintro r ⟨x, c, hc', hx, htr, rfl⟩
  refine ⟨?_, rfl⟩
  have hdir := hL.enter hg now
  obtain ⟨hsrc, hst⟩ := hL.inv.modified_of_flushRep hu
  have hqL : L.queue = .miss .ex req'.requester :: queue.map ShmemReq.toLine := by
    have hq₁ : L.queue = ((s.dir g).queue p.msg.address).map ShmemReq.toLine := hdir.queue
    rw [hq₁, hq, map_cons, ← hline]
    simp [ShmemReq.toLine, htype']
  have hmem : .miss .ex req'.requester ∈ L.queue := hqL ▸ mem_cons_self
  have hut : req'.requester ≠ src := fun hut ↦ hL.inv.not_mem_of_queued hmem (hut ▸ hsrc)
  have hasked := hdir.dram_eq ⟨src, hsrc⟩
  have hout : d₂.out = [] := hd₂.out
  let d₃ : Dir A N := Dir.answer cfg { d₂ with clock := c₁ }
    ⟨x, ownerId (some req'.requester), .modified, e'.seed⟩ .exRep req' c (some data)
  have htouch₃ : Dir.Touches cfg (· = req'.address) { d₂ with clock := c₁ } d₃ :=
    Dir.touches_answer hwf₂ he₂
  have hentry₃ : d₃.cache.entry cfg.directory req'.address
      = some ⟨x, ownerId (some req'.requester), .modified, e'.seed⟩ := Dir.entry_answer hwf₂ he₂
  have hkeys₃ (b : A) : b ∈ d₃.cache.replaced.map Prod.fst ↔ b ∈ d₂.cache.replaced.map Prod.fst :=
    Dir.replaced_answer (d := { d₂ with clock := c₁ }) hwf₂ he₂ b
  have hout₃ : d₃.out = [⟨req'.requester, ⟨Dir.message .exRep req' (some data), c⟩⟩] := by
    change d₂.out ++ _ = _
    rw [hout]
    rfl
  rw [hadr] at htouch₃ hentry₃
  refine h.receive hc hroute hg hL ?_ hre.timely ?_ ?_
    (.flushForward L src req'.requester data _ _ hu hst hqL hut) ?_ ?_
    (update (fun t ↦ (L.tile t).stage) req'.requester (.granted .ex)) (fun t ↦ ?_)
    (StageView.update_granted hL.inv hmem)
  · refine ⟨htouch₃.wf, fun b hb ↦ ?_, fun b hb ↦ ?_, hd₂.queue, fun b hb ↦ ?_⟩
    · refine (htouch₃.entry b hb).trans ?_
      rw [hcache, hupd.entry, if_neg hb]
    · rw [hkeys₃, hcache, hkeys]
    · exact (htouch₃.dram b hb).trans (hd₂.dram b hb)
  · refine hdir.answered (by simp) hqL hentry₃ ⟨?_, rfl, hx, ?_⟩ ?_ hre.lines hre.address ?_ rfl rfl
    · change DState.modified = L.dstate.toDState
      rw [hst]
      rfl
    · rintro o ho
      obtain rfl := some.inj ho
      exact htr
    · rw [hkeys₃, hcache, hkeys]
      rfl
    · exact hdram₂.trans hasked
  · rfl
  · intro y hy
    rw [hout₃, mem_singleton] at hy
    subst hy
    refine ⟨rfl, hadr, by simp [Dir.message], ?_, by simp [Dir.message]⟩
    exact (hadr ▸ hg).symm
  · intro y hy _
    rw [hout₃, mem_singleton] at hy
    subst hy
    have hold := hre.timely req' (by simp [hfront]) (by simp [htype', MsgType.isReq])
    exact hold.trans (htime.trans (hc₁.trans hc'))
  · rw [hout₃, downsOf_singleton (hadr ▸ downMsg_exRep req' data c)]
    by_cases ht : t = req'.requester
    · subst ht
      simp [← hL.up_of_ne hc hut]
    · by_cases hts : t = src
      · subst hts
        simp [ht]
      · simp [ht, hts, ← hL.up_of_ne hc hts]

theorem Good.processFlushRepFromL2Cache (htype : p.msg.type = .flushRep)
    (hdata : p.msg.data = some data) :
    Settles cfg allowed listed (s.setChan src g rest) g mem
      (Dir.processFlushRepFromL2Cache cfg env (s.enter g now) src p.msg) := by
  obtain ⟨L, hL⟩ := h.lineOf p.msg.address
  have hdir := hL.enter hg now
  have hu := hL.up hc hg (m := .flushRep data) (by simp [upMsg, hroute, htype, hdata])
  obtain ⟨hsrc, hst⟩ := hL.inv.modified_of_flushRep hu
  obtain ⟨e, he⟩ := hdir.exists_entry (by simp [hst])
  have hev := hdir.entry e he
  obtain ⟨c, -, hget⟩ := Dir.getDirectoryEntry_of_some (d := s.enter g now) (h.cache g) he
  have hdst : e.dstate = .modified := by rw [hev.dstate, hst]; rfl
  unfold Dir.processFlushRepFromL2Cache
  refine .fetch_bind (fun x hx ↦ ?_) fun hn ↦ absurd (hdata.symm.trans hn) (by simp)
  obtain rfl := some.inj (hdata.symm.trans hx)
  rw [hget]
  refine .require_pos hdst ?_
  refine .bind (Entry.removeSharer_outcome hev.sharers hsrc) ?_
  rintro e₁ ⟨x, rfl, hx⟩
  have hasked := hdir.dram_eq ⟨src, hsrc⟩
  have hd₁ : Dir.Replied cfg (s.enter g now) p.msg.address _ _ :=
    .putEntry _ _ ⟨x, invalidTileId, .uncached, e.seed⟩ c
  have hre := h.retimed_self hg
  have hempty : L.sharers.erase src = ∅ := by
    rw [hL.inv.sharers_eq hst hsrc, Finset.erase_singleton]
  have hgood (q : Phase) (d' : Dir A N)
      (hd' : Dir.Replied cfg (s.enter g now) p.msg.address ⟨x, invalidTileId, .uncached, e.seed⟩ d')
      (hre : Retimed s p.msg.address ((s.dir g).queue p.msg.address) (d'.queue p.msg.address))
      (hdone : q ≠ .done) (hbusy : q ≠ .settled ↔ (s.dir g).queue p.msg.address ≠ []) :
      Good cfg allowed listed (Phase.only p.msg.address q)
        ((s.setChan src g rest).commit g (d'.setDram p.msg.address data)) mem := by
    refine h.reply hc hroute hg hL he (hd'.setDram data) hre (.flushRep L src data _ hu hst)
      ⟨rfl, rfl, hx, by simp⟩ rfl (update_self ..) rfl rfl hdone hbusy.mp ?_
    exact (decide_eq_false fun hs ↦ hbusy.mpr hs.2 hs.1).symm
  refine Good.resumeAfterFlushRep (e := ⟨x, invalidTileId, .uncached, e.seed⟩) hcfg hg hre.address ?_
    ?_ (by simp) (hdir.miss_of_tail hL.inv (by simp)) (fun hq ↦ ?_) (fun req queue hq hex ↦ ?_)
    fun req queue hq hne ↦ ?_
  · change ((s.enter g now).dram p.msg.address).isSome
    simp [hasked]
  · exact (((h.cache g).putEntry he _).1.entry _).trans (if_pos rfl)
  · have hq' : (s.dir g).queue p.msg.address = [] := hq
    exact hgood .settled _ hd₁ hre (by simp) (by simp [hq'])
  · exact h.flushForward hc hroute hg hL hu he hd₁ rfl (hempty ▸ hx) rfl hq hex
  · have hq' : (s.dir g).queue p.msg.address = req :: queue := hq
    exact hgood .trying _ (hd₁.touchFront req queue) (hre.touchFront hq') (by simp) (by simp [hq'])

end Reply

/-! ### The directory -/

/-- Every message that can reach a directory leaves the invariant intact. -/
theorem Good.handleMsgFromL2Cache (hcfg : cfg.Supported listed)
    (h : Coherent cfg allowed listed s mem) (hc : s.chan src g = p :: rest)
    (hroute : p.msg.route = .toDirectory) (hnow : p.time ≤ now) :
    Settles cfg allowed listed (s.setChan src g rest) g mem
      (Dir.handleMsgFromL2Cache cfg env (s.enter g now) src p.msg) := by
  obtain ⟨hshape, hends, hreq⟩ := h.wf src g p (by simp [hc])
  rw [hroute] at hshape hends
  have hg : cfg.home p.msg.address = g := hends.symm
  unfold Dir.handleMsgFromL2Cache
  cases htype : p.msg.type with
  | exReq =>
    rw [htype] at hshape
    exact h.handleReqFromL2Cache hcfg hc hroute hg hnow (.inl htype) hshape (hreq (.inl htype))
  | shReq =>
    rw [htype] at hshape
    exact h.handleReqFromL2Cache hcfg hc hroute hg hnow (.inr htype) hshape (hreq (.inr htype))
  | invRep => exact h.processInvRepFromL2Cache hcfg hc hroute hg htype
  | flushRep =>
    rw [htype] at hshape
    obtain ⟨data, hdata⟩ := isSome_iff_exists.mp hshape
    exact h.processFlushRepFromL2Cache hcfg hc hroute hg htype hdata
  | wbRep =>
    rw [htype] at hshape
    obtain ⟨data, hdata⟩ := isSome_iff_exists.mp hshape
    exact h.processWbRepFromL2Cache hcfg hc hroute hg htype hdata
  | _ =>
    rw [htype] at hshape
    exact hshape.elim

end CarbonSim.Msi
