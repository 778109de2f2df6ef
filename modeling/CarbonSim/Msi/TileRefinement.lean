import CarbonSim.Msi.View

/-!
# The steps of a tile are steps of its lines

Every access of a core and every message that an L2 cache handles is, for each line, a sequence of
steps of the one-line protocol, so it keeps `Good`. `Good.tileStep` is the frame: only the tile that
takes the step and its channels change, and it remains to give the step of each line.
-/

namespace CarbonSim.Msi

open List Function Tile

open Relation (ReflTransGen)

variable {A : Type} [DecidableEq A] {N : ℕ} {cfg : Config A N} {allowed : Fin N → A → L1Kind → Prop}
  {listed : Prop} {ph : A → Phase} {s s₀ : Sys A N} {mem mem' : A → Block} {t src : Fin N}
  {x : Tile A} {sends : List (Send A N)} {a : A} {L : Line N Block} {acc : Access A} {stage : Stage}
  {v : TileView Block} {modeled : Bool} {data : Block} {st : CState}

/-! ### Frames -/

/-- The line after a step of tile `t`. -/
def Line.move (L : Line N Block) (t : Fin N) (v : TileView Block) (latest : Block) : Line N Block :=
  { L.setTile t v with latest }

theorem Line.move_self (L : Line N Block) (t : Fin N) : L.move t (L.tile t) L.latest = L := by
  unfold Line.move Line.setTile
  rw [update_eq_self]

/-- Before it handles a message, tile `t` has taken it from a channel. -/
structure Popped (cfg : Config A N) (s : Sys A N) (t : Fin N) (s₀ : Sys A N) : Prop where
  tile : s₀.tile = s.tile
  dir : s₀.dir = s.dir
  chan : ∀ u v p, p ∈ s₀.chan u v → p ∈ s.chan u v
  asks : ∀ u, u ≠ t → s₀.chan u u = s.chan u u
  down : ∀ a u, u ≠ t → downs cfg s₀ a u = downs cfg s a u
  up : ∀ a u, ups cfg s₀ a u = ups cfg s a u

omit [DecidableEq A] in
theorem Popped.refl [DecidableEq A] : Popped cfg s t s :=
  ⟨rfl, rfl, fun _ _ _ h ↦ h, fun _ _ ↦ rfl, fun _ _ _ ↦ rfl, fun _ _ ↦ rfl⟩

theorem Popped.setChan {p : Packet A N} {rest : List (Packet A N)} (hc : s.chan src t = p :: rest)
    (hroute : p.msg.route ≠ .toDirectory) : Popped cfg s t (s.setChan src t rest) := by
  refine ⟨rfl, rfl, fun u v q hq ↦ ?_, fun u hu ↦ ?_, fun a u hu ↦ ?_, fun a u ↦ ?_⟩
  · rw [chan_setChan] at hq
    split_ifs at hq with huv
    · rw [huv.1, huv.2, hc]
      exact mem_cons_of_mem _ hq
    · exact hq
  · rw [chan_setChan, if_neg fun huv ↦ hu huv.2]
  · rw [downs_pop hc a u, if_neg fun huv ↦ hu huv.2, nil_append]
  · rw [ups_pop hc a u, upMsg_eq_none (.inl hroute)]
    simp

/-- What line `a` sees of tile `t` when the tile becomes `x` and sends `sends`. -/
structure Moves (cfg : Config A N) (listed : Prop) (s s₀ : Sys A N) (t : Fin N) (x : Tile A)
    (sends : List (Send A N)) (a : A) (latest : Block) (L : Line N Block) (v : TileView Block) :
    Prop where
  steps : ReflTransGen (Line.Step listed) L (L.move t v latest)
  held : x.content (cfg.tile t) a = v.held
  down : v.down = downs cfg s₀ a t
  up : v.up = ups cfg s a t ++ upsOf a sends
  stage : StageView x a v.stage

/-- A line that a step of a tile does not concern. -/
theorem Moves.stay (hv : View cfg listed s (ph a) a L)
    (hheld : x.content (cfg.tile t) a = (s.tile t).content (cfg.tile t) a)
    (hdown : downs cfg s₀ a t = downs cfg s a t) (hup : upsOf a sends = [])
    (hstage : ∀ stage, StageView (s.tile t) a stage → StageView x a stage) :
    Moves cfg listed s s₀ t x sends a L.latest L (L.tile t) := by
  have hm := hv.tile t
  refine ⟨?_, hheld.trans hm.held, hm.down.trans hdown.symm, ?_, hstage _ hm.stage⟩
  · rw [Line.move_self]
  · rw [hup, append_nil]
    exact hm.up

/-- The effect of a step of a tile on the invariant. -/
theorem Good.tileStep (h : Good cfg allowed listed ph s mem) (hpop : Popped cfg s t s₀)
    (hinv : x.Inv (cfg.tile t) (allowed t)) (hready : Ready (cfg.tile t) x)
    (hfrom : FromTile cfg.home sends) (hwf : ∀ y ∈ sends, y.packet.msg.WF cfg.home t y.receiver)
    (hasks : AsksFor t x (l1Asks s₀ t ++
      ((Sys.packetsTo t sends).filter Packet.fromL1).map Packet.msg))
    (htime : Timely s t x.outstandingTime)
    (hsent : ∀ y ∈ sends, y.packet.msg.type.isReq = true → y.packet.msg.route = .toDirectory →
      x.outstandingTime ≤ y.packet.time) (hrep : ∀ y ∈ sends, y.packet.msg.type.isRep = false)
    (hline : ∀ a L, View cfg listed s (ph a) a L → L.Inv listed → L.latest = mem a →
      ∃ v, Moves cfg listed s s₀ t x sends a (mem' a) L v) :
    Good cfg allowed listed ph ((s₀.setTile t x).post t sends) mem' := by
  have htile (u : Fin N) (hu : u ≠ t) : ((s₀.setTile t x).post t sends).tile u = s.tile u := by
    simp [Sys.post, Sys.setTile, hu, hpop.tile]
  have hself : ((s₀.setTile t x).post t sends).tile t = x := by simp [Sys.post, Sys.setTile]
  have hdir : ((s₀.setTile t x).post t sends).dir = s.dir := hpop.dir
  have hchan (u v : Fin N) (p : Packet A N) (hp : p ∈ ((s₀.setTile t x).post t sends).chan u v) :
      p ∈ s.chan u v ∨ u = t ∧ ⟨v, p⟩ ∈ sends := by
    rw [chan_post, mem_append] at hp
    rcases hp with hp | hp
    · exact .inl (hpop.chan u v p hp)
    · split_ifs at hp with hu
      · exact .inr ⟨hu, mem_packetsTo.mp hp⟩
      · simp at hp
  refine ⟨fun a ↦ ?_, fun u ↦ ?_, fun u ↦ ?_, fun g ↦ ?_, fun g a ↦ ?_, fun u v p hp ↦ ?_,
    fun u ↦ ?_, fun u ↦ ?_⟩
  · obtain ⟨L, hv, hL, hlatest⟩ := h.line a
    obtain ⟨v, hmove⟩ := hline a L hv hL hlatest
    refine ⟨L.move t v (mem' a), ⟨?_, fun u ↦ ?_⟩, hL.run hmove.steps, rfl⟩
    · rw [hdir]
      exact ⟨fun e he ↦ ⟨(hv.dir.entry e he).dstate, (hv.dir.entry e he).owner,
        (hv.dir.entry e he).sharers, (hv.dir.entry e he).tracked⟩, hv.dir.noEntry, hv.dir.queue,
        hv.dir.busy, hv.dir.pending, hv.dir.address, hv.dir.dram, hv.dir.asked, hv.dir.replaced⟩
    · by_cases hu : u = t
      · subst hu
        have hview : (L.move u v (mem' a)).tile u = v := by simp [Line.move]
        rw [hview]
        refine ⟨by rw [hself, hmove.held], ?_, ?_, by rw [hself]; exact hmove.stage⟩
        · rw [hmove.down, downs_post_fromTile hfrom]
          rfl
        · rw [hmove.up, ups_post_fromTile hfrom, if_pos rfl, ← hpop.up]
          rfl
      · have hview : (L.move t v (mem' a)).tile u = L.tile u := by simp [Line.move, hu]
        have hm := hv.tile u
        rw [hview]
        refine ⟨by rw [htile u hu, hm.held], ?_, ?_, by rw [htile u hu]; exact hm.stage⟩
        · rw [hm.down, downs_post_fromTile hfrom, ← hpop.down a u hu]
          rfl
        · rw [hm.up, ups_post_fromTile hfrom, if_neg hu, append_nil, ← hpop.up]
          rfl
  · by_cases hu : u = t
    · subst hu
      rw [hself]
      exact hinv
    · rw [htile u hu]
      exact h.tile u
  · by_cases hu : u = t
    · subst hu
      rw [hself]
      exact hready
    · rw [htile u hu]
      exact h.ready u
  · rw [hdir]
    exact h.cache g
  · rw [hdir]
    exact h.foreign g a
  · rcases hchan u v p hp with hold | ⟨rfl, hnew⟩
    · exact h.wf u v p hold
    · exact hwf _ hnew
  · by_cases hu : u = t
    · subst hu
      rw [hself]
      have heq : l1Asks ((s₀.setTile u x).post u sends) u = l1Asks s₀ u ++
          ((Sys.packetsTo u sends).filter Packet.fromL1).map Packet.msg := by
        unfold l1Asks
        rw [chan_post, if_pos rfl, filter_append, map_append]
        rfl
      rw [heq]
      exact hasks
    · have heq : l1Asks ((s₀.setTile t x).post t sends) u = l1Asks s u := by
        unfold l1Asks
        rw [chan_post, if_neg hu, append_nil]
        exact congrArg (fun q ↦ (List.filter Packet.fromL1 q).map Packet.msg) (hpop.asks u hu)
      rw [heq, htile u hu]
      exact h.asks u
  · have hold : Timely s u (((s₀.setTile t x).post t sends).tile u).outstandingTime := by
      by_cases hu : u = t
      · rw [hu, hself]
        exact htime
      · rw [htile u hu]
        exact h.timely u
    refine ⟨fun g b r hr ↦ ?_, fun g p hp hroute hreq ↦ ?_, fun g p hp hrep' ↦ ?_⟩
    · rw [hdir] at hr
      exact hold.queue g b r hr
    · rcases hchan u g p hp with hmem | ⟨rfl, hnew⟩
      · exact hold.request g p hmem hroute hreq
      · rw [hself]
        exact hsent _ hnew hreq hroute
    · rcases hchan g u p hp with hmem | ⟨rfl, hnew⟩
      · exact hold.reply g p hmem hrep'
      · have hno : p.msg.type.isRep = false := hrep ⟨u, p⟩ hnew
        simp [hno] at hrep'

/-! ### What the state of a tile tells about its lines -/

theorem StageView.of_not_missed (happ : ∀ acc n, x.app ≠ .missed acc n) :
    StageView x a stage ↔ stage = .none := by
  unfold StageView
  cases hx : x.app with
  | idle => rfl
  | missed acc n => exact absurd hx (happ acc n)
  | filled acc n => rfl

theorem StageView.of_missed {n : ℕ} (happ : x.app = .missed acc n) :
    StageView x a stage ↔ if acc.address = a then
      if x.outstanding.isNone then stage = .asking (kindOf acc.op)
      else stage = .requested (kindOf acc.op) ∨ stage = .queued (kindOf acc.op) ∨
        stage = .granted (kindOf acc.op)
    else stage = .none := by
  unfold StageView
  rw [happ]

/-- The stage depends only on the access that has missed and on whether the L2 knows of it. -/
theorem StageView.congr {y : Tile A} (happ : y.app = x.app) (hout : y.outstanding = x.outstanding)
    (h : StageView x a stage) : StageView y a stage := by
  unfold StageView at h ⊢
  rwa [happ, hout]

/-- A tile whose L2 does not know of a miss has not asked the directory. -/
theorem StageView.not_asked (hout : x.outstanding = none) (h : StageView x a stage)
    (kind : ReqKind) : stage ≠ .requested kind ∧ stage ≠ .queued kind ∧ stage ≠ .granted kind := by
  unfold StageView at h
  cases hx : x.app with
  | idle | filled => simp_all
  | missed acc n =>
    rw [hx] at h
    dsimp only at h
    split_ifs at h <;> simp_all

theorem upMsg_of_isReq {p : Packet A N} (hroute : p.msg.route = .toDirectory)
    (hreq : p.msg.type.isReq = true) : ∃ kind, upMsg p.msg.address p = some (.req kind) := by
  unfold upMsg
  cases ht : p.msg.type <;> simp_all [MsgType.isReq]

theorem downMsg_of_isRep {src dst : Fin N} {p : Packet A N} (hwf : p.msg.WF cfg.home src dst)
    (hrep : p.msg.type.isRep = true) :
    src = cfg.home p.msg.address ∧ ∃ m, downMsg p.msg.address p = some m ∧ ¬ m.IsReq := by
  obtain ⟨hshape, hends, -⟩ := hwf
  have hroute : p.msg.route = .fromDirectory := by
    cases hr : p.msg.route <;> cases ht : p.msg.type <;> simp_all [MsgType.isRep]
  rw [hroute] at hshape hends
  refine ⟨hends, ?_⟩
  unfold downMsg
  cases ht : p.msg.type <;> simp_all [MsgType.isRep]
  all_goals
    obtain ⟨y, hy⟩ := Option.isSome_iff_exists.mp hshape
    simp [hy, DownMsg.IsReq]

/-- Nothing is under way for a tile whose L2 does not know of a miss. -/
theorem Good.timely_of_not_asked (h : Good cfg allowed listed ph s mem) (hph : ∀ b, ph b ≠ .done)
    (hout : (s.tile t).outstanding = none) (time : ℕ) : Timely s t time := by
  refine ⟨fun g b r hr hreq hreqr ↦ ?_, fun g p hp hroute hreq ↦ ?_, fun g p hp hrep ↦ ?_⟩
  · exfalso
    obtain ⟨L, hv, hL, -⟩ := h.line b
    have hg : cfg.home b = g := by
      by_contra hne
      simp [(h.foreign g b hne).1] at hr
    subst hg
    obtain ⟨kind, hline⟩ : ∃ kind, r.toLine = .miss kind t := by
      unfold ShmemReq.toLine
      cases ht : r.type <;> simp_all [MsgType.isReq]
    have hmem : .miss kind t ∈ L.queue := by
      rw [hv.dir.queue, if_neg (hph b)]
      exact mem_map.mpr ⟨r, hr, hline⟩
    exact (StageView.not_asked hout (hv.tile t).stage kind).2.1 ((hL.queued kind t).mp hmem)
  · exfalso
    have hwf := h.wf t g p hp
    obtain ⟨L, hv, hL, -⟩ := h.line p.msg.address
    obtain ⟨kind, hup⟩ := upMsg_of_isReq hroute hreq
    have hends := hwf.ends
    rw [hroute] at hends
    have hmem : .req kind ∈ (L.tile t).up := by
      rw [(hv.tile t).up]
      exact mem_filterMap.mpr ⟨p, by rw [← hends]; exact hp, hup⟩
    exact (StageView.not_asked hout (hv.tile t).stage kind).1 (hL.stage_of_req hmem)
  · exfalso
    obtain ⟨hends, m, hdown, hm⟩ := downMsg_of_isRep (h.wf g t p hp) hrep
    obtain ⟨L, hv, hL, -⟩ := h.line p.msg.address
    have hmem : m ∈ (L.tile t).down := by
      rw [(hv.tile t).down]
      exact mem_filterMap.mpr ⟨p, by rw [← hends]; exact hp, hdown⟩
    rcases (hL.stage_of_rep hmem hm).2 with ⟨-, hst⟩ | ⟨-, hst⟩
    · exact (StageView.not_asked hout (hv.tile t).stage .ex).2.2 hst
    · exact (StageView.not_asked hout (hv.tile t).stage .sh).2.2 hst

/-! ### Accesses -/

theorem Line.steps_of_step {latest : Block} (h : Line.Step listed L (L.move t v latest)) :
    ReflTransGen (Line.Step listed) L (L.move t v latest) :=
  ReflTransGen.single h

theorem held_eq_some (h : some (st, data) = v.held) : v.cval = data ∧
      (v.cstate = .shared ∧ st = .shared ∨ v.cstate = .modified ∧ st = .modified) := by
  unfold TileView.held at h
  split at h <;> simp_all

theorem held_eq_none : none = v.held ↔ v.cstate = .invalid := by
  unfold TileView.held
  split <;> simp_all

/-- What an L2 cache holds is the last value written. -/
theorem View.eq_latest {p : Phase} (hv : View cfg listed s p a L) (hL : L.Inv listed)
    (hc : (s.tile t).content (cfg.tile t) a = some (st, data)) : data = L.latest := by
  obtain ⟨hval, hst⟩ := held_eq_some (hc.symm.trans (hv.tile t).held)
  have hne : (L.tile t).cstate ≠ .invalid := by
    rcases hst with ⟨hst, -⟩ | ⟨hst, -⟩ <;> simp [hst]
  rw [← hval]
  exact (hL.cval hne).2

theorem isRep_reqType (op : MemOp) : (reqType op).isRep = false := by
  unfold reqType
  split_ifs <;> rfl

/-- An access of the core of tile `t`, started or tried again. -/
theorem Good.round (h : Good cfg allowed listed ph s mem) {now n : ℕ}
    {r : Tile A × Option (List UInt8) × List (Send A N)}
    (happ : ∀ acc n, (s.tile t).app ≠ .missed acc n)
    (hr : Tile.RoundPost (cfg.tile t) (allowed t) t (s.tile t) acc n modeled now r)
    (hn : r.2.1 = none → n = 1) :
    Good cfg allowed listed ph (s.finish t acc r).1 (Sys.after mem (s.finish t acc r).2) := by
  obtain ⟨x, done, sends⟩ := r
  have hnone (b : A) (stage : Stage) : StageView (s.tile t) b stage ↔ stage = .none :=
    StageView.of_not_missed happ
  have hasks : l1Asks s t = [] := by
    have hask := h.asks t
    unfold AsksFor at hask
    split at hask
    · exact absurd ‹_› (happ _ _)
    · exact hask
  have htime : Timely s t x.outstandingTime := by
    have heq : x.outstandingTime = (s.tile t).outstandingTime := hr.time
    rw [heq]
    exact h.timely t
  cases done with
  | some bytes =>
    obtain ⟨happx, hsends, hdone⟩ := hr.hit bytes rfl
    dsimp only at happx hsends hdone
    subst hsends
    have hidle (acc' : Access A) (n' : ℕ) : x.app ≠ .missed acc' n' := by simp [happx]
    refine h.tileStep .refl hr.inv (by simp [Ready, happx]) (by simp [FromTile]) (by simp) ?_ htime
      (by simp) (by simp) fun b L hv hL hlatest ↦ ?_
    · simp [AsksFor, happx, hasks, Sys.packetsTo]
    obtain ⟨comp, op, a, offset⟩ := acc
    cases op with
    | write bs =>
      obtain ⟨data, hc, hcont⟩ := hdone
      have hmem : Sys.after mem (s.finish t ⟨comp, .write bs, a, offset⟩ (x, some bytes, [])).2
          = update mem a ((mem a).write offset bs) := rfl
      rw [hmem]
      by_cases hb : b = a
      · subst hb
        have hdata := hv.eq_latest hL hc
        obtain ⟨-, hst⟩ := held_eq_some (hc.symm.trans (hv.tile t).held)
        have hm : (L.tile t).cstate = .modified := by simpa using hst
        have hstage : (L.tile t).stage = .none := (hnone b _).mp (hv.tile t).stage
        refine ⟨{ L.tile t with cval := data.write offset bs }, ?_, ?_, (hv.tile t).down, ?_, ?_⟩
        · rw [update_self, ← hlatest, ← hdata]
          exact Line.steps_of_step (.write L t _ hm)
        · rw [hcont b, if_pos rfl]
          simp [TileView.held, hm]
        · rw [(hv.tile t).up]
          simp [upsOf]
        · exact (StageView.of_not_missed hidle).mpr hstage
      · rw [update_of_ne hb, ← hlatest]
        refine ⟨_, .stay hv ?_ rfl rfl fun stage hs ↦ ?_⟩
        · rw [hcont b, if_neg hb]
        · exact (StageView.of_not_missed hidle).mpr ((hnone b stage).mp hs)
    | read k | readEx k =>
      refine ⟨L.tile t, ?_⟩
      change Moves cfg listed s s t x [] b (mem b) L (L.tile t)
      rw [← hlatest]
      refine .stay hv (hdone.1 b) rfl rfl fun stage hs ↦ ?_
      exact (StageView.of_not_missed hidle).mpr ((hnone b stage).mp hs)
  | none =>
    obtain ⟨happx, hcont, ⟨time, hle, hsends⟩, -, hshared⟩ := hr.miss rfl
    dsimp only at happx hcont hsends
    subst hsends
    have houtx : x.outstanding = none := hr.outstanding
    have hup (b : A) : upsOf b [⟨t, ⟨l1Request t acc modeled, time⟩⟩] = [] :=
      upsOf_eq_nil (by simp [l1Request])
    refine h.tileStep .refl hr.inv (by simpa [Ready, happx] using hn rfl)
      (by simp [FromTile, l1Request]) ?_ ?_ htime (by simp [l1Request])
      (by simp [l1Request, isRep_reqType])
      fun b L hv hL hlatest ↦ ?_
    · simp only [mem_singleton, forall_eq]
      refine ⟨?_, rfl, fun _ ↦ rfl⟩
      unfold l1Request reqType
      split_ifs <;> rfl
    · unfold AsksFor
      rw [happx, houtx, hasks]
      exact ⟨modeled, by simp [Sys.packetsTo, filter_cons, Packet.fromL1, l1Request]⟩
    · change ∃ v, Moves cfg listed s s t x _ b (mem b) L v
      rw [← hlatest]
      by_cases hb : acc.address = b
      · subst hb
        have hm := hv.tile t
        have hc : (L.tile t).cstate = .invalid ∨
            kindOf acc.op = .ex ∧ (L.tile t).cstate = .shared := by
          cases hheld : (s.tile t).content (cfg.tile t) acc.address with
          | none => exact .inl (held_eq_none.mp (hheld.symm.trans hm.held))
          | some y =>
            obtain ⟨hex, hsh⟩ := hshared y.1 y.2 hheld
            obtain ⟨-, hst⟩ := held_eq_some (hheld.symm.trans hm.held)
            refine .inr ⟨by simp [kindOf, hex], ?_⟩
            simpa [hsh] using hst
        refine ⟨_, Line.steps_of_step (.ask L t (kindOf acc.op) ((hnone _ _).mp hm.stage) hc), ?_,
          hm.down, ?_, ?_⟩
        · rw [hcont]
          exact hm.held
        · rw [hup, append_nil]
          exact hm.up
        · rw [StageView.of_missed happx, if_pos rfl, houtx]
          rfl
      · refine ⟨_, .stay hv (hcont b) rfl (hup b) fun stage hs ↦ ?_⟩
        rw [StageView.of_missed happx, if_neg hb]
        exact (hnone b stage).mp hs

/-! ### The miss of a tile reaches its L2 cache -/

section Messages

variable {p : Packet A N} {rest : List (Packet A N)} {held : Option (CState × Block)}
  {home : A → Fin N} {comp : L1Kind}

theorem downs_setChan_of_none (hc : s.chan src t = p :: rest) (hp : downMsg a p = none)
    (u : Fin N) : downs cfg (s.setChan src t rest) a u = downs cfg s a u := by
  rw [downs_pop hc a u, hp]
  simp

omit [DecidableEq A] in
theorem l1Asks_pop (hc : s.chan t t = p :: rest) :
    l1Asks s t = (if p.fromL1 then [p.msg] else []) ++ l1Asks (s.setChan t t rest) t := by
  have hrest : (s.setChan t t rest).chan t t = rest := by rw [chan_setChan, if_pos ⟨rfl, rfl⟩]
  unfold l1Asks
  rw [hrest, hc, filter_cons]
  split_ifs <;> rfl

omit [DecidableEq A] in
theorem l1Asks_setChan (hc : s.chan src t = p :: rest) (hp : p.fromL1 = false) :
    l1Asks (s.setChan src t rest) t = l1Asks s t := by
  by_cases hsrc : src = t
  · subst hsrc
    rw [l1Asks_pop hc, hp]
    rfl
  · unfold l1Asks
    rw [chan_setChan, if_neg fun h ↦ hsrc h.1.symm]

omit [DecidableEq A] in
theorem filter_fromL1_packetsTo (h : ∀ y ∈ sends, y.packet.msg.route = .toDirectory) :
    (Sys.packetsTo t sends).filter Packet.fromL1 = [] := by
  refine filter_eq_nil_iff.mpr fun q hq ↦ ?_
  have hroute : q.msg.route = .toDirectory := h ⟨t, q⟩ (mem_packetsTo.mp hq)
  simp [Packet.fromL1, hroute]

omit [DecidableEq A] in
theorem mem_missSends {now : ℕ} {y : Send A N}
    (hy : y ∈ missSends home t held acc modeled now) :
    y = toHome home .invRep t acc.address none modeled now ∨
      y = toHome home (reqType acc.op) t acc.address none modeled now := by
  unfold missSends at hy
  split_ifs at hy <;> simp_all

theorem upsOf_missSends {now : ℕ} :
    upsOf acc.address (missSends home t held acc modeled now) =
      (if held.isSome then [.invRep] else []) ++ [.req (kindOf acc.op)] := by
  have hreq : upMsg acc.address (toHome home (reqType acc.op) t acc.address none modeled
      now).packet = some (.req (kindOf acc.op)) := by
    unfold reqType kindOf upMsg
    split_ifs <;> simp_all [toHome]
  have hinv : upMsg acc.address (toHome home .invRep t acc.address none modeled now).packet
      = some .invRep := by
    simp [upMsg, toHome]
  unfold missSends upsOf
  split_ifs <;> simp [hreq, hinv]

/-- The request of an L1 cache is the miss its tile waits for. -/
theorem Good.ask (h : Good cfg allowed listed ph s mem) (hc : s.chan src t = p :: rest)
    (hroute : p.msg.route = .fromL1 comp) :
    src = t ∧ ∃ acc n modeled, (s.tile t).app = .missed acc n ∧ (s.tile t).outstanding = none ∧
      comp = acc.comp ∧ p.msg = l1Request t acc modeled ∧
      l1Asks (s.setChan src t rest) t = [] := by
  have hends := (h.wf src t p (by simp [hc])).ends
  rw [hroute] at hends
  obtain rfl : src = t := hends
  refine ⟨rfl, ?_⟩
  have hp : p.fromL1 = true := by simp [Packet.fromL1, hroute]
  have hask := h.asks src
  rw [l1Asks_pop hc, hp] at hask
  unfold AsksFor at hask
  split at hask
  · rename_i acc n happ hout
    obtain ⟨modeled, hmsgs⟩ := hask
    obtain ⟨hmsg, hnil⟩ : p.msg = l1Request src acc modeled ∧
        l1Asks (s.setChan src src rest) src = [] := by simpa using hmsgs
    refine ⟨acc, n, modeled, happ, hout, ?_, hmsg, hnil⟩
    rw [hmsg] at hroute
    simpa [l1Request] using hroute.symm
  · simp at hask

/-- The line of a miss that reaches the L2 cache. -/
theorem Line.steps_request {kind : ReqKind} (hs : (L.tile t).stage = .asking kind)
    (hc : (L.tile t).cstate = .invalid ∨ kind = .ex ∧ (L.tile t).cstate = .shared) :
    ReflTransGen (Line.Step listed) L (L.move t
      { L.tile t with
        cstate := .invalid, stage := .requested kind
        up := (L.tile t).up ++ ((if (L.tile t).held.isSome then [.invRep] else []) ++
          [.req kind]) } L.latest) := by
  rcases hc with hc | ⟨rfl, hc⟩
  · have hstep : Line.Step listed L _ := .request L t kind hs hc
    have hheld : (L.tile t).held = none := (held_eq_none.mpr hc).symm
    rw [hheld, ← hc]
    exact .single hstep
  · have hdrop : Line.Step listed L _ := .drop L t hs hc
    have hreq : Line.Step listed _ _ := .request
      (L.setTile t { L.tile t with cstate := .invalid, up := (L.tile t).up ++ [.invRep] }) t .ex
      (by simpa using hs) (by simp)
    refine (ReflTransGen.single hdrop).tail ?_
    have hheld : (L.tile t).held.isSome = true := by simp [TileView.held, hc]
    simpa [Line.setTile, Line.move, hheld] using hreq

theorem Good.handleMsgFromL1Cache (h : Good cfg allowed listed ph s mem) (hph : ∀ b, ph b ≠ .done)
    (hc : s.chan src t = p :: rest) (hroute : p.msg.route = .fromL1 comp) (now : ℕ) :
    Outcome ((s.tile t).handleMsgFromL1Cache (cfg.tile t) cfg.home t comp p.msg now)
      (fun r ↦ Good cfg allowed listed ph (((s.setChan src t rest).setTile t r.1).post t r.2) mem)
      fun _ ↦ False := by
  obtain ⟨rfl, acc, n, modeled, happ, hout, rfl, hmsg, hnil⟩ := h.ask hc hroute
  rw [hmsg]
  refine ((h.tile src).handleMsgFromL1Cache happ hout).imp ?_
  rintro ⟨x, sends⟩ ⟨hreq, rfl⟩
  have happx : x.app = .missed acc n := hreq.app.trans happ
  have hroute' : p.msg.route ≠ .toDirectory := by simp [hroute]
  have hdownp (b : A) : downMsg b p = none := downMsg_eq_none (.inl (by simp [hroute]))
  have hsends (y : Send A N) (hy : y ∈ missSends cfg.home src
      ((s.tile src).content (cfg.tile src) acc.address) acc modeled now) :
      y.packet.msg.route = .toDirectory ∧ y.receiver = cfg.home acc.address ∧
        y.packet.msg.address = acc.address ∧ y.packet.time = now := by
    rcases mem_missSends hy with rfl | rfl <;> simp [toHome]
  refine h.tileStep (.setChan hc hroute') hreq.inv ?_ (fun y hy ↦ ?_) (fun y hy ↦ ?_) ?_
    (h.timely_of_not_asked hph hout _) (fun y hy _ _ ↦ ?_) (fun y hy ↦ ?_)
    fun b L hv hL hlatest ↦ ?_
  · have hr := h.ready src
    unfold Ready at hr ⊢
    rw [happ] at hr
    rw [happx]
    exact hr
  · obtain ⟨h₁, h₂, h₃, -⟩ := hsends y hy
    exact ⟨by simp [h₁], fun _ ↦ by rw [h₂, h₃]⟩
  · rcases mem_missSends hy with rfl | rfl
    · exact ⟨rfl, rfl, by simp [toHome]⟩
    · refine ⟨?_, rfl, fun _ ↦ rfl⟩
      unfold toHome reqType
      split_ifs <;> rfl
  · rw [filter_fromL1_packetsTo fun y hy ↦ (hsends y hy).1, hnil]
    unfold AsksFor
    rw [happx, hreq.outstanding]
    rfl
  · rw [hreq.time, (hsends y hy).2.2.2]
  · rcases mem_missSends hy with rfl | rfl
    · rfl
    · exact isRep_reqType acc.op
  · rw [← hlatest]
    have hm := hv.tile src
    by_cases hb : acc.address = b
    · subst hb
      have hstage := hm.stage
      rw [StageView.of_missed happ, if_pos rfl, hout] at hstage
      have hcst : (L.tile src).cstate = .invalid ∨
          kindOf acc.op = .ex ∧ (L.tile src).cstate = .shared := by
        cases hheld : (s.tile src).content (cfg.tile src) acc.address with
        | none => exact .inl (held_eq_none.mp (hheld.symm.trans hm.held))
        | some y =>
          obtain ⟨hex, hsh⟩ := ((h.tile src).missed acc n happ).asking hout y.1 y.2 hheld
          obtain ⟨-, hst⟩ := held_eq_some (hheld.symm.trans hm.held)
          refine .inr ⟨by simp [kindOf, hex], ?_⟩
          simpa [hsh] using hst
      refine ⟨_, Line.steps_request hstage hcst, ?_, ?_, ?_, ?_⟩
      · rw [hreq.content, if_pos rfl]
        rfl
      · rw [downs_setChan_of_none hc (hdownp _)]
        exact hm.down
      · rw [upsOf_missSends, ← hm.held, ← hm.up]
      · rw [StageView.of_missed happx, if_pos rfl, hreq.outstanding]
        exact .inl rfl
    · refine ⟨_, .stay hv ?_ ?_ ?_ fun stage hs ↦ ?_⟩
      · rw [hreq.content, if_neg (Ne.symm hb)]
      · rw [downs_setChan_of_none hc (hdownp _)]
      · refine upsOf_eq_nil fun y hy ↦ .inr ?_
        rw [(hsends y hy).2.2.1]
        exact hb
      · rw [StageView.of_missed happ, if_neg hb] at hs
        rw [StageView.of_missed happx, if_neg hb]
        exact hs

end Messages

end CarbonSim.Msi
