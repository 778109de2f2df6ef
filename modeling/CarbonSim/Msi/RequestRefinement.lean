import CarbonSim.Msi.TileRefinement

/-!
# Messages from the directory

An L2 cache that handles a message of the directory takes steps of the lines concerned: the line of
the message and, if a reply makes it evict another line, that one.
-/

namespace CarbonSim.Msi

open Tile

open Relation (ReflTransGen)

variable {A : Type} [DecidableEq A] {N : ℕ} {cfg : Config A N} {allowed : Fin N → A → L1Kind → Prop}
  {listed : Prop} {ph : A → Phase} {s s₀ : Sys A N} {mem mem' : A → Block} {t src : Fin N}
  {x : Tile A} {sends : List (Send A N)} {a : A} {L : Line N Block} {p : Packet A N}
  {rest : List (Packet A N)} {evicted : Option (A × CState × Block)} {now : ℕ} {m : DownMsg Block}
  {q : Phase} {modeled : Bool} {y : Option (CState × Block)} {cstate : CState}

/-- A message from the directory leaves the channel of its line. -/
theorem downs_fromDirectory (h : p.msg.WF cfg.home src t) (hc : s.chan src t = p :: rest)
    (hroute : p.msg.route = .fromDirectory) (hm : downMsg p.msg.address p = some m) :
    downs cfg s p.msg.address t = m :: downs cfg (s.setChan src t rest) p.msg.address t := by
  have hends := h.ends
  rw [hroute] at hends
  rw [downs_pop hc, hm, if_pos ⟨hends.symm, rfl⟩]
  rfl

omit [DecidableEq A] in
theorem Ready.congr [DecidableEq A] {tcfg : TileConfig A} {y : Tile A} (h : Ready tcfg x)
    (happ : y.app = x.app) (hno : ∀ acc n, x.app ≠ .filled acc n) : Ready tcfg y := by
  unfold Ready at h ⊢
  rw [happ]
  cases hx : x.app with
  | idle => trivial
  | missed acc n =>
    rw [hx] at h
    exact h
  | filled acc n => exact absurd hx (hno acc n)

/-- The type and data of an answer to the directory. -/
def IsAnswer (type : MsgType) (data : Option Block) : Prop :=
  type = .invRep ∧ data = none ∨ (type = .flushRep ∨ type = .wbRep) ∧ data.isSome

/-- A request of the directory for a line that the tile does not hold. -/
theorem Moves.ignore (hv : View cfg listed s q a L) (hm : m = .invReq ∨ m = .flushReq ∨ m = .wbReq)
    (hd : downs cfg s a t = m :: downs cfg s₀ a t)
    (hnone : (s.tile t).content (cfg.tile t) a = none)
    (hs : Tile.Served (cfg.tile t) (allowed t) (s.tile t) a none x) :
    ∃ v, Moves cfg listed s s₀ t x [] a L.latest L v := by
  have hmatch := hv.tile t
  have hc := held_eq_none.mp (hnone.symm.trans hmatch.held)
  refine ⟨_, Line.steps_of_step (.ignore L t m _ hm (hmatch.down.trans hd) hc), ?_, rfl, ?_,
    hmatch.stage.congr hs.app hs.outstanding⟩
  · rw [hs.content, if_pos rfl]
    exact held_eq_none.mpr hc
  · rw [hmatch.up]
    simp [upsOf]

/-- The copy of a tile is changed by a request of the directory, and the answer is sent. -/
theorem Moves.answer (hv : View cfg listed s q a L)
    (hs : Tile.Served (cfg.tile t) (allowed t) (s.tile t) a y x)
    {cstate : LineCState} {m : UpMsg Block}
    (hstep : Line.Step listed L (L.setTile t { L.tile t with
      cstate := cstate, down := downs cfg s₀ a t, up := (L.tile t).up ++ [m] }))
    (hy : y = TileView.held { L.tile t with cstate := cstate }) (hup : upsOf a sends = [m]) :
    ∃ v, Moves cfg listed s s₀ t x sends a L.latest L v := by
  have hmatch := hv.tile t
  refine ⟨_, Line.steps_of_step hstep, ?_, rfl, ?_, hmatch.stage.congr hs.app hs.outstanding⟩
  · rw [hs.content, if_pos rfl, hy]
    rfl
  · rw [hup, ← hmatch.up]

theorem upsOf_replyTo {type : MsgType} {data : Option Block} {time : ℕ} {m : ShmemMsg A N}
    {u : UpMsg Block} (hu : upMsg m.address (replyTo src type m data time).packet = some u) :
    upsOf m.address [replyTo src type m data time] = [u] := by
  simp [upsOf, hu]

omit [DecidableEq A] in
theorem mem_evictionNotice {home : A → Fin N} {z : Send A N}
    (hz : z ∈ evictionNotice home t modeled now evicted) :
    ∃ b st data, evicted = some (b, st, data) ∧
      (st = .modified ∧ z = toHome home .flushRep t b (some data) modeled now ∨
        z = toHome home .invRep t b none modeled now) := by
  unfold evictionNotice at hz
  split at hz <;> simp_all

theorem eq_some_of_any (h : evicted.any fun y ↦ y.1 = a) :
    ∃ st data, evicted = some (a, st, data) := by
  cases evicted with
  | none => simp at h
  | some y =>
    obtain ⟨b, st, data⟩ := y
    obtain rfl : b = a := by simpa using h
    exact ⟨st, data, rfl⟩

/-- The line that a fill evicts. -/
theorem Moves.evict {st : CState} {data : Block} (hv : View cfg listed s q a L)
    (hc : (s.tile t).content (cfg.tile t) a = some (st, data))
    (hx : x.content (cfg.tile t) a = none) (hd : downs cfg s₀ a t = downs cfg s a t)
    (hsx : StageView x a .none) (hnone : ∀ stage, StageView (s.tile t) a stage → stage = .none) :
    ∃ v, Moves cfg listed s s₀ t x
      (evictionNotice cfg.home t modeled now (some (a, st, data))) a L.latest L v := by
  have hmatch := hv.tile t
  have hstage := hnone _ hmatch.stage
  obtain ⟨hval, hst⟩ := held_eq_some (hc.symm.trans hmatch.held)
  rcases hst with ⟨hst, rfl⟩ | ⟨hst, rfl⟩
  · refine ⟨_, Line.steps_of_step (.evictClean L t hstage hst), hx, hmatch.down.trans hd.symm, ?_, ?_⟩
    · rw [← hmatch.up]
      simp [evictionNotice, upsOf, upMsg, toHome]
    · rw [hstage]
      exact hsx
  · refine ⟨_, Line.steps_of_step (.evictDirty L t hstage hst), hx, hmatch.down.trans hd.symm, ?_, ?_⟩
    · rw [← hmatch.up]
      simp [evictionNotice, upsOf, upMsg, toHome, hval]
    · rw [hstage]
      exact hsx

/-- The access that has missed may use the line that the reply brings. -/
theorem permissible_of_kind {op : MemOp}
    (h : kindOf op = .ex ∧ cstate = .modified ∨ kindOf op = .sh ∧ cstate = .shared) :
    op.permissible cstate = true := by
  unfold kindOf at h
  by_cases hex : op.exclusive = true <;>
    simp_all [MemOp.permissible, CState.readable, CState.writable]

/-- A reply finds the tile waiting for it. -/
theorem View.waiting (hv : View cfg listed s q a L) (hL : L.Inv listed)
    (hinv : (s.tile t).Inv (cfg.tile t) (allowed t)) (hm : m ∈ downs cfg s a t) (hrep : ¬ m.IsReq) :
    ∃ acc n, (s.tile t).app = .missed acc n ∧ acc.address = a ∧
      (s.tile t).outstanding = some (acc.address, acc.comp) ∧
      ((∃ y, m = .exRep y) ∧ kindOf acc.op = .ex ∨ (∃ y, m = .shRep y) ∧ kindOf acc.op = .sh) := by
  have hmatch := hv.tile t
  obtain ⟨-, hst⟩ := hL.stage_of_rep (hmatch.down ▸ hm) hrep
  have hstage := hmatch.stage
  have hgranted : ∃ kind, (L.tile t).stage = .granted kind := by
    rcases hst with ⟨-, hst⟩ | ⟨-, hst⟩ <;> exact ⟨_, hst⟩
  obtain ⟨kind, hgr⟩ := hgranted
  cases happ : (s.tile t).app with
  | idle | filled acc n =>
    rw [StageView.of_not_missed (by simp [happ]), hgr] at hstage
    simp at hstage
  | missed acc n =>
    rw [StageView.of_missed happ] at hstage
    split_ifs at hstage with ha ho
    · simp [hgr] at hstage
    · obtain ⟨y, hy⟩ := Option.ne_none_iff_exists'.mp (by simpa using ho)
      refine ⟨acc, n, rfl, ha, ?_, ?_⟩
      · rw [hy, ((hinv.missed acc n happ).waiting y hy).1]
      · rcases hst with ⟨hm, hst⟩ | ⟨hm, hst⟩
        · exact .inl ⟨hm, by simpa [hst, eq_comm] using hstage⟩
        · exact .inr ⟨hm, by simpa [hst, eq_comm] using hstage⟩
    · simp [hgr] at hstage

/-! ### Replies of the directory -/

section

variable (h : Good cfg allowed listed ph s mem) (hc : s.chan src t = p :: rest)
  (hroute : p.msg.route = .fromDirectory)

include h hc hroute

/-- A reply fills the line of the miss. -/
theorem Good.filled {acc : Access A} {n now : ℕ} {line : L1Line}
    (haddr : p.msg.address = acc.address)
    (hfill : Tile.FillPost (cfg.tile t) (allowed t) (s.tile t) acc n line evicted x)
    (hkind : kindOf acc.op = .ex ∧ line.cstate = .modified ∨
      kindOf acc.op = .sh ∧ line.cstate = .shared)
    (hline : ∀ L, View cfg listed s (ph acc.address) acc.address L → L.Inv listed →
      ∃ v, Moves cfg listed s (s.setChan src t rest) t x [] acc.address L.latest L v) :
    Good cfg allowed listed ph (((s.setChan src t rest).setTile t x).post t
      (evictionNotice cfg.home t modeled now evicted)) mem := by
  have hmem (z : Send A N) (hz : z ∈ evictionNotice cfg.home t modeled now evicted) :
      z.packet.msg.route = .toDirectory ∧ z.receiver = cfg.home z.packet.msg.address ∧
        z.packet.msg.type.isReq = false ∧ z.packet.msg.type.isRep = false ∧
        evicted.any fun y ↦ y.1 = z.packet.msg.address := by
    obtain ⟨b, st, data, rfl, ⟨-, rfl⟩ | rfl⟩ := mem_evictionNotice hz <;>
      exact ⟨rfl, rfl, rfl, rfl, by simp [toHome]⟩
  have hno (acc' : Access A) (n' : ℕ) : x.app ≠ .missed acc' n' := by simp [hfill.app']
  refine h.tileStep (.setChan hc (by simp [hroute])) hfill.inv ?_ (fun z hz ↦ ?_) (fun z hz ↦ ?_) ?_ ?_
    (fun z hz hreq ↦ ?_) (fun z hz ↦ (hmem z hz).2.2.2.1) fun b L hv hL hlatest ↦ ?_
  · have hr := h.ready t
    unfold Ready at hr ⊢
    rw [hfill.app] at hr
    rw [hfill.app']
    refine ⟨hr, ?_⟩
    have hst : x.l1State (cfg.tile t) acc.comp acc.address = line.cstate := by
      simp [l1State, hfill.l1Line]
    rw [hst]
    exact permissible_of_kind hkind
  · exact ⟨by simp [(hmem z hz).1], fun _ ↦ (hmem z hz).2.1⟩
  · obtain ⟨b, st, data, rfl, ⟨-, rfl⟩ | rfl⟩ := mem_evictionNotice hz
    all_goals exact ⟨rfl, rfl, by simp [toHome]⟩
  · rw [filter_fromL1_packetsTo fun z hz ↦ (hmem z hz).1,
      l1Asks_setChan hc (by simp [Packet.fromL1, hroute]), List.map_nil, List.append_nil]
    have hask := h.asks t
    unfold AsksFor at hask ⊢
    rw [hfill.app, hfill.outstanding] at hask
    rw [hfill.app']
    exact hask
  · rw [hfill.time]
    exact h.timely t
  · simp [(hmem z hz).2.2.1] at hreq
  · rw [← hlatest]
    have hup (hb : ¬ evicted.any fun y ↦ y.1 = b) :
        upsOf b (evictionNotice cfg.home t modeled now evicted) = [] := by
      refine upsOf_eq_nil fun z hz ↦ .inr fun hzb ↦ hb ?_
      rw [← hzb]
      exact (hmem z hz).2.2.2.2
    by_cases hb : b = acc.address
    · subst hb
      obtain ⟨v, hmove⟩ := hline L hv hL
      have hne : ¬ evicted.any fun y ↦ y.1 = acc.address := by
        intro hev
        obtain ⟨st, data, rfl⟩ := eq_some_of_any hev
        exact (hfill.held _ st data rfl).1 rfl
      refine ⟨v, hmove.steps, hmove.held, hmove.down, ?_, hmove.stage⟩
      rw [hup hne, hmove.up]
      rfl
    · have hd : downs cfg (s.setChan src t rest) b t = downs cfg s b t :=
        downs_setChan_of_none hc (downMsg_eq_none (.inr (by rw [haddr]; exact Ne.symm hb))) t
      have hnone (stage : Stage) (hs : StageView (s.tile t) b stage) : stage = .none := by
        rw [StageView.of_missed hfill.app, if_neg (Ne.symm hb)] at hs
        exact hs
      by_cases hev : evicted.any fun y ↦ y.1 = b
      · obtain ⟨st, data, rfl⟩ := eq_some_of_any hev
        refine Moves.evict hv (hfill.held b st data rfl).2 ?_ hd ?_ hnone
        · rw [hfill.content, if_neg hb, if_pos hev]
        · exact (StageView.of_not_missed hno).mpr rfl
      · refine ⟨_, .stay hv ?_ hd (hup hev) fun stage hs ↦ ?_⟩
        · rw [hfill.content, if_neg hb, if_neg hev]
        · exact (StageView.of_not_missed hno).mpr (hnone stage hs)

/-- The faults of a reply that finds the tile waiting for it. -/
theorem Good.repFault (hrep : p.msg.type.isRep = true) (hnow : p.time ≤ now) {e : Fault}
    (he : Tile.RepFault (allowed t) (s.tile t) p.msg now e) :
    e = .clearCachedLoc ∧ ¬ Pure (allowed t) := by
  have hp : p ∈ s.chan src t := by simp [hc]
  have hwf := h.wf src t p hp
  rcases he with ⟨rfl, hdata⟩ | ⟨rfl, hno⟩ | he | ⟨rfl, htime⟩
  · have hshape := hwf.shape
    cases ht : p.msg.type <;> simp_all [MsgType.isRep]
  · obtain ⟨hends, m, hdown, hm⟩ := downMsg_of_isRep hwf hrep
    obtain ⟨L, hv, hL, -⟩ := h.line p.msg.address
    have hmem : m ∈ downs cfg s p.msg.address t :=
      List.mem_filterMap.mpr ⟨p, by rw [← hends]; exact hp, hdown⟩
    obtain ⟨acc, n, -, ha, hout, -⟩ := hv.waiting hL (h.tile t) hmem hm
    exact absurd (ha ▸ hout) (hno acc.comp)
  · exact he
  · have hle := (h.timely t).reply src p hp hrep
    omega

/-- An EX_REP or SH_REP reaches the tile. -/
theorem Good.processRep
    (htype : p.msg.type = .exRep ∧ cstate = .modified ∨ p.msg.type = .shRep ∧ cstate = .shared)
    {l1Way : L1Kind → ℕ} {l2Way : ℕ} (hway₁ : ∀ c, l1Way c ∈ ((cfg.tile t).l1 c).scan)
    (hway₂ : l2Way ∈ (cfg.tile t).l2.scan) (hnow : p.time ≤ now) (modeled : Bool) :
    Outcome ((s.tile t).processRepFromDramDirectory (cfg.tile t) cfg.home t l1Way l2Way p.msg cstate
        modeled now)
      (fun r ↦ Good cfg allowed listed ph (((s.setChan src t rest).setTile t r.1).post t r.2) mem)
      fun e ↦ e = .clearCachedLoc ∧ ¬ Pure (allowed t) := by
  have hp : p ∈ s.chan src t := by simp [hc]
  have hwf := h.wf src t p hp
  have hrep : p.msg.type.isRep = true := by
    rcases htype with ⟨ht, -⟩ | ⟨ht, -⟩ <;> simp [ht, MsgType.isRep]
  have hst : cstate = .shared ∨ cstate = .modified := by
    rcases htype with ⟨-, hs⟩ | ⟨-, hs⟩
    · exact .inr hs
    · exact .inl hs
  refine ((h.tile t).processRepFromDramDirectory hway₁ hway₂ hst).mono ?_
    fun e he ↦ h.repFault hc hroute hrep hnow he
  rintro ⟨x, sends⟩ ⟨acc, n, data, evicted, haddr, hdata, hfill, rfl⟩
  dsimp only at hfill ⊢
  have hno (acc' : Access A) (n' : ℕ) : x.app ≠ .missed acc' n' := by simp [hfill.app']
  have hmsg : downMsg p.msg.address p = some (if cstate = .modified then .exRep data else .shRep data) := by
    unfold downMsg
    rw [if_pos ⟨hroute, rfl⟩]
    rcases htype with ⟨ht, rfl⟩ | ⟨ht, rfl⟩ <;> simp [ht, hdata]
  have hd := downs_fromDirectory hwf hc hroute hmsg
  refine h.filled hc hroute haddr hfill ?_ fun L hv hL ↦ ?_
  · obtain ⟨L, hv, hL, -⟩ := h.line p.msg.address
    obtain ⟨acc', n', happ, -, -, hkind⟩ := hv.waiting hL (h.tile t)
      (m := if cstate = .modified then .exRep data else .shRep data) (by rw [hd]; simp)
      (by split_ifs <;> exact id)
    obtain ⟨rfl, -⟩ : acc = acc' ∧ n = n' := by simpa [hfill.app] using happ
    rcases htype with ⟨-, rfl⟩ | ⟨-, rfl⟩
    · exact .inl ⟨by simpa using hkind, rfl⟩
    · exact .inr ⟨by simpa using hkind, rfl⟩
  · rw [haddr] at hd
    have hmatch := hv.tile t
    rcases htype with ⟨-, rfl⟩ | ⟨-, rfl⟩
    · refine ⟨_, Line.steps_of_step (.fillEx L t data _ (hmatch.down.trans hd)), ?_, rfl, ?_, ?_⟩
      · rw [hfill.content, if_pos rfl]
        rfl
      · rw [hmatch.up]
        simp [upsOf]
      · exact (StageView.of_not_missed hno).mpr rfl
    · refine ⟨_, Line.steps_of_step (.fillSh L t data _ (hmatch.down.trans hd)), ?_, rfl, ?_, ?_⟩
      · rw [hfill.content, if_pos rfl]
        rfl
      · rw [hmatch.up]
        simp [upsOf]
      · exact (StageView.of_not_missed hno).mpr rfl

/-! ### Requests of the directory -/

variable (hready : ∀ acc n, (s.tile t).app ≠ .filled acc n)

include hready

/-- A request of the directory that changes at most the line it is about. -/
theorem Good.served (hs : Tile.Served (cfg.tile t) (allowed t) (s.tile t) p.msg.address y x)
    (hsends : ∀ z ∈ sends, ∃ type data time, IsAnswer type data ∧
      z = replyTo src type p.msg data time)
    (hline : ∀ L, View cfg listed s (ph p.msg.address) p.msg.address L → L.Inv listed →
      ∃ v, Moves cfg listed s (s.setChan src t rest) t x sends p.msg.address L.latest L v) :
    Good cfg allowed listed ph (((s.setChan src t rest).setTile t x).post t sends) mem := by
  have hwf := h.wf src t p (by simp [hc])
  have hends := hwf.ends
  rw [hroute] at hends
  have hfrom (z : Send A N) (hz : z ∈ sends) : z.packet.msg.route = .toDirectory ∧
      z.receiver = cfg.home p.msg.address ∧ z.packet.msg.address = p.msg.address := by
    obtain ⟨type, data, time, -, rfl⟩ := hsends z hz
    exact ⟨rfl, hends, rfl⟩
  have htype (z : Send A N) (hz : z ∈ sends) : z.packet.msg.type.isReq = false ∧
      z.packet.msg.type.isRep = false := by
    obtain ⟨type, data, time, ⟨rfl, -⟩ | ⟨rfl | rfl, -⟩, rfl⟩ := hsends z hz <;> exact ⟨rfl, rfl⟩
  refine h.tileStep (.setChan hc (by simp [hroute])) hs.inv
    ((h.ready t).congr hs.app hready) (fun z hz ↦ ?_) (fun z hz ↦ ?_) ?_ ?_
    (fun z hz hreq ↦ ?_) (fun z hz ↦ (htype z hz).2) fun b L hv hL hlatest ↦ ?_
  · obtain ⟨h₁, h₂, h₃⟩ := hfrom z hz
    exact ⟨by simp [h₁], fun _ ↦ by rw [h₂, h₃]⟩
  · obtain ⟨type, data, time, hans, rfl⟩ := hsends z hz
    refine ⟨?_, hends, ?_⟩
    · rcases hans with ⟨rfl, rfl⟩ | ⟨rfl | rfl, hdata⟩
      · rfl
      · exact hdata
      · exact hdata
    · rcases hans with ⟨rfl, -⟩ | ⟨rfl | rfl, -⟩ <;> simp [replyTo]
  · rw [filter_fromL1_packetsTo fun z hz ↦ (hfrom z hz).1,
      l1Asks_setChan hc (by simp [Packet.fromL1, hroute]), List.map_nil, List.append_nil]
    have hask := h.asks t
    unfold AsksFor at hask ⊢
    rwa [hs.app, hs.outstanding]
  · rw [hs.time]
    exact h.timely t
  · simp [(htype z hz).1] at hreq
  · rw [← hlatest]
    by_cases hb : b = p.msg.address
    · subst hb
      exact hline L hv hL
    · refine ⟨_, .stay hv ?_ ?_ ?_ fun stage hst ↦ hst.congr hs.app hs.outstanding⟩
      · rw [hs.content, if_neg hb]
      · exact downs_setChan_of_none hc (downMsg_eq_none (.inr (Ne.symm hb))) t
      · refine upsOf_eq_nil fun z hz ↦ .inr ?_
        rw [(hfrom z hz).2.2]
        exact .symm hb

theorem Good.processInvReq (htype : p.msg.type = .invReq) (now : ℕ) :
    Outcome ((s.tile t).processInvReqFromDramDirectory (cfg.tile t) src p.msg now)
      (fun r ↦ Good cfg allowed listed ph (((s.setChan src t rest).setTile t r.1).post t r.2) mem)
      fun _ ↦ False := by
  have hd := downs_fromDirectory (h.wf src t p (by simp [hc])) hc hroute
    (m := .invReq) (by simp [downMsg, hroute, htype])
  refine (h.tile t).processInvReqFromDramDirectory.mono ?_ ?_
  · rintro ⟨x, sends⟩ ⟨hs, ⟨hnone, hsends⟩ | ⟨d, time, -, hc', hsends⟩⟩ <;> dsimp only at hs hsends <;>
      subst hsends
    · exact h.served hc hroute hready hs (by simp) fun L hv hL ↦
        Moves.ignore hv (.inl rfl) hd hnone hs
    · refine h.served hc hroute hready hs ?_ fun L hv hL ↦ ?_
      · simp only [List.mem_singleton, forall_eq]
        exact ⟨_, _, _, .inl ⟨rfl, rfl⟩, rfl⟩
      · have hst : (L.tile t).cstate = .shared := by
          simpa using (held_eq_some (hc'.symm.trans (hv.tile t).held)).2
        exact Moves.answer hv hs (.invalidate L t _ ((hv.tile t).down.trans hd) hst) rfl
          (upsOf_replyTo (by simp [upMsg, replyTo]))
  · rintro e ⟨-, st, d, hc', hne⟩
    obtain ⟨L, hv, hL, -⟩ := h.line p.msg.address
    have hmod := hL.not_modified_of_invReq ((hv.tile t).down.trans hd)
    have hst := (held_eq_some (hc'.symm.trans (hv.tile t).held)).2
    simp [hne, hmod] at hst

theorem Good.processFlushReq (htype : p.msg.type = .flushReq) (now : ℕ) :
    Outcome ((s.tile t).processFlushReqFromDramDirectory (cfg.tile t) src p.msg now)
      (fun r ↦ Good cfg allowed listed ph (((s.setChan src t rest).setTile t r.1).post t r.2) mem)
      fun _ ↦ False := by
  have hd := downs_fromDirectory (h.wf src t p (by simp [hc])) hc hroute
    (m := .flushReq) (by simp [downMsg, hroute, htype])
  refine (h.tile t).processFlushReqFromDramDirectory.mono ?_ ?_
  · rintro ⟨x, sends⟩ ⟨hs, ⟨hnone, hsends⟩ | ⟨d, time, -, hc', hsends⟩⟩ <;> dsimp only at hs hsends <;>
      subst hsends
    · exact h.served hc hroute hready hs (by simp) fun L hv hL ↦
        Moves.ignore hv (.inr (.inl rfl)) hd hnone hs
    · refine h.served hc hroute hready hs ?_ fun L hv hL ↦ ?_
      · simp only [List.mem_singleton, forall_eq]
        exact ⟨_, _, _, .inr ⟨.inl rfl, rfl⟩, rfl⟩
      · obtain ⟨hval, hst⟩ := held_eq_some (hc'.symm.trans (hv.tile t).held)
        have hst : (L.tile t).cstate = .modified := by simpa using hst
        exact Moves.answer hv hs (.flush L t _ ((hv.tile t).down.trans hd) hst) rfl
          (upsOf_replyTo (by simp [upMsg, replyTo, hval]))
  · rintro e ⟨-, st, d, hc', hne⟩
    obtain ⟨L, hv, hL, -⟩ := h.line p.msg.address
    have hsh := hL.not_shared_of_ownerMsg (.inl rfl) ((hv.tile t).down.trans hd)
    have hst := (held_eq_some (hc'.symm.trans (hv.tile t).held)).2
    simp [hne, hsh] at hst

theorem Good.processWbReq (htype : p.msg.type = .wbReq) (now : ℕ) :
    Outcome ((s.tile t).processWbReqFromDramDirectory (cfg.tile t) src p.msg now)
      (fun r ↦ Good cfg allowed listed ph (((s.setChan src t rest).setTile t r.1).post t r.2) mem)
      fun e ↦ e = .cacheState ∧ ¬ Pure (allowed t) := by
  have hd := downs_fromDirectory (h.wf src t p (by simp [hc])) hc hroute
    (m := .wbReq) (by simp [downMsg, hroute, htype])
  refine (h.tile t).processWbReqFromDramDirectory.mono ?_ ?_
  · rintro ⟨x, sends⟩ (⟨hs, hnone, hsends⟩ | ⟨d, time, -, hc', hs, hsends⟩) <;>
      dsimp only at hs hsends <;> subst hsends
    · exact h.served hc hroute hready hs (by simp) fun L hv hL ↦
        Moves.ignore hv (.inr (.inr rfl)) hd hnone hs
    · refine h.served hc hroute hready hs ?_ fun L hv hL ↦ ?_
      · simp only [List.mem_singleton, forall_eq]
        exact ⟨_, _, _, .inr ⟨.inr rfl, rfl⟩, rfl⟩
      · obtain ⟨hval, hst⟩ := held_eq_some (hc'.symm.trans (hv.tile t).held)
        have hst : (L.tile t).cstate = .modified := by simpa using hst
        exact Moves.answer hv hs (.writeBack L t _ ((hv.tile t).down.trans hd) hst)
          (by simp [TileView.held, hval])
          (upsOf_replyTo (by simp [upMsg, replyTo, hval]))
  · rintro e ⟨rfl, ⟨st, d, hc', hne⟩ | hp⟩
    · obtain ⟨L, hv, hL, -⟩ := h.line p.msg.address
      have hsh := hL.not_shared_of_ownerMsg (.inr rfl) ((hv.tile t).down.trans hd)
      have hst := (held_eq_some (hc'.symm.trans (hv.tile t).held)).2
      simp [hne, hsh] at hst
    · exact ⟨rfl, hp⟩

/-- An L2 cache handles a message from the directory. -/
theorem Good.handleMsgFromDramDirectory {env : Env A} (henv : env.Valid (cfg.tile t))
    (hnow : p.time ≤ now) (modeled : Bool) :
    Outcome ((s.tile t).handleMsgFromDramDirectory (cfg.tile t) cfg.home t env.l1Way env.l2Way src
        p.msg modeled now)
      (fun r ↦ Good cfg allowed listed ph (((s.setChan src t rest).setTile t r.1).post t r.2) mem)
      fun e ↦ (e = .clearCachedLoc ∨ e = .cacheState) ∧ ¬ Pure (allowed t) := by
  have hshape := (h.wf src t p (by simp [hc])).shape
  rw [hroute] at hshape
  unfold Tile.handleMsgFromDramDirectory
  cases ht : p.msg.type with
  | exRep =>
    exact (h.processRep hc hroute (.inl ⟨ht, rfl⟩) henv.l1Way henv.l2Way hnow modeled).mono_fault
      fun e he ↦ ⟨.inl he.1, he.2⟩
  | shRep =>
    exact (h.processRep hc hroute (.inr ⟨ht, rfl⟩) henv.l1Way henv.l2Way hnow modeled).mono_fault
      fun e he ↦ ⟨.inl he.1, he.2⟩
  | invReq =>
    exact (h.processInvReq hc hroute hready ht now).mono_fault fun _ hf ↦ hf.elim
  | flushReq =>
    exact (h.processFlushReq hc hroute hready ht now).mono_fault fun _ hf ↦ hf.elim
  | wbReq =>
    exact (h.processWbReq hc hroute hready ht now).mono_fault fun e he ↦ ⟨.inr he.1, he.2⟩
  | _ => simp [ht] at hshape

end

end CarbonSim.Msi
