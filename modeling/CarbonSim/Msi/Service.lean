import CarbonSim.Msi.DirectoryLog
import CarbonSim.Msi.ProtocolErrors
import Mathlib.Tactic.FinCases

/-!
# Requests are served

Along a run the messages between two tiles are conserved, and the requests for a line that have
reached its home are those it has answered, in order, and those in the queue. If no message is in
flight nothing waits, since a request that waits has asked somebody for the line. This last part
needs the directory to know whom to ask.
-/

namespace CarbonSim.Msi

open Directory List Function

variable {A : Type} {N : ℕ} {cfg : Config A N} {allowed : Fin N → A → L1Kind → Prop}
  {listed : Prop} {s s' : Sys A N} {mem : A → Block} {env : Env A} {act : Action A N}
  {o : Obs A N} {trace : List (Obs A N)} {sends : List (Send A N)} {mem' : A → Block}
  {src dst : Fin N}

/-- The messages that tile `u` sends to tile `v` in a step. -/
def Obs.sentOn (u v : Fin N) (o : Obs A N) : List (ShmemMsg A N) :=
  (o.sent.filter fun x ↦ x.1 = u ∧ x.2.receiver = v).map fun x ↦ x.2.packet.msg

/-- The message of tile `u` that tile `v` handles in a step. -/
def Obs.deliveredOn (u v : Fin N) (o : Obs A N) : List (ShmemMsg A N) :=
  match o.delivered with
  | some (src, dst, m) => if src = u ∧ dst = v then [m] else []
  | none => []

theorem sentOn_of_sender (src u v : Fin N) (sends : List (Send A N))
    (d : Option (Fin N × Fin N × ShmemMsg A N)) (c : Option (Fin N × Access A × List UInt8)) :
    Obs.sentOn u v ⟨d, sends.map fun x ↦ (src, x), c⟩ =
      if u = src then (Sys.packetsTo v sends).map Packet.msg else [] := by
  unfold Obs.sentOn Sys.packetsTo
  rw [filter_map, map_map]
  by_cases hu : u = src
  · subst hu
    simp [comp_def]
  · simp [comp_def, Ne.symm hu, hu]

/-- None of the messages comes from a directory. -/
def NotFromDirectory (sends : List (Send A N)) : Prop :=
  ∀ y ∈ sends, y.packet.msg.route ≠ .fromDirectory

/-- A request of tile `t`. -/
def LineReq.isOf (t : Fin N) : LineReq N → Bool
  | .miss _ u => u = t
  | .nullify => false

/-- No message is in flight. -/
def Sys.Quiet (s : Sys A N) : Prop := ∀ u v, s.chan u v = []

/-- What is seen along a run, the earliest first. -/
def seen {β : Type} (f : Obs A N → List β) : List (Obs A N) → List β
  | [] => []
  | o :: trace => seen f trace ++ f o

/-- The channels on which something has been sent. -/
def channelsUsed (trace : List (Obs A N)) : List (Fin N × Fin N) :=
  trace.flatMap fun o ↦ o.sent.map fun x ↦ (x.1, x.2.receiver)

theorem seen_sentOn_of_notMem {u v : Fin N} (h : (u, v) ∉ channelsUsed trace) :
    seen (Obs.sentOn u v) trace = [] := by
  induction trace with
  | nil => rfl
  | cons o trace ih =>
    rw [channelsUsed, flatMap_cons, mem_append, not_or] at h
    have hnone : o.sentOn u v = [] := by
      unfold Obs.sentOn
      rw [map_eq_nil_iff, filter_eq_nil_iff]
      intro x hx hp
      obtain ⟨rfl, rfl⟩ : x.1 = u ∧ x.2.receiver = v := by simpa using hp
      exact h.1 (mem_map.mpr ⟨x, hx, rfl⟩)
    rw [seen, ih h.2, hnone]
    rfl

variable [DecidableEq A]

/-! ### Messages are conserved -/

/-- What is in a channel and what is sent on it is what is delivered and what is left. -/
theorem Sys.perform_network {r : Except Fault (Sys A N × Obs A N)}
    (hr : s.perform cfg env act = some r) (u v : Fin N) :
    Yields r (fun x ↦ (s.chan u v).map Packet.msg ++ x.2.sentOn u v =
      x.2.deliveredOn u v ++ (x.1.chan u v).map Packet.msg) := by
  have hpost (s : Sys A N) (src : Fin N) (sends : List (Send A N)) :
      ((s.post src sends).chan u v).map Packet.msg = (s.chan u v).map Packet.msg ++
        if u = src then (Sys.packetsTo v sends).map Packet.msg else [] := by
    rw [chan_post, map_append]
    split_ifs <;> rfl
  have hcore (t : Fin N) (acc : Access A) (x : Tile A × Option (List UInt8) × List (Send A N)) :
      (s.chan u v).map Packet.msg ++ (s.finish t acc x).2.sentOn u v =
        (s.finish t acc x).2.deliveredOn u v ++ ((s.finish t acc x).1.chan u v).map Packet.msg := by
    unfold Sys.finish
    rw [sentOn_of_sender, hpost]
    rfl
  cases Sys.performs cfg env hr with
  | access | retry => exact .skip fun x ↦ hcore _ _ x
  | @deliver src dst p rest _ hc =>
    have hpop : (s.chan u v).map Packet.msg = (if src = u ∧ dst = v then [p.msg] else []) ++
        ((s.setChan src dst rest).chan u v).map Packet.msg := by
      rw [chan_setChan]
      by_cases huv : u = src ∧ v = dst
      · obtain ⟨rfl, rfl⟩ := huv
        simp [hc]
      · rw [if_neg huv, if_neg fun h ↦ huv ⟨h.1.symm, h.2.symm⟩]
        rfl
    -- whichever controller handles the message, its messages are appended to the channels
    have hhandled : Yields ((s.setChan src dst rest).handleMsgFromNetwork cfg env src dst p)
        (fun x ↦ (x.1.chan u v).map Packet.msg =
          ((s.setChan src dst rest).chan u v).map Packet.msg ++
            if u = dst then (Sys.packetsTo v x.2).map Packet.msg else []) := by
      unfold Sys.handleMsgFromNetwork
      cases p.msg.route with
      | fromL1 comp =>
        refine .check fun _ ↦ ?_
        exact .skip fun x ↦ hpost _ dst x.2
      | fromDirectory => exact .skip fun x ↦ hpost _ dst x.2
      | toDirectory => exact .skip fun d ↦ hpost _ dst d.out
    refine .bind hhandled fun x hx ↦ ?_
    change _ ++ Obs.sentOn u v ⟨_, _, _⟩ = _ ++ (x.1.chan u v).map Packet.msg
    rw [sentOn_of_sender, hx, hpop, append_assoc]
    rfl

/-! ### What the caches of a tile send -/

theorem NotFromDirectory.answered (h : NotFromDirectory sends) (a : A) : answered a sends = [] := by
  refine filterMap_eq_nil_iff.mpr fun y hy ↦ ?_
  rw [Send.answered, ShmemMsg.answers, if_neg fun hr ↦ h y hy hr.1]

namespace Tile

variable {c : TileConfig A} {home : A → Fin N} {self : Fin N} {l1Way : L1Kind → ℕ}

theorem attempt_notFromDirectory (x : Tile A) (acc : Access A) (modeled : Bool) (now : ℕ) :
    Yields (x.attempt c self l1Way acc modeled now) (fun r ↦ NotFromDirectory r.2.2) := by
  unfold Tile.attempt
  split_ifs
  · exact .skip fun r ↦ by simp [NotFromDirectory]
  · refine .skip fun x₁ ↦ ?_
    refine .skip fun r ↦ ?_
    obtain ⟨miss, x₂⟩ := r
    dsimp only
    split_ifs
    · simp [NotFromDirectory]
    · exact .skip fun r ↦ by simp [NotFromDirectory]

theorem handleMsgFromL1Cache_notFromDirectory (x : Tile A) (comp : L1Kind) (m : ShmemMsg A N)
    (now : ℕ) :
    Yields (x.handleMsgFromL1Cache c home self comp m now) (fun r ↦ NotFromDirectory r.2) := by
  unfold Tile.handleMsgFromL1Cache
  refine .check fun _ ↦ ?_
  refine .check fun _ ↦ ?_
  dsimp only
  split
  · refine .check fun _ ↦ ?_
    split_ifs
    · exact .skip fun r ↦ by simp [NotFromDirectory, toHome]
    · simp [NotFromDirectory, toHome]
  · simp [NotFromDirectory, toHome, processShReqFromL1Cache]
  · trivial

theorem insertL2_notFromDirectory (x : Tile A) (way : ℕ) (a : A) (cstate : CState) (data : Block)
    (comp : L1Kind) (modeled : Bool) (now : ℕ) :
    Yields (x.insertL2 c home self way a cstate data comp modeled now)
      (fun r ↦ NotFromDirectory r.2) := by
  unfold Tile.insertL2
  refine .check fun _ ↦ ?_
  dsimp only
  split
  · simp [NotFromDirectory]
  · refine .skip fun x₁ ↦ ?_
    split_ifs
    · simp [NotFromDirectory, toHome]
    · exact .require_bind (fun _ ↦ by simp [NotFromDirectory, toHome]) fun _ ↦ trivial

theorem processRepFromDramDirectory_notFromDirectory (x : Tile A) (l2Way : ℕ) (m : ShmemMsg A N)
    (cstate : CState) (modeled : Bool) (now : ℕ) :
    Yields (x.processRepFromDramDirectory c home self l1Way l2Way m cstate modeled now)
      (fun r ↦ NotFromDirectory r.2) := by
  unfold Tile.processRepFromDramDirectory Tile.insertCacheLineInHierarchy
  refine .lookup fun data _ ↦ ?_
  refine Outcome.bind (m := fun r : Tile A × List (Send A N) ↦ NotFromDirectory r.2) ?_ ?_
  · refine Yields.lookup fun x _ ↦ ?_
    refine Yields.check fun _ ↦ ?_
    refine Outcome.bind (insertL2_notFromDirectory ..) fun r hr ↦ ?_
    exact Yields.skip fun _ ↦ hr
  · exact fun r hr ↦ .require_bind (fun _ ↦ hr) fun _ ↦ trivial

theorem handleMsgFromDramDirectory_notFromDirectory (x : Tile A) (l2Way : ℕ) (sender : Fin N)
    (m : ShmemMsg A N) (modeled : Bool) (now : ℕ) :
    Yields (x.handleMsgFromDramDirectory c home self l1Way l2Way sender m modeled now)
      (fun r ↦ NotFromDirectory r.2) := by
  have hnone (x : Tile A) : NotFromDirectory ((x, []) : Tile A × List (Send A N)).2 := by
    simp [NotFromDirectory]
  have hreply (type : MsgType) (data : Option Block) (time : ℕ) :
      NotFromDirectory [replyTo sender type m data time] := by
    simp [NotFromDirectory, replyTo]
  unfold Tile.handleMsgFromDramDirectory processInvReqFromDramDirectory
    processFlushReqFromDramDirectory processWbReqFromDramDirectory
  split
  · exact processRepFromDramDirectory_notFromDirectory ..
  · exact processRepFromDramDirectory_notFromDirectory ..
  -- the three requests of the directory are handled alike
  iterate 3
    · split_ifs
      · exact hnone x
      · refine .lookup fun line _ ↦ ?_
        refine .check fun _ ↦ ?_
        refine .skip fun x₁ ↦ ?_
        exact .skip fun x₂ ↦ hreply _ _ _
  · trivial

end Tile

/-! ### The requests of a line -/

/-- The request for line `a` that a message is, if it is one to the directory. -/
def ShmemMsg.asksFor (a : A) (m : ShmemMsg A N) : List (LineReq N) :=
  if m.route = .toDirectory ∧ m.address = a then m.asks else []

/-- The request for line `a` that the directory takes in a step. -/
def Obs.arrived (a : A) (o : Obs A N) : List (LineReq N) :=
  match o.delivered with
  | some (_, _, m) => m.asksFor a
  | none => []

/-- The requests for line `a` that are answered in a step. -/
def Obs.replied (a : A) (o : Obs A N) : List (LineReq N) := answered a (o.sent.map Prod.snd)

/-- The requests for line `a` that tile `t` sends to the home of the line in a step. -/
def Obs.asked (cfg : Config A N) (a : A) (t : Fin N) (o : Obs A N) : List (LineReq N) :=
  (o.sentOn t (cfg.home a)).flatMap (ShmemMsg.asksFor a)

/-- The requests of tile `t` for line `a` whose answer the tile receives in a step. -/
def Obs.received (cfg : Config A N) (a : A) (t : Fin N) (o : Obs A N) : List (LineReq N) :=
  (o.deliveredOn (cfg.home a) t).filterMap (ShmemMsg.answers a t)

/-- What one step does for the requests. -/
structure StepServes (cfg : Config A N) (s : Sys A N) (o : Obs A N) (s' : Sys A N) : Prop where
  order : ∀ a, waiting ((s.dir (cfg.home a)).queue a) ++ o.arrived a =
    o.replied a ++ waiting ((s'.dir (cfg.home a)).queue a)
  single : ∀ x ∈ o.sent, ∀ a, x.2.IsRecall a →
    FrontOf ((s'.dir (cfg.home a)).queue a) x.2.packet.msg.requester
  sender : ∀ a t, (o.arrived a).filter (LineReq.isOf t) =
    (o.deliveredOn t (cfg.home a)).flatMap (ShmemMsg.asksFor a)
  receiver : ∀ a t, (o.replied a).filter (LineReq.isOf t) =
    (o.sentOn (cfg.home a) t).filterMap (ShmemMsg.answers a t)

/-- A step of the caches of a tile. -/
theorem StepServes.of_tile {u : Fin N} {dlv : Option (Fin N × Fin N × ShmemMsg A N)}
    {c : Option (Fin N × Access A × List UInt8)} (hdir : s'.dir = s.dir)
    (hsends : NotFromDirectory sends) (hdlv : ∀ x ∈ dlv, x.2.2.route ≠ .toDirectory) :
    StepServes cfg s ⟨dlv, sends.map fun x ↦ (u, x), c⟩ s' := by
  have hasks : ∀ x ∈ dlv, ∀ a, x.2.2.asksFor a = [] := fun x hx a ↦ if_neg fun h ↦ hdlv x hx h.1
  have harrived (a : A) : Obs.arrived a ⟨dlv, sends.map fun x ↦ (u, x), c⟩ = [] := by
    rcases dlv with _ | x
    · rfl
    · exact hasks x rfl a
  have hreplied (a : A) : Obs.replied a ⟨dlv, sends.map fun x ↦ (u, x), c⟩ = [] := by
    unfold Obs.replied
    simpa [comp_def] using hsends.answered a
  refine ⟨fun a ↦ ?_, fun x hx a hrecall ↦ ?_, fun a t ↦ ?_, fun a t ↦ ?_⟩
  · rw [harrived, hreplied, hdir, append_nil, nil_append]
  · obtain ⟨y, hy, rfl⟩ := mem_map.mp hx
    exact absurd hrecall.1 (hsends y hy)
  · rw [harrived]
    rcases dlv with _ | x
    · rfl
    · unfold Obs.deliveredOn
      dsimp only
      split_ifs
      · simp [hasks x rfl a]
      · rfl
  · rw [hreplied, sentOn_of_sender]
    symm
    rw [filter_nil, filterMap_eq_nil_iff]
    intro m hm
    split_ifs at hm
    · obtain ⟨p, hp, rfl⟩ := mem_map.mp hm
      exact if_neg fun h ↦ hsends ⟨t, p⟩ (mem_packetsTo.mp hp) h.1
    · simp at hm

/-- The answers to tile `t` are those sent to it. -/
theorem filter_answered (a : A) (t : Fin N) (sends : List (Send A N)) :
    (answered a sends).filter (LineReq.isOf t) =
      ((Sys.packetsTo t sends).map Packet.msg).filterMap (ShmemMsg.answers a t) := by
  have hof {y : Send A N} {r : LineReq N} (hy : y.answered a = some r) :
      r.isOf t = decide (y.receiver = t) := by
    unfold Send.answered ShmemMsg.answers at hy
    split_ifs at hy
    split at hy
    · obtain rfl := Option.some.inj hy
      rfl
    · obtain rfl := Option.some.inj hy
      rfl
    · simp at hy
  induction sends with
  | nil => rfl
  | cons y ys ih =>
    unfold answered Sys.packetsTo at ih ⊢
    rw [filterMap_cons, filter_cons]
    cases hy : y.answered a with
    | none =>
      rw [ih]
      split_ifs with ht
      · obtain rfl : y.receiver = t := by simpa using ht
        have hnone : y.packet.msg.answers a y.receiver = none := hy
        simp [hnone]
      · rfl
    | some r =>
      dsimp only
      rw [filter_cons, hof hy, ih]
      split_ifs with ht
      · obtain rfl : y.receiver = t := by simpa using ht
        have hsome : y.packet.msg.answers a y.receiver = some r := hy
        simp [hsome]
      · rfl

/-- The requests that arrive from tile `t` are its own. -/
theorem filter_asksFor {m : ShmemMsg A N} (hwf : m.WF cfg.home src dst) (a : A) (t : Fin N) :
    (m.asksFor a).filter (LineReq.isOf t) =
      (if src = t ∧ dst = cfg.home a then [m] else []).flatMap (ShmemMsg.asksFor a) := by
  by_cases ha : m.route = .toDirectory ∧ m.address = a
  · obtain ⟨hroute, rfl⟩ := ha
    have hasks : m.asksFor m.address = m.asks := if_pos ⟨hroute, rfl⟩
    have hhome : dst = cfg.home m.address := by
      have hends := hwf.ends
      rw [hroute] at hends
      exact hends
    have hof : ∀ r ∈ m.asks, r.isOf t = decide (src = t) := by
      intro r hr
      unfold ShmemMsg.asks at hr
      split at hr
      · next htype =>
        rw [mem_singleton.mp hr, ← hwf.requester (.inl htype)]
        rfl
      · next htype =>
        rw [mem_singleton.mp hr, ← hwf.requester (.inr htype)]
        rfl
      · simp at hr
    rw [hasks]
    by_cases hst : src = t
    · rw [if_pos ⟨hst, hhome⟩, flatMap_singleton, hasks, filter_eq_self]
      intro r hr
      rw [hof r hr, decide_eq_true hst]
    · rw [if_neg fun hx ↦ hst hx.1, flatMap_nil, filter_eq_nil_iff]
      intro r hr
      simp [hof r hr, hst]
  · have hasks : m.asksFor a = [] := if_neg ha
    rw [hasks]
    split_ifs
    · simp [hasks]
    · rfl

/-- A step of a directory. -/
theorem Good.serves_toDirectory (h : Coherent cfg allowed listed s mem)
    {p : Packet A N} {rest : List (Packet A N)} (hc : s.chan src dst = p :: rest)
    (hroute : p.msg.route = .toDirectory) {now : ℕ} {d : Dir A N}
    (hd : Dir.handleMsgFromL2Cache cfg env (s.enter dst now) src p.msg = .ok d) {s₀ : Sys A N}
    (hs₀ : s₀.dir = s.dir) (h' : Coherent cfg allowed listed (s₀.commit dst d) mem') :
    StepServes cfg s ⟨some (src, dst, p.msg), d.out.map fun x ↦ (dst, x), none⟩
      (s₀.commit dst d) := by
  have hwf := h.wf src dst p (by simp [hc])
  have hhome : dst = cfg.home p.msg.address := by
    have hends := hwf.ends
    rw [hroute] at hends
    exact hends
  have hadr : ∀ x ∈ (s.enter dst now).queue p.msg.address, x.address = p.msg.address := by
    obtain ⟨L, hv, -⟩ := h.line p.msg.address
    rw [hhome]
    exact hv.dir.address
  have hserves := Outcome.of_eq_ok (Dir.handleMsgFromL2Cache_serves src hadr) hd
  obtain ⟨ext, hout, hother, hline, hrecall⟩ := hserves.sends
  obtain rfl : d.out = ext := hout
  have hdir (a : A) : (s₀.commit dst d).dir (cfg.home a) =
      if cfg.home a = dst then { d with out := [] } else s.dir (cfg.home a) := by
    unfold Sys.commit Sys.post
    dsimp only
    split_ifs with ha
    · rw [ha, update_self]
    · rw [update_of_ne ha, hs₀]
  have hreplied (a : A) : Obs.replied a ⟨some (src, dst, p.msg), d.out.map fun x ↦ (dst, x), none⟩ =
      answered a d.out := by
    unfold Obs.replied
    simp [comp_def]
  refine ⟨fun a ↦ ?_, fun x hx a hx' ↦ ?_, fun a t ↦ ?_, fun a t ↦ ?_⟩
  · rw [hreplied, hdir]
    by_cases ha : a = p.msg.address
    · subst ha
      rw [if_pos hhome.symm, hline, ← hhome]
      simp [Obs.arrived, ShmemMsg.asksFor, hroute]
    · have harrived : Obs.arrived a
          ⟨some (src, dst, p.msg), d.out.map fun x ↦ (dst, x), none⟩ = [] :=
        if_neg fun hm ↦ ha hm.2.symm
      rw [harrived, hother a ha, append_nil, nil_append]
      split_ifs with hdst
      · rw [hdst]
        exact ((hserves.others a ha).waiting).symm
      · rfl
  · obtain ⟨y, hy, rfl⟩ := mem_map.mp hx
    have hfront := hrecall y hy a hx'
    have hat : cfg.home a = dst := by
      by_contra hne
      have hnil := (h'.foreign dst a hne).1
      rw [commit_dir] at hnil
      exact hfront.ne_nil hnil
    rw [hdir, if_pos hat]
    exact hfront
  · exact filter_asksFor hwf a t
  · rw [hreplied, sentOn_of_sender]
    split_ifs with hat
    · exact filter_answered a t d.out
    · have hne : a ≠ p.msg.address := by
        rintro rfl
        exact hat hhome.symm
      rw [hother a hne]
      rfl

/-- Every step. -/
theorem Good.stepServes (h : Coherent cfg allowed listed s mem)
    (h' : Coherent cfg allowed listed s' mem')
    (hr : s.perform cfg env act = some (.ok (s', o))) : StepServes cfg s o s' := by
  have hcore (t : Fin N) (acc : Access A)
      (r : Except Fault (Tile A × Option (List UInt8) × List (Send A N)))
      (hsends : Yields r (fun x ↦ NotFromDirectory x.2.2))
      (hr : s.finish t acc <$> r = .ok (s', o)) : StepServes cfg s o s' := by
    cases r with
    | error e => simp at hr
    | ok x =>
      obtain ⟨rfl, rfl⟩ : (s.finish t acc x).1 = s' ∧ (s.finish t acc x).2 = o := by
        have heq : s.finish t acc x = (s', o) := Except.ok.inj hr
        rw [heq]
        exact ⟨rfl, rfl⟩
      exact .of_tile rfl hsends (by simp)
  generalize hok : Except.ok (s', o) = r at hr
  cases Sys.performs cfg env hr with
  | access =>
    refine hcore _ _ _ ?_ hok.symm
    exact .bind (Tile.attempt_notFromDirectory ..) fun x hx ↦ hx
  | retry =>
    refine hcore _ _ _ ?_ hok.symm
    refine .check fun _ ↦ ?_
    exact .bind (Tile.attempt_notFromDirectory ..) fun x hx ↦ hx
  | @deliver src dst p rest _ hc =>
    have hhandled : Yields ((s.setChan src dst rest).handleMsgFromNetwork cfg env src dst p)
        (fun x ↦ Coherent cfg allowed listed x.1 mem' →
          StepServes cfg s ⟨some (src, dst, p.msg), x.2.map fun y ↦ (dst, y), none⟩ x.1) := by
      unfold Sys.handleMsgFromNetwork
      cases hroute : p.msg.route with
      | fromL1 comp =>
        refine .check fun _ ↦ ?_
        refine .bind (Tile.handleMsgFromL1Cache_notFromDirectory ..) fun x hx ↦ ?_
        exact fun _ ↦ .of_tile rfl hx (by simp [hroute])
      | fromDirectory =>
        refine .bind (Tile.handleMsgFromDramDirectory_notFromDirectory ..) fun x hx ↦ ?_
        exact fun _ ↦ .of_tile rfl hx (by simp [hroute])
      | toDirectory =>
        dsimp only
        cases hd : Dir.handleMsgFromL2Cache cfg env (s.enter dst (p.time + env.delay)) src p.msg with
        | error e =>
          have hd' : Dir.handleMsgFromL2Cache cfg env ((s.setChan src dst rest).enter dst
            (p.time + env.delay)) src p.msg = .error e := hd
          rw [hd']
          trivial
        | ok d =>
          have hd' : Dir.handleMsgFromL2Cache cfg env ((s.setChan src dst rest).enter dst
            (p.time + env.delay)) src p.msg = .ok d := hd
          rw [hd']
          exact fun hgood ↦ h.serves_toDirectory hc hroute hd rfl hgood
    cases hx : (s.setChan src dst rest).handleMsgFromNetwork cfg env src dst p with
    | error e => simp [hx] at hok
    | ok x =>
      rw [hx] at hok hhandled
      obtain ⟨rfl, rfl⟩ := Prod.mk.inj (Except.ok.inj hok)
      exact hhandled h'

/-! ### Nothing waits when no message is in flight -/

section Quiet

variable {L : Line N Block} (hdown : ∀ t, (L.tile t).down = []) (hup : ∀ t, (L.tile t).up = [])

include hdown hup

omit [DecidableEq A] in
theorem not_invDue_of_quiet (t : Fin N) : ¬ (L.tile t).InvDue := by
  rintro (⟨stale, live, hd, -⟩ | hu)
  · simp [hdown t] at hd
  · simp [hup t] at hu

omit [DecidableEq A] in
/-- A request that waits has asked a tile for the line, or a notice of the tile is on its way. -/
theorem Line.Inv.pending_of_quiet (h : L.Inv True) : L.pending = false := by
  by_contra hp
  rw [Bool.not_eq_false] at hp
  obtain ⟨hq, hd⟩ := h.pending hp
  obtain ⟨r, rest, hr⟩ := exists_cons_of_ne_nil hq
  have hasked : L.asked = some r.ownerMsg := by simp [Line.asked, hp, hr]
  cases hdstate : L.dstate with
  | uncached => exact hd hdstate
  | shared =>
    obtain ⟨t, ht⟩ := h.shared hdstate
    cases hsh : L.frontSh with
    | false => exact not_invDue_of_quiet hdown hup t (h.waitAll trivial hp hdstate hsh t ht)
    | true =>
      obtain ⟨u, -, hu⟩ := h.waitOne trivial hp hdstate hsh
      exact not_invDue_of_quiet hdown hup u hu
  | modified =>
    obtain ⟨o, -, hS⟩ := h.modified hdstate
    have hpres := h.present o (by simp [hS])
    have hd' := hdown o
    have hu' := hup o
    rw [hasked, hdstate] at hpres
    generalize L.tile o = v at hpres hd' hu'
    cases hpres with
    | incomingSh w stale live hd | heldSh live stage hd | leavingSh w down stage hd => simp at hd
    | incomingEx w stale hd hs | heldEx hd => simp at hd'
    | heldWb stage hd ha hst | leavingWb w stage hd ha hst | leavingEx w down stage hd hs hst =>
      simp at hu'

omit [DecidableEq A] in
/-- A miss that is not in a queue is in a message. -/
theorem Line.Inv.stage_of_quiet {listed : Prop} (h : L.Inv listed) (hq : L.queue = []) (t : Fin N)
    (kind : ReqKind) : (L.tile t).stage ≠ .requested kind ∧ (L.tile t).stage ≠ .queued kind ∧
      (L.tile t).stage ≠ .granted kind := by
  have hqueued : (L.tile t).stage ≠ .queued kind := by
    intro hs
    have hmem := (h.queued kind t).mpr hs
    simp [hq] at hmem
  have hd' := hdown t
  have hu' := hup t
  by_cases ht : t ∈ L.sharers
  · have hpres := h.present t ht
    generalize L.tile t = v at *
    cases hpres with
    | incomingSh w stale live | incomingEx w stale => simp at hd'
    | heldSh live stage hd hl hst =>
      rcases hst with rfl | rfl <;> simp
    | heldEx hd => simp
    | heldWb stage hd ha hst => simp at hu'
    | leavingSh w down stage hd | leavingWb w stage hd ha hst | leavingEx w down stage hd hs hst =>
      simp at hu'
  · have habs := h.absent t ht
    refine ⟨fun hs ↦ ?_, hqueued, fun hs ↦ ?_⟩
    · have hupt := habs.up
      rw [hs, hu'] at hupt
      simp at hupt
    · exact habs.stage kind hs

end Quiet

/-- Nothing waits: no request in a queue, no core for a reply, no entry for its sharers. -/
structure Sys.Settled (s : Sys A N) : Prop where
  queue : ∀ h a, (s.dir h).queue a = []
  core : ∀ t acc n, (s.tile t).app ≠ .missed acc n
  replaced : ∀ h, (s.dir h).cache.replaced = []

theorem Good.settled_of_quiet (h : Coherent cfg allowed True s mem)
    (hquiet : s.Quiet) : s.Settled := by
  have hview (a : A) : ∃ L, View cfg True s .settled a L ∧ L.Inv True ∧
      (∀ t, (L.tile t).down = []) ∧ ∀ t, (L.tile t).up = [] := by
    obtain ⟨L, hv, hL, -⟩ := h.line a
    refine ⟨L, hv, hL, fun t ↦ ?_, fun t ↦ ?_⟩
    · rw [(hv.tile t).down, downs, hquiet]
      rfl
    · rw [(hv.tile t).up, ups, hquiet]
      rfl
  have hhome (a : A) : (s.dir (cfg.home a)).queue a = [] := by
    obtain ⟨L, hv, hL, hdown, hup⟩ := hview a
    have hp := hv.dir.pending
    rw [hL.pending_of_quiet hdown hup] at hp
    simpa using hp
  refine ⟨fun g a ↦ ?_, fun t acc n happ ↦ ?_, fun g ↦ ?_⟩
  · by_cases hg : cfg.home a = g
    · rw [← hg]
      exact hhome a
    · exact (h.foreign g a hg).1
  · obtain ⟨L, hv, hL, hdown, hup⟩ := hview acc.address
    have hq : L.queue = [] := by rw [hv.dir.queue, hhome]; rfl
    have hstage := (hv.tile t).stage
    have hnot := hL.stage_of_quiet hdown hup hq t (kindOf acc.op)
    unfold StageView at hstage
    rw [happ] at hstage
    dsimp only at hstage
    rw [if_pos rfl] at hstage
    split_ifs at hstage with hout
    · -- the miss would be in the message from L1 to L2
      have hasks := h.asks t
      unfold AsksFor at hasks
      rw [happ, Option.isNone_iff_eq_none.mp hout] at hasks
      obtain ⟨modeled, hmsg⟩ := hasks
      rw [l1Asks, hquiet t t] at hmsg
      simp at hmsg
    · rcases hstage with hs | hs | hs
      · exact hnot.1 hs
      · exact hnot.2.1 hs
      · exact hnot.2.2 hs
  · rw [eq_nil_iff_forall_not_mem]
    rintro ⟨a, e⟩ hmem
    have hkey : a ∈ (s.dir g).cache.replaced.map Prod.fst := mem_map.mpr ⟨_, hmem, rfl⟩
    by_cases hg : cfg.home a = g
    · obtain ⟨L, hv, -⟩ := hview a
      rw [← hg] at hkey
      have hnull := hv.dir.replaced.mp hkey
      rw [hv.dir.queue, hhome] at hnull
      simp at hnull
    · have hnone := (h.foreign g a hg).2
      rw [DirectoryCache.entry, Option.or_eq_none_iff] at hnone
      have hsome := DirectoryCache.lookup_isSome_iff.mpr hkey
      simp [hnone.2] at hsome

/-! ### Whole runs -/

/-- The requests of tile `t` for line `a` on their way to the home. -/
def requestsInFlight (cfg : Config A N) (s : Sys A N) (a : A) (t : Fin N) : List (LineReq N) :=
  ((s.chan t (cfg.home a)).map Packet.msg).flatMap (ShmemMsg.asksFor a)

/-- The requests of tile `t` for line `a` whose answers are on their way to the tile. -/
def repliesInFlight (cfg : Config A N) (s : Sys A N) (a : A) (t : Fin N) : List (LineReq N) :=
  ((s.chan (cfg.home a) t).map Packet.msg).filterMap (ShmemMsg.answers a t)

/-- How the requests for lines have been served along a run. -/
structure Service (cfg : Config A N) (trace : List (Obs A N)) (s : Sys A N) : Prop where
  /-- Requests are answered once each, in the order in which they have entered the queue. -/
  order : ∀ a, seen (Obs.arrived a) trace =
    seen (Obs.replied a) trace ++ waiting ((s.dir (cfg.home a)).queue a)
  /-- What a tile has sent has arrived or is in flight. -/
  requests : ∀ a t, seen (Obs.asked cfg a t) trace =
    (seen (Obs.arrived a) trace).filter (LineReq.isOf t) ++ requestsInFlight cfg s a t
  /-- What has been answered to a tile has been received or is in flight. -/
  replies : ∀ a t, (seen (Obs.replied a) trace).filter (LineReq.isOf t) =
    seen (Obs.received cfg a t) trace ++ repliesInFlight cfg s a t
  /-- In the last step tiles have been asked for a line only for the front request of its queue. -/
  single : ∀ o ∈ trace.head?, ∀ x ∈ o.sent, ∀ a, x.2.IsRecall a →
    FrontOf ((s.dir (cfg.home a)).queue a) x.2.packet.msg.requester

theorem Service.step (h : Service cfg trace s) (hstep : StepServes cfg s o s')
    (hnet : ∀ u v, (s.chan u v).map Packet.msg ++ o.sentOn u v =
      o.deliveredOn u v ++ (s'.chan u v).map Packet.msg) : Service cfg (o :: trace) s' := by
  refine ⟨fun a ↦ ?_, fun a t ↦ ?_, fun a t ↦ ?_, fun o' ho' ↦ ?_⟩
  · rw [seen, seen, h.order, append_assoc, hstep.order, append_assoc]
  · have hflight := congrArg (List.flatMap (ShmemMsg.asksFor a)) (hnet t (cfg.home a))
    rw [flatMap_append, flatMap_append, ← hstep.sender] at hflight
    rw [seen, seen, h.requests, filter_append, append_assoc, append_assoc]
    exact congrArg _ hflight
  · have hflight := congrArg (List.filterMap (ShmemMsg.answers a t)) (hnet (cfg.home a) t)
    rw [filterMap_append, filterMap_append, ← hstep.receiver] at hflight
    rw [seen, seen, filter_append, h.replies, append_assoc, append_assoc]
    exact congrArg _ hflight
  · obtain rfl : o = o' := by simpa using ho'
    exact hstep.single

theorem Service.run (hcfg : cfg.Supported listed) (hrun : Sys.Run cfg allowed trace s mem) :
    Service cfg trace s := by
  induction hrun with
  | start =>
    refine ⟨fun _ ↦ rfl, fun _ _ ↦ rfl, fun _ _ ↦ rfl, by simp⟩
  | step hrun hstep ih =>
    have hgood := Good.run hcfg hrun
    have hgood' := Good.run hcfg (hrun.step hstep)
    obtain ⟨env, act, -, -, hperform⟩ := hstep
    exact ih.step (hgood.stepServes hgood' hperform) fun u v ↦ Sys.perform_network hperform u v

/-- When no message is in flight each request of a tile has been answered and the answer received. -/
theorem Service.asked_of_quiet (h : Service cfg trace s) (hquiet : s.Quiet) (hset : s.Settled)
    (a : A) (t : Fin N) : seen (Obs.asked cfg a t) trace = seen (Obs.received cfg a t) trace := by
  have hrequests := h.requests a t
  have hreplies := h.replies a t
  rw [h.order, hset.queue, requestsInFlight, hquiet] at hrequests
  rw [repliesInFlight, hquiet] at hreplies
  simpa [waiting, hreplies] using hrequests

/-- Every request is answered once, in the order of the queue and one at a time, and nothing waits
when no message is in flight. -/
theorem requests_served (hscheme : cfg.scheme ≠ .limitedBroadcast)
    (hlists : cfg.scheme ≠ .fullMap →
      N ≤ 2 ^ 15 ∧ (cfg.scheme ≠ .limitless → 0 < cfg.maxHwSharers))
    (hways : N ≤ cfg.directory.scan.toFinset.card) (hrun : Sys.Run cfg allowed trace s mem) :
    Service cfg trace s ∧ (s.Quiet → s.Settled ∧
        ∀ a t, seen (Obs.asked cfg a t) trace = seen (Obs.received cfg a t) trace) := by
  have hcfg : cfg.Supported True := ⟨hscheme, fun _ ↦ hlists, fun _ ↦ hways⟩
  have hservice := Service.run hcfg hrun
  refine ⟨hservice, fun hquiet ↦ ?_⟩
  have hset := (Good.run hcfg hrun).settled_of_quiet hquiet
  exact ⟨hset, hservice.asked_of_quiet hquiet hset⟩

theorem requests_served_storeThenRead : ∃ trace s mem,
    Sys.Run (oneLine 2 .ackwise) (fun _ _ _ ↦ True) trace s mem ∧
      Service (oneLine 2 .ackwise) trace s ∧ s.Settled ∧
      seen (Obs.received (oneLine 2 .ackwise) () 1) trace = [.miss .sh 1] ∧
      seen (Obs.asked (oneLine 2 .ackwise) () 1) trace =
        seen (Obs.received (oneLine 2 .ackwise) () 1) trace := by
  have hx : (Sys.execStart (oneLine 2 .ackwise) oneWay storeThenRead).isSome := by decide
  have hrun : Sys.Run (oneLine 2 .ackwise) (fun _ _ _ ↦ True) _ _ _ :=
    oneLine_run (by simp [storeThenRead, missSteps, Sys.Permits]) hx
  have hquiet : ((Sys.execStart (oneLine 2 .ackwise) oneWay storeThenRead).get hx).2.1.Quiet := by
    intro u v
    fin_cases u <;> fin_cases v <;> rfl
  obtain ⟨hservice, hsettled⟩ := requests_served (by decide) (fun _ ↦ by decide) (by decide) hrun
  obtain ⟨hset, hasked⟩ := hsettled hquiet
  exact ⟨_, _, _, hrun, hservice, hset, rfl, hasked () 1⟩

/-! ### A directory that asks the wrong tile -/

theorem Sys.Run.network (h : Sys.Run cfg allowed trace s mem) (u v : Fin N) :
    seen (Obs.sentOn u v) trace =
      seen (Obs.deliveredOn u v) trace ++ (s.chan u v).map Packet.msg := by
  induction h with
  | start => rfl
  | step _ hstep ih =>
    obtain ⟨env, act, -, -, hperform⟩ := hstep
    have hnet := Outcome.of_eq_ok (Sys.perform_network hperform u v) rfl
    rw [seen, seen, ih, append_assoc, hnet, append_assoc]

/-- Only the channels that have been used need to be looked at. -/
theorem Sys.Run.quiet (h : Sys.Run cfg allowed trace s mem)
    (hused : ∀ x ∈ channelsUsed trace, s.chan x.1 x.2 = []) : s.Quiet := by
  intro u v
  by_cases hmem : (u, v) ∈ channelsUsed trace
  · exact hused _ hmem
  · have hnet := h.network u v
    rw [seen_sentOn_of_notMem hmem, eq_comm, append_eq_nil_iff] at hnet
    exact map_eq_nil_iff.mp hnet.2

/-- The actions of a list leave no message in flight and a request in the queue of line `a`. -/
def stuckAfter (cfg : Config A N) (env : Env A) (acts : List (Action A N)) (a : A) : Bool :=
  match Sys.execStart cfg env acts with
  | some (trace, s, _) => ((channelsUsed trace).all fun x ↦ (s.chan x.1 x.2).isEmpty) &&
      !((s.dir (cfg.home a)).queue a).isEmpty
  | none => false

theorem exists_stuck (acts : List (Action A N)) (a : A) (henv : ∀ t, env.Valid (cfg.tile t))
    (hacts : ∀ act ∈ acts, Sys.Permits allowed act) (h : stuckAfter cfg env acts a = true) :
    ∃ trace s mem, Sys.Run cfg allowed trace s mem ∧ s.Quiet ∧ ¬ s.Settled := by
  unfold stuckAfter at h
  split at h
  · next trace s mem heq =>
    rw [Bool.and_eq_true, all_eq_true] at h
    have hrun := Sys.Run.of_execStart henv hacts heq
    refine ⟨trace, s, mem, hrun, hrun.quiet fun x hx ↦ ?_, fun hset ↦ ?_⟩
    · exact isEmpty_iff.mp (h.1 x hx)
    · simp [hset.queue] at h
  · simp at h

/-- Tile 65541 reads the line, and then tile 0. -/
def truncatedSharer : List (Action Unit 65542) :=
  missSteps 65541 .dcache (.read 1) ++
    [.access 0 ⟨.dcache, .read 1, (), 0⟩ true 0, .deliver 0 0, .deliver 0 0, .deliver 0 5]

/-- The entries of the directory have no slot. -/
def noSlot (N : ℕ) [NeZero N] : Config Unit N :=
  { oneLine N .limitedNoBroadcast with maxHwSharers := 0 }

/-- A sharer is recorded in 16 bits. Tile 65541 reads the line; when tile 0 reads it, the entry has
no room and the INV_REQ goes to tile 5, which ignores it. And where entries have no slot at all, the
EX_REQ of the only tile fails an assertion of the directory, and nothing else can happen. -/
theorem stuck_truncatedSharer :
    (65542 ≤ (oneLine 65542 .limitedNoBroadcast).directory.scan.toFinset.card ∧
      ∃ trace s mem,
      Sys.Run (oneLine 65542 .limitedNoBroadcast) (fun _ _ c ↦ c = .dcache) trace s mem ∧
        s.Quiet ∧ ¬ s.Settled) ∧
    ∃ trace s mem, Sys.Run (noSlot 1) (fun _ _ c ↦ c = .dcache) trace s mem ∧
      seen (Obs.asked (noSlot 1) () 0) trace = [.miss .ex 0] ∧
      ∀ env act x, s.perform (noSlot 1) env act ≠ some (.ok x) := by
  refine ⟨⟨?_, ?_⟩, ?_⟩
  · have hcard := toFinset_card_of_nodup (nodup_range' (s := 0) (n := 65542))
    rw [length_range'] at hcard
    exact hcard.ge
  · exact exists_stuck truncatedSharer () (oneWay_valid _ .limitedNoBroadcast)
      (by simp [truncatedSharer, missSteps, Sys.Permits]) (by decide +kernel)
  · have hexec : Sys.execStart (noSlot 1) oneWay ((missSteps 0 .dcache (.write [7])).take 2) =
        some (_, _, _) := rfl
    have hrun : Sys.Run (noSlot 1) (fun _ _ c ↦ c = .dcache) _ _ _ := Sys.Run.of_execStart
      (oneWay_valid 1 .limitedNoBroadcast) (by simp [missSteps, Sys.Permits]) hexec
    refine ⟨_, _, _, hrun, rfl, fun env act x ↦ ?_⟩
    cases act with
    | access t acc modeled now =>
      obtain rfl := Subsingleton.elim t 0
      intro h
      cases h
    | retry t modeled now =>
      obtain rfl := Subsingleton.elim t 0
      intro h
      cases h
    | deliver src dst =>
      obtain rfl := Subsingleton.elim src 0
      obtain rfl := Subsingleton.elim dst 0
      intro h
      cases h

end CarbonSim.Msi
