import CarbonSim.Network.CornerCases

/-!
# The order of packets between two tiles

`KeepsOrder model s r` says that in every run of the network tile `r` receives the unicasts of tile
`s` to it and the broadcasts of `s` in the order in which `s` sends them, none of them lost and none
twice. It holds wherever all these packets take one hop (`keepsOrder_of_direct`), and between two
application tiles when the routing model has a `Lane` for them: the channels that every unicast and
every broadcast passes on its way from `s` to `r`, whatever its kind (`Lane.keepsOrder`).
-/

namespace CarbonSim.Network

open StoreForward List Except

variable {Data : Type} {copies : List (ℕ × NetPacket Data)} {receiver : Receiver}

/-- Packets with this receiver are for tile `r`, among others. -/
def Receiver.includes (r : ℕ) : Receiver → Bool
  | .tile i => i = r
  | .broadcast => true

theorem Receiver.includes_iff {r : ℕ} :
    receiver.includes r = true ↔ receiver = .tile r ∨ receiver = .broadcast := by
  cases receiver <;> simp [includes]

/-- What tile `s` sends that is for tile `r`, in this order. -/
def sentTo (s r : ℕ) (actions : List (Action ℕ (NetPacket Data))) : List Data :=
  actions.filterMap fun
    | .send u pkt => if u = s ∧ pkt.receiver.includes r then some pkt.data else none
    | .pull _ _ => none

/-- What tile `r` has received from tile `s`, in this order. -/
def receivedFrom (s r : ℕ) (st : State ℕ (NetPacket Data)) : List Data :=
  ((st.received r).filter fun pkt ↦ pkt.sender = s).map NetPacket.data

/-- No run fails, and what `r` has received from `s` is what `s` has sent to it, up to packets that
are still under way. -/
def KeepsOrder (model : NetworkModel) (s r : ℕ) : Prop :=
  ∀ (Data : Type) (actions : List (Action ℕ (NetPacket Data))),
    Sends (Sendable model.tiles) actions →
    ∃ final, run (model.network Data) .empty actions = .ok final ∧
      receivedFrom s r final <+: sentTo s r actions

/-- The channels that the packets from `s` to `r` pass, for packets that the model routes. -/
structure Lane (model : NetworkModel) (Travel : ℕ → ℕ → ℕ → Receiver → NodeType → Prop)
    (s r : ℕ) where
  length : ℕ
  source : ℕ → ℕ
  target : ℕ → ℕ
  stage : ℕ → ℕ → NodeType → Option ℕ
  stage_channel : ∀ u v t i, stage u v t = some i → i ≤ length ∧ u = source i ∧ v = target i
  application : ∀ u v t i, stage u v t = some i → model.tiles.isApplicationTile v
  start : ∀ receiver hops, receiver.includes r = true →
    model.routePacket s s receiver .sendTile = .ok hops →
    hops.filterMap (fun hop ↦ stage s hop.nextTileId hop.nextNodeType) = [0]
  next : ∀ u v receiver t hops, receiver.includes r = true → Travel u v s receiver t →
    t ≠ .receiveTile → model.routePacket v s receiver t = .ok hops →
    hops.filterMap (fun hop ↦ stage v hop.nextTileId hop.nextNodeType) =
      ((stage u v t).map (· + 1)).toList
  last : ∀ u v receiver, receiver.includes r = true → Travel u v s receiver .receiveTile →
    stage u v .receiveTile = if v = r then some length else none

namespace NetworkModel

variable {model : NetworkModel} {Travel : ℕ → ℕ → ℕ → Receiver → NodeType → Prop}
  {pkt : NetPacket Data} {u s r : ℕ}

/-- To mark the hops of `netSend`, it is enough to mark those of unicasts and of broadcasts that
are forwarded as such. -/
theorem netSend_filterMap {Mark : Type} (mark : ℕ × NetPacket Data → Option Mark) (m : Mark)
    (hsendable : Sendable model.tiles u pkt) (hr : r < model.tiles.totalTiles)
    (hroutes : model.Routes Travel) (hunicast : ∀ i copies, i < model.tiles.totalTiles →
      model.forwardPacket u (pkt.unicast i) = .ok copies →
      copies.filterMap mark = if u = s ∧ i = r then [m] else [])
    (hbroadcast : ∀ copies, pkt.receiver = .broadcast → model.hasBroadcastCapability = true →
      model.forwardPacket u pkt = .ok copies → copies.filterMap mark = if u = s then [m] else [])
    (hsend : model.netSend u pkt = .ok copies) :
    copies.filterMap mark = if u = s ∧ pkt.receiver.includes r then [m] else [] := by
  cases hreceiver : pkt.receiver with
  | tile i =>
    have hsame : pkt.unicast i = pkt := by
      unfold NetPacket.unicast
      rw [← hreceiver]
    rw [netSend_eq_forwardPacket (by simp [hreceiver]), ← hsame] at hsend
    rw [hunicast i copies (hsendable.receiver_lt i hreceiver) hsend]
    simp [Receiver.includes]
  | broadcast =>
    cases hcapability : model.hasBroadcastCapability with
    | true =>
      rw [netSend_eq_forwardPacket fun _ ↦ hcapability] at hsend
      rw [hbroadcast copies hreceiver hcapability hsend]
      simp [Receiver.includes]
    | false =>
      have hforward (i : ℕ) (hi : i < model.tiles.totalTiles) :=
        hroutes.forward_unicast (pkt.unicast i) hsendable.nodeType hsendable.sender rfl
          hsendable.sender_lt hi
      choose! hops hhops _ using hforward
      rw [netSend_of_unicasts hreceiver hcapability hhops] at hsend
      obtain rfl := ok.inj hsend
      rw [filterMap_flatMap]
      have hmarks : ∀ i ∈ List.range model.tiles.totalTiles,
          (hops i).filterMap mark = if i = r then (if u = s then [m] else []) else [] := by
        intro i hi
        have hlt := mem_range.mp hi
        rw [hunicast i (hops i) hlt (hhops i hlt)]
        split_ifs <;> simp_all
      rw [flatMap_congr hmarks, flatMap_ite_eq nodup_range, if_pos (mem_range.mpr hr)]
      simp [Receiver.includes]

/-! ### Packets that take one hop -/

/-- The packets from `s` to `r` all take one hop: one of the tiles is a system tile, or they are the
same and broadcasts are sent as unicasts. -/
def OneHop (model : NetworkModel) (s r : ℕ) : Prop :=
  model.tiles.isSystemTile s ∨ model.tiles.isSystemTile r ∨
    s = r ∧ model.hasBroadcastCapability = false

/-- The stage of a packet on the only hop from `s` to `r`. -/
def directStage (s r u v : ℕ) (pkt : NetPacket Data) : Option ℕ :=
  if u = s ∧ v = r ∧ pkt.sender = s ∧ pkt.nodeType = .receiveTile then some 0 else none

theorem OneHop.same (hone : model.OneHop s r) (hs : model.tiles.isApplicationTile s)
    (hr : model.tiles.isApplicationTile r) : s = r ∧ model.hasBroadcastCapability = false :=
  (hone.resolve_left (TileCounts.not_system_of_application hs)).resolve_left
    (TileCounts.not_system_of_application hr)

/-- Hops to different tiles, at most one of which is the hop from `s` to `r`. -/
theorem directStage_map {ids : List ℕ} (hnodup : ids.Nodup) (hsender : pkt.sender = u) :
    (ids.map (·, pkt.atReceiver)).filterMap (fun copy ↦
        (directStage s r u copy.1 copy.2).map fun i ↦ (i, copy.2.data)) =
      if u = s ∧ r ∈ ids then [(0, pkt.data)] else [] := by
  have hmark : ∀ i ∈ ids, ((directStage s r u i pkt.atReceiver).map
      fun j ↦ (j, pkt.atReceiver.data)).toList =
      if i = r then (if u = s then [(0, pkt.data)] else []) else [] := by
    intro i _
    unfold directStage
    by_cases hs : u = s
    · by_cases hr : i = r
      · simp [hs, hr, NetPacket.atReceiver, hsender]
      · simp [hr]
    · simp [hs]
  rw [filterMap_map, filterMap_eq_flatMap_toList]
  simp only [Function.comp_def]
  rw [flatMap_congr hmark, flatMap_ite_eq hnodup]
  by_cases hs : u = s
  · simp [hs]
  · simp [hs]

section

variable (hroutes : model.Routes Travel) (hone : model.OneHop s r)

include hroutes hone

theorem Routes.not_travel :
    ¬ Travel u r s receiver .receiveTile := by
  intro htravel
  have hbetween := hroutes.between _ _ _ _ _ htravel
  obtain ⟨happlication, hreceiver⟩ := hroutes.last _ _ _ _ htravel
  rcases hreceiver with rfl | rfl
  · exact hbetween.2.2 (hone.same hbetween.1 happlication).1
  · have hnone := (hone.same hbetween happlication).2
    rw [hroutes.capability _ _ _ _ htravel] at hnone
    exact Bool.noConfusion hnone

/-- Routed copies are not on the hop from `s` to `r`. -/
theorem Routes.directStage_along {hops : List Hop}
    (htravel : ∀ hop ∈ hops, Travel u hop.nextTileId pkt.sender pkt.receiver hop.nextNodeType) :
    (pkt.along hops).filterMap (fun copy ↦
      (directStage s r u copy.1 copy.2).map fun i ↦ (i, copy.2.data)) = [] := by
  apply filterMap_eq_nil_iff.mpr
  intro copy hcopy
  obtain ⟨hop, hhop, rfl⟩ := mem_map.mp hcopy
  have hnot : ¬ (u = s ∧ hop.nextTileId = r ∧ pkt.sender = s ∧
      hop.nextNodeType = .receiveTile) := by
    rintro ⟨_, hto, hfrom, htype⟩
    have hlast := htravel hop hhop
    rw [hto, hfrom, htype] at hlast
    exact hroutes.not_travel hone hlast
  simp only [directStage, if_neg hnot, Option.map_none]

theorem Routes.directStage_unicast (pkt : NetPacket Data) {i : ℕ} (htype : pkt.nodeType = .sendTile)
    (hsender : pkt.sender = u) (hreceiver : pkt.receiver = .tile i)
    (hu : u < model.tiles.totalTiles) (hi : i < model.tiles.totalTiles)
    (hforward : model.forwardPacket u pkt = .ok copies) :
    copies.filterMap (fun copy ↦ (directStage s r u copy.1 copy.2).map fun i ↦ (i, copy.2.data)) =
      if u = s ∧ i = r then [(0, pkt.data)] else [] := by
  rcases adjacent_or_between hu hi with hadjacent | hbetween
  · rw [forwardPacket_of_adjacent htype hsender hreceiver hadjacent] at hforward
    obtain rfl := ok.inj hforward
    have hsingle := directStage_map (s := s) (r := r) (by simp : [i].Nodup) hsender
    simp only [map_singleton, mem_singleton] at hsingle
    rw [hsingle]
    simp only [eq_comm]
  · obtain ⟨hops, hroute, htravel⟩ := hroutes.start u (.tile i) hbetween nofun
    rw [forwardPacket_of_unicast htype hsender hreceiver hbetween, hroute] at hforward
    obtain rfl := ok.inj hforward
    rw [hroutes.directStage_along hone (by rw [hsender, hreceiver]; exact htravel), if_neg]
    rintro ⟨rfl, rfl⟩
    exact hbetween.2.2 (hone.same hbetween.1 hbetween.2.1).1

theorem Routes.directStage_broadcast (hr : r < model.tiles.totalTiles)
    (hcapability : model.hasBroadcastCapability = true) (htype : pkt.nodeType = .sendTile)
    (hsender : pkt.sender = u) (hreceiver : pkt.receiver = .broadcast)
    (hu : u < model.tiles.totalTiles) (hforward : model.forwardPacket u pkt = .ok copies) :
    copies.filterMap (fun copy ↦ (directStage s r u copy.1 copy.2).map fun i ↦ (i, copy.2.data)) =
      if u = s then [(0, pkt.data)] else [] := by
  by_cases hsystem : model.tiles.isSystemTile u
  · rw [forwardPacket_of_system htype hsender hreceiver hsystem] at hforward
    obtain rfl := ok.inj hforward
    rw [directStage_map nodup_range hsender]
    simp [hr]
  · have happlication := TileCounts.application_of_not_system hu hsystem
    obtain ⟨hops, hroute, htravel⟩ := hroutes.start u .broadcast happlication fun _ ↦ hcapability
    rw [forwardPacket_of_broadcast htype hsender hreceiver happlication, hroute] at hforward
    obtain rfl := ok.inj hforward
    rw [filterMap_append, directStage_map nodup_systemTiles hsender,
      hroutes.directStage_along hone (by rw [hsender, hreceiver]; exact htravel), append_nil]
    by_cases hs : u = s
    · subst hs
      have hsystem' : model.tiles.isSystemTile r := by
        rcases hone with hs | hr | ⟨_, hnone⟩
        · exact absurd hs hsystem
        · exact hr
        · rw [hcapability] at hnone
          exact Bool.noConfusion hnone
      simp [mem_systemTiles.mpr hsystem']
    · simp [hs]

end

/-- The line of packets that take one hop. -/
def directLine (Data : Type) (hroutes : model.Routes Travel) (hr : r < model.tiles.totalTiles)
    (hone : model.OneHop s r) :
    StoreForward.Line (model.network Data) (Sendable model.tiles) (UnderWay model Travel) Data where
  receiver := r
  flow := fun u pkt ↦ u = s ∧ pkt.receiver.includes r
  arrived := fun pkt ↦ pkt.sender = s
  tag := NetPacket.data
  length := 0
  source := fun _ ↦ s
  target := fun _ ↦ r
  stage := directStage s r
  stage_channel := by
    intro u v pkt i hstage
    unfold directStage at hstage
    split_ifs at hstage with hplace
    obtain rfl := Option.some.inj hstage
    exact ⟨Nat.le_refl 0, hplace.1, hplace.2.1⟩
  send := by
    intro u pkt copies hsendable hsend
    simp only [decide_eq_true_eq]
    apply netSend_filterMap _ _ hsendable hr hroutes _ _ hsend
    · intro i copies hi hforward
      exact hroutes.directStage_unicast hone (pkt.unicast i) hsendable.nodeType hsendable.sender
        rfl hsendable.sender_lt hi hforward
    · intro copies hreceiver hcapability hforward
      exact hroutes.directStage_broadcast hone hr hcapability hsendable.nodeType hsendable.sender
        hreceiver hsendable.sender_lt hforward
  forward := by
    intro u v pkt copies hunderway hready hforward
    have htype : pkt.nodeType ≠ .receiveTile := of_decide_eq_false hready
    have hstage : directStage s r u v pkt = none := if_neg fun hplace ↦ htype hplace.2.2.2
    rw [hstage]
    rcases hunderway with hdirect | htravel
    · exact absurd hdirect.nodeType htype
    · obtain ⟨hops, hrouted, -, hnext⟩ := hroutes.forward_routed htravel htype
      obtain rfl := ok.inj (hforward.symm.trans hrouted)
      exact hroutes.directStage_along hone hnext
  ready := by
    intro u v pkt hunderway hready
    have htype : pkt.nodeType = .receiveTile := of_decide_eq_true hready
    unfold directStage
    simp only [htype, and_true, decide_eq_true_eq]
    by_cases hend : v = r ∧ pkt.sender = s
    · obtain ⟨rfl, hsender⟩ := hend
      rcases hunderway with hdirect | htravel
      · simp [hsender, ← hdirect.sender]
      · rw [hsender, htype] at htravel
        exact absurd htravel (hroutes.not_travel hone)
    · rw [if_neg hend, if_neg fun hplace ↦ hend hplace.2]

/-- A line of the packets from `s` to `r` gives their order. -/
theorem keepsOrder_of_line (hroutes : model.Routes Travel) (hline : ∀ Data : Type, ∃ line :
      StoreForward.Line (model.network Data) (Sendable model.tiles) (UnderWay model Travel) Data,
      line.receiver = r ∧ (line.flow = fun u pkt ↦ decide (u = s ∧ pkt.receiver.includes r)) ∧
      (line.arrived = fun pkt ↦ decide (pkt.sender = s)) ∧ line.tag = NetPacket.data) :
    KeepsOrder model s r := by
  intro Data actions hsends
  obtain ⟨line, hreceiver, hflow, harrived, htag⟩ := hline Data
  obtain ⟨final, hrun, _⟩ := hroutes.typed.run Held.empty hsends
  have horder := line.run hroutes.typed Held.empty hsends hrun
  have hdelivered : line.delivered final = receivedFrom s r final := by
    unfold StoreForward.Line.delivered receivedFrom
    rw [hreceiver, harrived, htag]
  have hsent : line.sent actions = sentTo s r actions := by
    apply filterMap_congr
    intro action _
    cases action <;> simp [hflow, htag]
  rw [line.delivered_append_pending_empty, nil_append, hdelivered, hsent] at horder
  exact ⟨final, hrun, line.pending final, horder⟩

/-- Packets that take one hop keep their order. -/
theorem keepsOrder_of_oneHop (hroutes : model.Routes Travel) (hr : r < model.tiles.totalTiles)
    (hone : model.OneHop s r) : KeepsOrder model s r := by
  apply keepsOrder_of_line hroutes
  intro Data
  exact ⟨directLine Data hroutes hr hone, rfl, rfl, rfl, rfl⟩

end NetworkModel

/-! ### Packets that are routed -/

namespace Lane

variable {model : NetworkModel} {Travel : ℕ → ℕ → ℕ → Receiver → NodeType → Prop} {s r u v : ℕ}
  {pkt : NetPacket Data} (lane : Lane model Travel s r)

/-- The stage of a packet from `s` to `r`. -/
def packetStage (u v : ℕ) (pkt : NetPacket Data) : Option ℕ :=
  if pkt.sender = s ∧ pkt.receiver.includes r then lane.stage u v pkt.nodeType else none

/-- The stages of copies of a packet. -/
theorem packetStage_along (u : ℕ) (pkt : NetPacket Data) (hops : List Hop) :
    (pkt.along hops).filterMap (fun copy ↦
        (lane.packetStage u copy.1 copy.2).map fun i ↦ (i, copy.2.data)) =
      if pkt.sender = s ∧ pkt.receiver.includes r then
        (hops.filterMap fun hop ↦ lane.stage u hop.nextTileId hop.nextNodeType).map (·, pkt.data)
      else [] := by
  unfold NetPacket.along packetStage
  rw [filterMap_map]
  simp only [Function.comp_def]
  split_ifs with hflow
  · rw [map_filterMap]
  · simp

/-- The copies of other packets are not on the lane. -/
theorem packetStage_other (hflow : ¬ (pkt.sender = s ∧ pkt.receiver.includes r))
    (hforward : model.forwardPacket u pkt = .ok copies) :
    copies.filterMap (fun copy ↦
      (lane.packetStage u copy.1 copy.2).map fun i ↦ (i, copy.2.data)) = [] := by
  rw [NetworkModel.forwardPacket_eq] at hforward
  obtain ⟨hops, -, rfl⟩ := Outcome.map_eq_ok hforward
  rw [packetStage_along, if_neg hflow]

/-- A unicast enters the lane if it is from `s` to `r`. -/
theorem packetStage_unicast (hr : model.tiles.BetweenApplicationTiles s (.tile r)) {i : ℕ}
    (hroutes : model.Routes Travel) (pkt : NetPacket Data) (htype : pkt.nodeType = .sendTile)
    (hsender : pkt.sender = u) (hreceiver : pkt.receiver = .tile i)
    (hforward : model.forwardPacket u pkt = .ok copies) :
    copies.filterMap (fun copy ↦ (lane.packetStage u copy.1 copy.2).map fun i ↦ (i, copy.2.data)) =
      if u = s ∧ i = r then [(0, pkt.data)] else [] := by
  by_cases hflow : u = s ∧ i = r
  · obtain ⟨rfl, rfl⟩ := hflow
    obtain ⟨hops, hroute, _⟩ := hroutes.start u (.tile i) hr nofun
    rw [NetworkModel.forwardPacket_of_unicast htype hsender hreceiver hr, hroute] at hforward
    obtain rfl := ok.inj hforward
    rw [packetStage_along, lane.start _ _ (by simp [Receiver.includes]) hroute]
    simp [hsender, hreceiver, Receiver.includes]
  · rw [lane.packetStage_other _ hforward, if_neg hflow]
    simpa [hsender, hreceiver, Receiver.includes] using hflow

/-- A broadcast enters the lane if it is from `s`. -/
theorem packetStage_broadcast (hs : model.tiles.isApplicationTile s) (hroutes : model.Routes Travel)
    (hcapability : model.hasBroadcastCapability = true) (htype : pkt.nodeType = .sendTile)
    (hsender : pkt.sender = u) (hreceiver : pkt.receiver = .broadcast)
    (hforward : model.forwardPacket u pkt = .ok copies) :
    copies.filterMap (fun copy ↦ (lane.packetStage u copy.1 copy.2).map fun i ↦ (i, copy.2.data)) =
      if u = s then [(0, pkt.data)] else [] := by
  by_cases hflow : u = s
  · subst hflow
    obtain ⟨hops, hroute, _⟩ := hroutes.start u .broadcast hs fun _ ↦ hcapability
    rw [NetworkModel.forwardPacket_of_broadcast htype hsender hreceiver hs, hroute] at hforward
    obtain rfl := ok.inj hforward
    -- the lane has no hops to system tiles
    have hdirect : (model.systemTiles.map (·, pkt.atReceiver)).filterMap (fun copy ↦
        (lane.packetStage u copy.1 copy.2).map fun i ↦ (i, copy.2.data)) = [] := by
      apply filterMap_eq_nil_iff.mpr
      intro copy hcopy
      obtain ⟨i, hi, rfl⟩ := mem_map.mp hcopy
      have hnone : lane.stage u i .receiveTile = none := by
        by_contra hsome
        obtain ⟨j, hj⟩ := Option.ne_none_iff_exists'.mp hsome
        exact TileCounts.not_system_of_application (lane.application _ _ _ _ hj)
          (NetworkModel.mem_systemTiles.mp hi)
      simp only [packetStage, NetPacket.atReceiver, hnone, ite_self, Option.map_none]
    rw [filterMap_append, hdirect, packetStage_along,
      lane.start _ _ (by simp [Receiver.includes]) hroute]
    simp [hsender, hreceiver, Receiver.includes]
  · rw [lane.packetStage_other (fun hboth ↦ hflow (hsender ▸ hboth.1)) hforward, if_neg hflow]

/-- The line of the packets from `s` to `r` that the model routes. -/
def line (Data : Type) (hroutes : model.Routes Travel)
    (hbetween : model.tiles.BetweenApplicationTiles s (.tile r)) :
    StoreForward.Line (model.network Data) (Sendable model.tiles) (UnderWay model Travel) Data where
  receiver := r
  flow := fun u pkt ↦ u = s ∧ pkt.receiver.includes r
  arrived := fun pkt ↦ pkt.sender = s
  tag := NetPacket.data
  length := lane.length
  source := lane.source
  target := lane.target
  stage := lane.packetStage
  stage_channel := by
    intro u v pkt i hstage
    unfold packetStage at hstage
    split_ifs at hstage with hflow
    exact lane.stage_channel _ _ _ _ hstage
  send := by
    intro u pkt copies hsendable hsend
    simp only [decide_eq_true_eq]
    have hr : r < model.tiles.totalTiles :=
      Nat.lt_of_lt_of_le hbetween.2.1 model.tiles.application_le_total
    apply NetworkModel.netSend_filterMap _ _ hsendable hr hroutes _ _ hsend
    · intro i copies _ hforward
      exact lane.packetStage_unicast hbetween hroutes (pkt.unicast i) hsendable.nodeType
        hsendable.sender rfl hforward
    · intro copies hreceiver hcapability hforward
      exact lane.packetStage_broadcast hbetween.1 hroutes hcapability hsendable.nodeType
        hsendable.sender hreceiver hforward
  forward := by
    intro u v pkt copies hunderway hready hforward
    have htype : pkt.nodeType ≠ .receiveTile := of_decide_eq_false hready
    rcases hunderway with hdirect | htravel
    · exact absurd hdirect.nodeType htype
    obtain ⟨hops, hrouted, hroute, -⟩ := hroutes.forward_routed htravel htype
    obtain rfl := ok.inj (hforward.symm.trans hrouted)
    rw [packetStage_along]
    unfold packetStage
    split_ifs with hflow
    · obtain ⟨rfl, hincludes⟩ := hflow
      rw [lane.next u v _ _ hops hincludes htravel htype hroute]
      cases lane.stage u v pkt.nodeType <;> rfl
    · rfl
  ready := by
    intro u v pkt hunderway hready
    have htype : pkt.nodeType = .receiveTile := of_decide_eq_true hready
    simp only [decide_eq_true_eq]
    unfold packetStage
    rw [htype]
    rcases hunderway with hdirect | htravel
    · -- a packet on one hop is not on the lane
      have hs := TileCounts.not_system_of_application hbetween.1
      have hr := TileCounts.not_system_of_application hbetween.2.1
      have hend : ¬ (v = r ∧ pkt.sender = s) := by
        rintro ⟨rfl, hsender⟩
        rcases hdirect.adjacent with hu | hv | ⟨hself, _⟩
        · exact hs (hsender ▸ hdirect.sender ▸ hu)
        · exact hr hv
        · exact hbetween.2.2 (hsender.symm.trans (hdirect.sender.trans hself))
      rw [if_neg hend]
      split_ifs with hflow
      · by_contra hsome
        obtain ⟨i, hi⟩ := Option.ne_none_iff_exists'.mp hsome
        have happlication := lane.application _ _ _ _ hi
        rcases hdirect.adjacent with hu | hv | ⟨hself, hreceiver⟩
        · exact hs (hflow.1 ▸ hdirect.sender ▸ hu)
        · exact TileCounts.not_system_of_application happlication hv
        · have hvr : v = r := by
            simpa [hreceiver, Receiver.includes] using hflow.2
          exact hend ⟨hvr, hflow.1⟩
      · rfl
    · rw [htype] at htravel
      have hreceiver := (hroutes.last _ _ _ _ htravel).2
      by_cases hsender : pkt.sender = s
      · subst hsender
        by_cases hincludes : pkt.receiver.includes r = true
        · rw [if_pos ⟨rfl, hincludes⟩, lane.last u v _ hincludes htravel]
          simp
        · have hv : v ≠ r := by
            rintro rfl
            exact hincludes (Receiver.includes_iff.mpr hreceiver)
          rw [if_neg fun hflow ↦ hincludes hflow.2, if_neg fun hend ↦ hv hend.1]
      · rw [if_neg fun hflow ↦ hsender hflow.1, if_neg fun hend ↦ hsender hend.2]

/-- Two application tiles with a lane between them keep the order of their packets. -/
theorem keepsOrder (lane : Lane model Travel s r) (hroutes : model.Routes Travel)
    (hbetween : model.tiles.BetweenApplicationTiles s (.tile r)) : KeepsOrder model s r := by
  apply NetworkModel.keepsOrder_of_line hroutes
  intro Data
  exact ⟨lane.line Data hroutes hbetween, rfl, rfl, rfl, rfl⟩

end Lane

end CarbonSim.Network
