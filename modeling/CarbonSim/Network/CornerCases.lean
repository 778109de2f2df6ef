import CarbonSim.Network.NetPacket

/-!
# Hops without routing

What `forwardPacket` and `netSend` do with each kind of packet: packets of a tile to itself, and
those from and to the system tiles, take one hop; the others take the hops of the routing model.
-/

namespace CarbonSim.Network

open List

variable {Data : Type}

/-- The copies of a packet for the given hops. -/
def NetPacket.along (pkt : NetPacket Data) (hops : List Hop) : List (ℕ × NetPacket Data) :=
  hops.map fun hop ↦ (hop.nextTileId, { pkt with nodeType := hop.nextNodeType })

/-- The packet as it is received. -/
def NetPacket.atReceiver (pkt : NetPacket Data) : NetPacket Data :=
  { pkt with nodeType := .receiveTile }

/-- The packet that stands for a broadcast at tile `i`. -/
def NetPacket.unicast (pkt : NetPacket Data) (i : ℕ) : NetPacket Data :=
  { pkt with receiver := .tile i }

/-- A packet as a tile hands it to `netSend`. -/
structure Sendable (tiles : TileCounts) (u : ℕ) (pkt : NetPacket Data) : Prop where
  nodeType : pkt.nodeType = .sendTile
  sender : pkt.sender = u
  sender_lt : u < tiles.totalTiles
  receiver_lt : ∀ r, pkt.receiver = .tile r → r < tiles.totalTiles

/-- A unicast between these takes one hop. -/
def TileCounts.Adjacent (tiles : TileCounts) (s r : ℕ) : Prop :=
  s = r ∨ tiles.isSystemTile s ∨ tiles.isSystemTile r

instance (tiles : TileCounts) (s r : ℕ) : Decidable (tiles.Adjacent s r) :=
  inferInstanceAs (Decidable (_ ∨ _))

theorem TileCounts.application_of_not_system {tiles : TileCounts} {i : ℕ}
    (hlt : i < tiles.totalTiles) (hsystem : ¬ tiles.isSystemTile i) : tiles.isApplicationTile i := by
  unfold isSystemTile at hsystem
  unfold isApplicationTile
  omega

theorem TileCounts.not_system_of_application {tiles : TileCounts} {i : ℕ}
    (happlication : tiles.isApplicationTile i) : ¬ tiles.isSystemTile i := by
  unfold isApplicationTile at happlication
  unfold isSystemTile
  omega

/-- Over a list of different tiles, only one of which contributes. -/
theorem flatMap_ite_eq {β : Type} {ids : List ℕ} (hnodup : ids.Nodup) (r : ℕ) (l : List β) :
    (ids.flatMap fun i ↦ if i = r then l else []) = if r ∈ ids then l else [] := by
  induction ids with
  | nil => simp
  | cons i ids ih =>
    obtain ⟨hfresh, hrest⟩ := nodup_cons.mp hnodup
    rw [flatMap_cons, ih hrest]
    by_cases hi : i = r
    · subst hi
      simp [hfresh]
    · simp [hi, Ne.symm hi]

namespace NetworkModel

variable {model : NetworkModel} {pkt : NetPacket Data} {u v r : ℕ}

theorem forwardPacket_eq (model : NetworkModel) (v : ℕ) (pkt : NetPacket Data) :
    model.forwardPacket v pkt = (model.routePacketAt v pkt).map pkt.along := by
  unfold forwardPacket
  cases model.routePacketAt v pkt <;> rfl

/-- A packet on its way between application tiles is routed by the model. -/
theorem forwardPacket_of_routed (htype : pkt.nodeType ≠ .sendTile)
    (hbetween : model.tiles.BetweenApplicationTiles pkt.sender pkt.receiver) :
    model.forwardPacket v pkt =
      (model.routePacket v pkt.sender pkt.receiver pkt.nodeType).map pkt.along := by
  rw [forwardPacket_eq]
  simp [routePacketAt, if_neg htype, routeBetweenApplicationTiles, require, if_pos hbetween, bind,
    Except.bind]

/-- The system tiles. -/
def systemTiles (model : NetworkModel) : List ℕ :=
  List.range' model.tiles.applicationTiles (model.tiles.totalTiles - model.tiles.applicationTiles)

theorem mem_systemTiles : r ∈ model.systemTiles ↔ model.tiles.isSystemTile r := by
  unfold systemTiles TileCounts.isSystemTile
  rw [mem_range'_1]
  omega

theorem nodup_systemTiles : model.systemTiles.Nodup := nodup_range'

section

variable (htype : pkt.nodeType = .sendTile) (hsender : pkt.sender = u)

include htype hsender

/-- A unicast to the sender, or from or to a system tile. -/
theorem forwardPacket_of_adjacent (hreceiver : pkt.receiver = .tile r)
    (hadjacent : model.tiles.Adjacent u r) :
    model.forwardPacket u pkt = .ok [(r, pkt.atReceiver)] := by
  have hcorner : model.processCornerCases u pkt = .ok (true, [⟨r, .receiveTile⟩]) := by
    simp only [processCornerCases, require, hsender, hreceiver, if_true, bind, Except.bind, pure,
      Except.pure]
    by_cases hself : u = r
    · rw [if_pos hself]
    rw [if_neg hself]
    by_cases hsystem : model.tiles.isSystemTile u
    · rw [if_pos hsystem]
    rw [if_neg hsystem, if_pos ((hadjacent.resolve_left hself).resolve_left hsystem)]
  rw [forwardPacket_eq]
  simp only [routePacketAt, htype, hsender, if_true, require, hcorner, bind, Except.bind, pure,
    Except.pure]
  rfl

/-- A unicast between two application tiles. -/
theorem forwardPacket_of_unicast (hreceiver : pkt.receiver = .tile r)
    (hbetween : model.tiles.BetweenApplicationTiles u (.tile r)) :
    model.forwardPacket u pkt = (model.routePacket u u (.tile r) .sendTile).map pkt.along := by
  have hu := TileCounts.not_system_of_application hbetween.1
  have hr := TileCounts.not_system_of_application hbetween.2.1
  have hcorner : model.processCornerCases u pkt = .ok (false, []) := by
    simp [processCornerCases, require, hsender, hreceiver, bind, Except.bind, pure, Except.pure,
      if_neg hbetween.2.2, if_neg hu, if_neg hr, if_pos hbetween]
  rw [forwardPacket_eq]
  simp only [routePacketAt, htype, hsender, hreceiver, if_true, require, hcorner, bind,
    Except.bind, pure, Except.pure, Bool.false_eq_true, if_false, routeBetweenApplicationTiles,
    if_pos hbetween, nil_append]
  cases model.routePacket u u (.tile r) .sendTile <;> rfl

/-- A broadcast from a system tile. -/
theorem forwardPacket_of_system (hreceiver : pkt.receiver = .broadcast)
    (hsystem : model.tiles.isSystemTile u) :
    model.forwardPacket u pkt =
      .ok ((List.range model.tiles.totalTiles).map (·, pkt.atReceiver)) := by
  have hcorner : model.processCornerCases u pkt =
      .ok (true, (List.range model.tiles.totalTiles).map (⟨·, .receiveTile⟩)) := by
    simp [processCornerCases, require, hsender, hreceiver, bind, Except.bind, pure, Except.pure,
      if_pos hsystem]
  subst hsender
  rw [forwardPacket_eq]
  simp only [routePacketAt, htype, if_true, require, hcorner, bind, Except.bind, pure,
    Except.pure, Except.map, NetPacket.along, map_map]
  rfl

/-- A broadcast from an application tile: one hop to each system tile, the others by the model. -/
theorem forwardPacket_of_broadcast (hreceiver : pkt.receiver = .broadcast)
    (happlication : model.tiles.isApplicationTile u) :
    model.forwardPacket u pkt = (model.routePacket u u .broadcast .sendTile).map fun hops ↦
      model.systemTiles.map (·, pkt.atReceiver) ++ pkt.along hops := by
  have hu := TileCounts.not_system_of_application happlication
  have hbetween : model.tiles.BetweenApplicationTiles u .broadcast := happlication
  have hcorner : model.processCornerCases u pkt =
      .ok (false, model.systemTiles.map (⟨·, .receiveTile⟩)) := by
    simp only [processCornerCases, require, hsender, hreceiver, if_true, bind, Except.bind, pure,
      Except.pure, if_neg hu, if_pos hbetween]
    rfl
  subst hsender
  rw [forwardPacket_eq]
  simp only [routePacketAt, htype, hreceiver, if_true, require, hcorner, bind,
    Except.bind, pure, Except.pure, Bool.false_eq_true, if_false, routeBetweenApplicationTiles,
    if_pos hbetween]
  cases model.routePacket pkt.sender pkt.sender .broadcast .sendTile with
  | error fault => rfl
  | ok hops =>
    simp only [Except.map, NetPacket.along, map_append, map_map]
    rfl

end

/-- A unicast, and a broadcast where the model has the capability, is sent as one packet. -/
theorem netSend_eq_forwardPacket
    (hone : pkt.receiver = .broadcast → model.hasBroadcastCapability = true) :
    model.netSend u pkt = model.forwardPacket u pkt := by
  unfold netSend
  rw [if_neg]
  rintro ⟨hbroadcast, hnone⟩
  exact hnone (hone hbroadcast)

/-- A broadcast without the capability is sent as one unicast for each tile. -/
theorem netSend_of_unicasts {hops : ℕ → List (ℕ × NetPacket Data)}
    (hreceiver : pkt.receiver = .broadcast) (hnone : model.hasBroadcastCapability = false)
    (hforward : ∀ i < model.tiles.totalTiles,
      model.forwardPacket u (pkt.unicast i) = .ok (hops i)) :
    model.netSend u pkt = .ok ((List.range model.tiles.totalTiles).flatMap hops) := by
  have hall : ∀ is : List ℕ, (∀ i ∈ is, i < model.tiles.totalTiles) →
      (is.mapM fun i ↦ model.forwardPacket u { pkt with receiver := .tile i }) =
        .ok (is.map hops) := by
    intro is his
    induction is with
    | nil => rfl
    | cons i is ih =>
      have hfirst : model.forwardPacket u { pkt with receiver := .tile i } = .ok (hops i) :=
        hforward i (his i mem_cons_self)
      have hrest := ih fun j hj ↦ his j (mem_cons_of_mem _ hj)
      simp [hfirst, hrest, bind, Except.bind, pure, Except.pure]
  unfold netSend
  rw [if_pos ⟨hreceiver, by simp [hnone]⟩, hall _ fun i hi ↦ mem_range.mp hi]
  rfl

end NetworkModel

/-! ### Packets under way -/

/-- A packet on a hop that needs no routing. -/
structure Direct (tiles : TileCounts) (u v : ℕ) (pkt : NetPacket Data) : Prop where
  nodeType : pkt.nodeType = .receiveTile
  sender : pkt.sender = u
  receiver : pkt.receiver = .tile v ∨ pkt.receiver = .broadcast
  adjacent : tiles.isSystemTile u ∨ tiles.isSystemTile v ∨ u = v ∧ pkt.receiver = .tile v

/-- What a routing model has to say about the packets between application tiles that are under way:
`Travel u v s receiver t` holds of those in the channel from `u` to `v`. -/
structure NetworkModel.Routes (model : NetworkModel)
    (Travel : ℕ → ℕ → ℕ → Receiver → NodeType → Prop) : Prop where
  start : ∀ s receiver, model.tiles.BetweenApplicationTiles s receiver →
    (receiver = .broadcast → model.hasBroadcastCapability = true) →
    ∃ hops, model.routePacket s s receiver .sendTile = .ok hops ∧
      ∀ hop ∈ hops, Travel s hop.nextTileId s receiver hop.nextNodeType
  next : ∀ u v s receiver t, Travel u v s receiver t → t ≠ .receiveTile →
    ∃ hops, model.routePacket v s receiver t = .ok hops ∧
      ∀ hop ∈ hops, Travel v hop.nextTileId s receiver hop.nextNodeType
  between : ∀ u v s receiver t, Travel u v s receiver t →
    model.tiles.BetweenApplicationTiles s receiver
  capability : ∀ u v s t, Travel u v s .broadcast t → model.hasBroadcastCapability = true
  started : ∀ u v s receiver t, Travel u v s receiver t → t ≠ .sendTile
  last : ∀ u v s receiver, Travel u v s receiver .receiveTile →
    model.tiles.isApplicationTile v ∧ (receiver = .tile v ∨ receiver = .broadcast)

/-- A packet in the channel from `u` to `v`. -/
def UnderWay (model : NetworkModel) (Travel : ℕ → ℕ → ℕ → Receiver → NodeType → Prop) (u v : ℕ)
    (pkt : NetPacket Data) : Prop :=
  Direct model.tiles u v pkt ∨ Travel u v pkt.sender pkt.receiver pkt.nodeType

namespace NetworkModel

variable {model : NetworkModel} {Travel : ℕ → ℕ → ℕ → Receiver → NodeType → Prop}
  {pkt : NetPacket Data} {u v r : ℕ}

theorem adjacent_or_between (hu : u < model.tiles.totalTiles) (hr : r < model.tiles.totalTiles) :
    model.tiles.Adjacent u r ∨ model.tiles.BetweenApplicationTiles u (.tile r) := by
  by_cases hadjacent : model.tiles.Adjacent u r
  · exact .inl hadjacent
  · unfold TileCounts.Adjacent at hadjacent
    push Not at hadjacent
    exact .inr ⟨TileCounts.application_of_not_system hu hadjacent.2.1,
      TileCounts.application_of_not_system hr hadjacent.2.2, hadjacent.1⟩

theorem UnderWay.along {hops : List Hop}
    (htravel : ∀ hop ∈ hops, Travel u hop.nextTileId pkt.sender pkt.receiver hop.nextNodeType) :
    ∀ copy ∈ pkt.along hops, UnderWay model Travel u copy.1 copy.2 := by
  intro copy hcopy
  obtain ⟨hop, hhop, rfl⟩ := mem_map.mp hcopy
  exact .inr (htravel hop hhop)

/-- A unicast can be forwarded from its sender. -/
theorem Routes.forward_unicast (hroutes : model.Routes Travel) (pkt : NetPacket Data)
    (htype : pkt.nodeType = .sendTile) (hsender : pkt.sender = u) (hreceiver : pkt.receiver = .tile r)
    (hu : u < model.tiles.totalTiles) (hr : r < model.tiles.totalTiles) :
    ∃ copies, model.forwardPacket u pkt = .ok copies ∧
      ∀ copy ∈ copies, UnderWay model Travel u copy.1 copy.2 := by
  rcases adjacent_or_between hu hr with hadjacent | hbetween
  · refine ⟨_, forwardPacket_of_adjacent htype hsender hreceiver hadjacent, ?_⟩
    intro copy hcopy
    obtain rfl := mem_singleton.mp hcopy
    refine .inl ⟨rfl, hsender, .inl hreceiver, ?_⟩
    rcases hadjacent with hself | hu | hr
    · exact .inr (.inr ⟨hself, hreceiver⟩)
    · exact .inl hu
    · exact .inr (.inl hr)
  · obtain ⟨hops, hroute, htravel⟩ := hroutes.start u (.tile r) hbetween nofun
    refine ⟨pkt.along hops, ?_, UnderWay.along ?_⟩
    · rw [forwardPacket_of_unicast htype hsender hreceiver hbetween, hroute]
      rfl
    · rw [hsender, hreceiver]
      exact htravel

/-- A broadcast can be forwarded from its sender. -/
theorem Routes.forward_broadcast (hroutes : model.Routes Travel)
    (hcapability : model.hasBroadcastCapability = true) (htype : pkt.nodeType = .sendTile)
    (hsender : pkt.sender = u) (hreceiver : pkt.receiver = .broadcast)
    (hu : u < model.tiles.totalTiles) :
    ∃ copies, model.forwardPacket u pkt = .ok copies ∧
      ∀ copy ∈ copies, UnderWay model Travel u copy.1 copy.2 := by
  by_cases hsystem : model.tiles.isSystemTile u
  · refine ⟨_, forwardPacket_of_system htype hsender hreceiver hsystem, ?_⟩
    intro copy hcopy
    obtain ⟨i, _, rfl⟩ := mem_map.mp hcopy
    exact .inl ⟨rfl, hsender, .inr hreceiver, .inl hsystem⟩
  · have happlication := TileCounts.application_of_not_system hu hsystem
    obtain ⟨hops, hroute, htravel⟩ := hroutes.start u .broadcast happlication fun _ ↦ hcapability
    refine ⟨model.systemTiles.map (·, pkt.atReceiver) ++ pkt.along hops, ?_, ?_⟩
    · rw [forwardPacket_of_broadcast htype hsender hreceiver happlication, hroute]
      rfl
    · intro copy hcopy
      rcases mem_append.mp hcopy with hdirect | hrouted
      · obtain ⟨i, hi, rfl⟩ := mem_map.mp hdirect
        exact .inl ⟨rfl, hsender, .inr hreceiver, .inr (.inl (mem_systemTiles.mp hi))⟩
      · apply UnderWay.along _ copy hrouted
        rw [hsender, hreceiver]
        exact htravel

/-- A packet on its way is routed on. -/
theorem Routes.forward_routed (hroutes : model.Routes Travel)
    (htravel : Travel u v pkt.sender pkt.receiver pkt.nodeType) (htype : pkt.nodeType ≠ .receiveTile) :
    ∃ hops, model.forwardPacket v pkt = .ok (pkt.along hops) ∧
      model.routePacket v pkt.sender pkt.receiver pkt.nodeType = .ok hops ∧
      ∀ hop ∈ hops, Travel v hop.nextTileId pkt.sender pkt.receiver hop.nextNodeType := by
  obtain ⟨hops, hroute, hnext⟩ := hroutes.next _ _ _ _ _ htravel htype
  refine ⟨hops, ?_, hroute, hnext⟩
  rw [forwardPacket_of_routed (hroutes.started _ _ _ _ _ htravel)
    (hroutes.between _ _ _ _ _ htravel), hroute]
  rfl

/-- Every packet that a tile sends can be forwarded, and so can what comes of it. -/
theorem Routes.typed (hroutes : model.Routes Travel) :
    StoreForward.Typed (model.network Data) (Sendable model.tiles) (UnderWay model Travel) := by
  constructor
  · intro u pkt hsendable
    cases hreceiver : pkt.receiver with
    | tile r =>
      obtain ⟨copies, hforward, hcopies⟩ := hroutes.forward_unicast pkt hsendable.nodeType
        hsendable.sender hreceiver hsendable.sender_lt (hsendable.receiver_lt r hreceiver)
      refine ⟨copies, ?_, hcopies⟩
      exact (netSend_eq_forwardPacket (by simp [hreceiver])).trans hforward
    | broadcast =>
      cases hcapability : model.hasBroadcastCapability with
      | true =>
        obtain ⟨copies, hforward, hcopies⟩ := hroutes.forward_broadcast hcapability
          hsendable.nodeType hsendable.sender hreceiver hsendable.sender_lt
        refine ⟨copies, ?_, hcopies⟩
        exact (netSend_eq_forwardPacket fun _ ↦ hcapability).trans hforward
      | false =>
        have hunicast (i : ℕ) (hi : i < model.tiles.totalTiles) :=
          hroutes.forward_unicast (pkt.unicast i) hsendable.nodeType hsendable.sender rfl
            hsendable.sender_lt hi
        choose! hops hhops using hunicast
        refine ⟨_, netSend_of_unicasts hreceiver hcapability fun i hi ↦ (hhops i hi).1, ?_⟩
        intro copy hcopy
        obtain ⟨i, hi, hmem⟩ := mem_flatMap.mp hcopy
        exact (hhops i (mem_range.mp hi)).2 copy hmem
  · intro u v pkt hunderway hready
    have htype : pkt.nodeType ≠ .receiveTile := of_decide_eq_false hready
    rcases hunderway with hdirect | htravel
    · exact absurd hdirect.nodeType htype
    · obtain ⟨hops, hforward, -, hnext⟩ := hroutes.forward_routed htravel htype
      exact ⟨pkt.along hops, hforward, UnderWay.along hnext⟩

end NetworkModel

end CarbonSim.Network
