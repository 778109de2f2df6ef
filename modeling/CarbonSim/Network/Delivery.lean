import CarbonSim.Network.CornerCases

/-!
# Delivery of the packets that a tile sends

How a packet from `netSend` reaches its receivers, given how the routing model delivers those between
application tiles. A broadcast of a model without the capability is followed as one unicast for each
tile.
-/

namespace CarbonSim.Network.NetworkModel

open StoreForward

variable {Data : Type} {model : NetworkModel} {pkt : NetPacket Data} {fuel u r : ℕ}
  {ways : ℕ → List (List (ℕ × NetPacket Data))} {hops : List Hop}

/-- A hop to a tile that receives the packet. -/
theorem reaches_receiver (v : ℕ) (pkt : NetPacket Data) :
    (model.network Data).Reaches (fuel + 1) v pkt.atReceiver fun r ↦
      if v = r then [[(v, pkt.atReceiver)]] else [] :=
  Network.Reaches.of_ready rfl

/-- Hops to different tiles that receive the packet. -/
theorem follows_receivers {ids : List ℕ} (hnodup : ids.Nodup) (pkt : NetPacket Data) :
    (model.network Data).Follows (fuel + 1) (ids.map (·, pkt.atReceiver)) fun r ↦
      if r ∈ ids then [[(r, pkt.atReceiver)]] else [] := by
  have hhops : (model.network Data).Follows (fuel + 1) (ids.map (·, pkt.atReceiver)) _ :=
    Network.Follows.map fun i _ ↦ reaches_receiver i pkt
  apply hhops.congr
  intro r
  have hsame : ∀ i ∈ ids, (if i = r then [[(i, pkt.atReceiver)]] else []) =
      if i = r then [[(r, pkt.atReceiver)]] else [] := by
    intro i _
    split_ifs with hi
    · rw [hi]
    · rfl
  rw [List.flatMap_congr hsame, flatMap_ite_eq hnodup]

/-- The copies that a tile makes of its own packet reach their receivers. -/
def Sent (model : NetworkModel) (fuel u : ℕ) (pkt : NetPacket Data)
    (ways : ℕ → List (List (ℕ × NetPacket Data))) : Prop :=
  ∃ hops, model.forwardPacket u pkt = .ok hops ∧ (model.network Data).Follows fuel hops ways

theorem Sent.congr {ways ways' : ℕ → List (List (ℕ × NetPacket Data))}
    (hsent : model.Sent fuel u pkt ways) (hsame : ∀ r, ways r = ways' r) :
    model.Sent fuel u pkt ways' := by
  obtain rfl : ways = ways' := funext hsame
  exact hsent

section

variable (htype : pkt.nodeType = .sendTile) (hsender : pkt.sender = u)

include htype hsender

/-- A unicast to the sender, or from or to a system tile. -/
theorem sent_of_adjacent (hreceiver : pkt.receiver = .tile r) (hadjacent : model.tiles.Adjacent u r) :
    model.Sent (fuel + 1) u pkt fun i ↦ if i = r then [[(r, pkt.atReceiver)]] else [] := by
  refine ⟨_, forwardPacket_of_adjacent htype hsender hreceiver hadjacent, ?_⟩
  have hnodup : [r].Nodup := by simp
  apply (follows_receivers hnodup pkt).congr
  intro i
  by_cases hi : i = r
  · simp [hi]
  · simp [hi]

/-- A broadcast from a system tile. -/
theorem sent_of_system (hreceiver : pkt.receiver = .broadcast)
    (hsystem : model.tiles.isSystemTile u) :
    model.Sent (fuel + 1) u pkt fun i ↦
      if i < model.tiles.totalTiles then [[(i, pkt.atReceiver)]] else [] := by
  refine ⟨_, forwardPacket_of_system htype hsender hreceiver hsystem, ?_⟩
  apply (follows_receivers List.nodup_range pkt).congr
  intro i
  simp only [List.mem_range]

/-- A unicast between two application tiles. -/
theorem sent_of_unicast (hreceiver : pkt.receiver = .tile r)
    (hbetween : model.tiles.BetweenApplicationTiles u (.tile r))
    (hroute : model.routePacket u u (.tile r) .sendTile = .ok hops)
    (hfollow : (model.network Data).Follows fuel (pkt.along hops) ways) :
    model.Sent fuel u pkt ways := by
  refine ⟨pkt.along hops, ?_, hfollow⟩
  rw [forwardPacket_of_unicast htype hsender hreceiver hbetween, hroute]
  rfl

/-- A broadcast from an application tile. -/
theorem sent_of_broadcast (hreceiver : pkt.receiver = .broadcast)
    (happlication : model.tiles.isApplicationTile u)
    (hroute : model.routePacket u u .broadcast .sendTile = .ok hops)
    (hfollow : (model.network Data).Follows (fuel + 1) (pkt.along hops) ways) :
    model.Sent (fuel + 1) u pkt fun i ↦
      (if model.tiles.isSystemTile i then [[(i, pkt.atReceiver)]] else []) ++ ways i := by
  refine ⟨model.systemTiles.map (·, pkt.atReceiver) ++ pkt.along hops, ?_, ?_⟩
  · rw [forwardPacket_of_broadcast htype hsender hreceiver happlication, hroute]
    rfl
  · apply ((follows_receivers nodup_systemTiles pkt).append hfollow).congr
    intro i
    simp only [mem_systemTiles]

end

/-- A packet that is sent as one is delivered as it is forwarded. -/
theorem Sent.delivers (hsent : model.Sent fuel u pkt ways)
    (hone : pkt.receiver = .broadcast → model.hasBroadcastCapability = true) :
    (model.network Data).Delivers fuel u pkt ways := by
  obtain ⟨hops, hforward, hfollow⟩ := hsent
  exact .of_send ((netSend_eq_forwardPacket hone).trans hforward) hfollow

/-- A broadcast without the capability is delivered as its unicasts are. -/
theorem delivers_of_unicasts {trail : ℕ → List (ℕ × NetPacket Data)}
    (hreceiver : pkt.receiver = .broadcast) (hnone : model.hasBroadcastCapability = false)
    (hunicast : ∀ i < model.tiles.totalTiles, model.Sent fuel u (pkt.unicast i) fun r ↦
      if r = i then [trail i] else []) :
    (model.network Data).Delivers fuel u pkt fun r ↦
      if r < model.tiles.totalTiles then [trail r] else [] := by
  choose! hops hhops using hunicast
  apply Network.Delivers.of_send (netSend_of_unicasts hreceiver hnone fun i hi ↦ (hhops i hi).1)
  have hall : (model.network Data).Follows fuel
      ((List.range model.tiles.totalTiles).flatMap hops) _ :=
    Network.Follows.flatMap fun i hi ↦ (hhops i (List.mem_range.mp hi)).2
  apply hall.congr
  intro r
  have hsame : ∀ i ∈ List.range model.tiles.totalTiles, (if r = i then [trail i] else []) =
      if i = r then [trail r] else [] := by
    intro i _
    by_cases hi : i = r
    · simp [hi]
    · simp [hi, Ne.symm hi]
  rw [List.flatMap_congr hsame, flatMap_ite_eq List.nodup_range]
  simp only [List.mem_range]

end CarbonSim.Network.NetworkModel
