import CarbonSim.Network.PairOrder

/-!
# Packets that overtake each other

Runs in which a tile sends a broadcast and then a unicast, and the receiver gets the unicast first.
In every model that can broadcast, a tile overtakes itself in this way (`not_keepsOrder_self`): its
broadcast has to pass its own router, a unicast to itself takes one hop.
-/

namespace CarbonSim.Network

open StoreForward

variable {model : NetworkModel} {s : ℕ} {t : NodeType} {hops : List Hop}

/-- The first of two packets that a tile sends: a broadcast, at the given node type. -/
def leading (s : ℕ) (t : NodeType) : NetPacket Bool := ⟨s, .broadcast, t, true⟩

/-- The second of two packets that a tile sends: a unicast to `r`. -/
def trailing (s r : ℕ) (t : NodeType) : NetPacket Bool := ⟨s, .tile r, t, false⟩

/-- A run in which `s` sends a broadcast and then a unicast to `r`, and `r` has only received the
unicast. -/
theorem not_keepsOrder_of_overtaking {r : ℕ} (hs : s < model.tiles.totalTiles)
    (hr : r < model.tiles.totalTiles) (pulls : List (ℕ × ℕ)) {final : State ℕ (NetPacket Bool)}
    (hrun : run (model.network Bool) .empty (.send s (leading s .sendTile) ::
      .send s (trailing s r .sendTile) :: pulls.map fun c ↦ .pull c.1 c.2) = .ok final)
    (hreceived : final.received r = [trailing s r .receiveTile]) : ¬ KeepsOrder model s r := by
  intro hkeeps
  have hsends : Sends (Sendable model.tiles) (.send s (leading s .sendTile) ::
      .send s (trailing s r .sendTile) :: pulls.map fun c ↦ .pull c.1 c.2) := by
    intro u pkt hmem
    simp only [List.mem_cons, Action.send.injEq, List.mem_map, reduceCtorEq, and_false,
      exists_const, or_false] at hmem
    rcases hmem with ⟨rfl, rfl⟩ | ⟨rfl, rfl⟩
    · exact ⟨rfl, rfl, hs, nofun⟩
    · refine ⟨rfl, rfl, hs, ?_⟩
      intro i hi
      rwa [← Receiver.tile.inj hi]
  obtain ⟨last, hlast, horder⟩ := hkeeps Bool _ hsends
  obtain rfl := Except.ok.inj (hrun.symm.trans hlast)
  have hsent : sentTo s r (.send s (leading s .sendTile) :: .send s (trailing s r .sendTile) ::
      pulls.map fun c ↦ .pull c.1 c.2) = [true, false] := by
    simp [sentTo, leading, trailing, Receiver.includes, List.filterMap_map]
  have hfirst : receivedFrom s r final = [false] := by
    simp [receivedFrom, hreceived, trailing]
  rw [hsent, hfirst] at horder
  exact absurd horder (by decide)

/-- The broadcast enters the network. -/
theorem netSend_leading (hcapability : model.hasBroadcastCapability = true)
    (hs : model.tiles.isApplicationTile s)
    (hstart : model.routePacket s s .broadcast .sendTile = .ok [⟨s, t⟩]) :
    model.netSend s (leading s .sendTile) =
      .ok (model.systemTiles.map (·, leading s .receiveTile) ++ [(s, leading s t)]) := by
  have hforward : model.forwardPacket s (leading s .sendTile) = _ :=
    NetworkModel.forwardPacket_of_broadcast rfl rfl rfl hs
  rw [hstart] at hforward
  exact (NetworkModel.netSend_eq_forwardPacket fun _ ↦ hcapability).trans hforward

/-- The broadcast enters only one channel from its sender to an application tile. -/
theorem netSend_leading_channel (hs : model.tiles.isApplicationTile s) :
    ((State.empty.push s (model.systemTiles.map (·, leading s .receiveTile) ++
      [(s, leading s t)])).channel s s) = [leading s t] := by
  have hothers : (model.systemTiles.map (·, leading s .receiveTile)).filter (·.1 = s) = [] := by
    apply List.filter_eq_nil_iff.mpr
    intro copy hcopy
    obtain ⟨i, hi, rfl⟩ := List.mem_map.mp hcopy
    have hsystem := NetworkModel.mem_systemTiles.mp hi
    have hne : i ≠ s := fun heq ↦ TileCounts.not_system_of_application hs (heq ▸ hsystem)
    simpa using hne
  simp [State.push_channel, State.empty, List.filter_append, hothers]

/-- The broadcast is routed on. -/
theorem forwardPacket_leading {v : ℕ} (hs : model.tiles.isApplicationTile s)
    (hstarted : t ≠ .sendTile) (hroute : model.routePacket v s .broadcast t = .ok hops) :
    model.forwardPacket v (leading s t) = .ok ((leading s t).along hops) := by
  have hforward : model.forwardPacket v (leading s t) = _ :=
    NetworkModel.forwardPacket_of_routed hstarted hs
  exact hforward.trans (congrArg (Except.map _) hroute)

/-- A tile that broadcasts through its own router does not keep the order of what it sends to
itself: a unicast to itself takes one hop and overtakes the broadcast. -/
theorem not_keepsOrder_self (hcapability : model.hasBroadcastCapability = true)
    (hs : model.tiles.isApplicationTile s) (hrouted : t ≠ .receiveTile) (hstarted : t ≠ .sendTile)
    (hstart : model.routePacket s s .broadcast .sendTile = .ok [⟨s, t⟩])
    (hnext : model.routePacket s s .broadcast t = .ok hops) : ¬ KeepsOrder model s s := by
  have hlt : s < model.tiles.totalTiles := Nat.lt_of_lt_of_le hs model.tiles.application_le_total
  have hsend := netSend_leading hcapability hs hstart
  have hsend' : model.netSend s (trailing s s .sendTile) = .ok [(s, trailing s s .receiveTile)] :=
    (NetworkModel.netSend_eq_forwardPacket (by simp [trailing])).trans
      (NetworkModel.forwardPacket_of_adjacent rfl rfl rfl (.inl rfl))
  have hforward := forwardPacket_leading hs hstarted hnext
  generalize hqueued : (State.empty.push s (model.systemTiles.map (·, leading s .receiveTile) ++
    [(s, leading s t)])).push s [(s, trailing s s .receiveTile)] = queued
  have hchannel : queued.channel s s = [leading s t, trailing s s .receiveTile] := by
    rw [← hqueued, State.push_channel, netSend_leading_channel hs]
    simp
  have hnothing : queued.received s = [] := by
    rw [← hqueued]
    rfl
  generalize hrouted' : (queued.drop s s [trailing s s .receiveTile]).push s
    ((leading s t).along hops) = routed
  have hfirst : routed.channel s s = trailing s s .receiveTile ::
      if s = s then (((leading s t).along hops).filter (·.1 = s)).map Prod.snd else [] := by
    rw [← hrouted', State.push_channel, State.drop_channel, if_pos ⟨rfl, rfl⟩]
    rfl
  apply not_keepsOrder_of_overtaking hlt hlt [(s, s), (s, s)]
  · rw [run_cons (perform_send hsend), run_cons (perform_send hsend'), hqueued, List.map_cons,
      run_cons (perform_route hchannel (decide_eq_false hrouted) hforward), hrouted',
      List.map_cons, run_cons (perform_receive hfirst rfl)]
    rfl
  · rw [State.receive_received, if_pos rfl, State.drop_received, ← hrouted', State.push_received,
      State.drop_received, hnothing]
    rfl

end CarbonSim.Network
