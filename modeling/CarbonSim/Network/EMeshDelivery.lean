import CarbonSim.Network.Delivery
import CarbonSim.Network.EMeshOrder

/-!
# Delivery in the electrical mesh

A packet followed hop by hop from its sender. A unicast visits the points of its route and is then
received (`reaches_unicast`); a broadcast is received exactly once by every tile, after the points
of the route to this tile (`reaches_broadcast`).
-/

namespace CarbonSim.Network

open List

variable {Data : Type}

/-- The packet as it is at a mesh router. -/
def NetPacket.atRouter (pkt : NetPacket Data) : NetPacket Data := { pkt with nodeType := .emesh }

namespace EMesh

open StoreForward

/-- The mesh routers that a packet has been at, in order. -/
def meshTiles (trail : List (ℕ × NetPacket Data)) : List ℕ :=
  (trail.filter fun stop ↦ stop.2.nodeType = .emesh).map Prod.fst

/-- The hops of a packet from one mesh router to the next. -/
def meshHops (trail : List (ℕ × NetPacket Data)) : ℕ := (meshTiles trail).length - 1

/-- The number of columns and rows between two tiles. -/
def distance (mesh : EMesh) (s r : ℕ) : ℕ :=
  (((mesh.computePosition s).1 : ℤ) - (mesh.computePosition r).1).natAbs +
    (((mesh.computePosition s).2 : ℤ) - (mesh.computePosition r).2).natAbs

/-- The stops of a packet on the route from `v` to `r`. -/
def trail (mesh : EMesh) (v r : ℕ) (pkt : NetPacket Data) : List (ℕ × NetPacket Data) :=
  (Grid.path (mesh.computePosition v) (mesh.computePosition r)).map
    (fun point ↦ (mesh.tileAt point, pkt.atRouter)) ++ [(r, pkt.atReceiver)]

variable {mesh : EMesh} {pkt : NetPacket Data} {v s r : ℕ}

theorem distance_eq (s r : ℕ) : mesh.distance s r = mesh.far s r := by
  unfold distance far Grid.dist Grid.gap
  omega

theorem trail_self (r : ℕ) (pkt : NetPacket Data) :
    mesh.trail r r pkt = [(r, pkt.atRouter), (r, pkt.atReceiver)] := by
  unfold trail
  rw [Grid.path_self, map_singleton, tileAt_computePosition]
  rfl

theorem trail_eq_cons (hv : mesh.tiles.isApplicationTile v) (hr : mesh.tiles.isApplicationTile r)
    (hne : v ≠ r) (pkt : NetPacket Data) :
    mesh.trail v r pkt = (v, pkt.atRouter) :: mesh.trail (mesh.nextTile v r) r pkt := by
  have hpoints := mesh.computePosition_ne hne
  have hinside := ((Grid.onPath_start _ _).next hpoints).1.inside (inside_computePosition hv)
    (inside_computePosition hr)
  unfold trail
  rw [Grid.path_eq_cons hpoints, computePosition_tileAt hinside, map_cons,
    tileAt_computePosition, cons_append]

theorem meshTiles_trail (v r : ℕ) (pkt : NetPacket Data) :
    meshTiles (mesh.trail v r pkt) =
      (Grid.path (mesh.computePosition v) (mesh.computePosition r)).map mesh.tileAt := by
  unfold meshTiles trail
  rw [filter_append, filter_eq_self.mpr, filter_eq_nil_iff.mpr, append_nil, map_map]
  · rfl
  · intro stop hstop
    obtain rfl := mem_singleton.mp hstop
    simp [NetPacket.atReceiver]
  · intro stop hstop
    obtain ⟨point, _, rfl⟩ := mem_map.mp hstop
    simp [NetPacket.atRouter]

theorem meshHops_trail (v r : ℕ) (pkt : NetPacket Data) :
    meshHops (mesh.trail v r pkt) = mesh.distance v r := by
  unfold meshHops
  rw [meshTiles_trail, length_map, Grid.length_path, distance_eq]
  rfl

/-- The stops are tiles of the mesh. -/
theorem application_of_mem_trail (hv : mesh.tiles.isApplicationTile v)
    (hr : mesh.tiles.isApplicationTile r) {stop : ℕ × NetPacket Data}
    (hstop : stop ∈ mesh.trail v r pkt) : mesh.tiles.isApplicationTile stop.1 := by
  rcases mem_append.mp hstop with hrouter | hend
  · obtain ⟨point, hpoint, rfl⟩ := mem_map.mp hrouter
    exact isApplicationTile_tileAt ((Grid.onPath_of_mem_path hpoint).inside
      (inside_computePosition hv) (inside_computePosition hr))
  · obtain rfl := mem_singleton.mp hend
    exact hr

/-! ### Following a packet -/

/-- The copies of a packet that a mesh router makes. -/
theorem forwardPacket_atRouter {hops : List Hop}
    (hbetween : mesh.tiles.BetweenApplicationTiles pkt.sender pkt.receiver)
    (hroute : mesh.routePacket v pkt.sender pkt.receiver .emesh = .ok hops) :
    mesh.model.forwardPacket v pkt.atRouter = .ok (pkt.along hops) := by
  have hforward : mesh.model.forwardPacket v pkt.atRouter = _ :=
    NetworkModel.forwardPacket_of_routed nofun hbetween
  exact hforward.trans (congrArg (Except.map _) hroute)

/-- A unicast follows its route. -/
theorem reaches_unicast {fuel : ℕ}
    (hbetween : mesh.tiles.BetweenApplicationTiles pkt.sender (.tile r))
    (hreceiver : pkt.receiver = .tile r) (hv : mesh.tiles.isApplicationTile v)
    (hfuel : Grid.dist (mesh.computePosition v) (mesh.computePosition r) + 2 ≤ fuel) :
    (mesh.model.network Data).Reaches fuel v pkt.atRouter fun i ↦
      if i = r then [mesh.trail v r pkt] else [] := by
  induction fuel generalizing v with
  | zero => omega
  | succ fuel ih =>
    have hr := hbetween.2.1
    have hroute := routePacket_unicast hv hr pkt.sender
    rw [← hreceiver] at hbetween hroute
    have hforward := forwardPacket_atRouter hbetween hroute
    by_cases hend : v = r
    · subst hend
      rw [if_pos rfl] at hforward
      obtain ⟨fuel, rfl⟩ : ∃ n, fuel = n + 1 := ⟨fuel - 1, by omega⟩
      have hlast : (mesh.model.network Data).Follows (fuel + 1) (pkt.along [⟨v, .receiveTile⟩]) _ :=
        Network.Follows.cons (NetworkModel.reaches_receiver v pkt) Network.Follows.nil
      apply (Network.Reaches.of_route rfl hforward hlast).congr
      intro i
      by_cases hi : i = v
      · simp [hi, trail_self]
      · simp [hi, Ne.symm hi]
    · rw [if_neg hend] at hforward
      obtain ⟨hon, hfar, _⟩ := (Grid.onPath_start _ _).next (mesh.computePosition_ne hend)
      have hinside := hon.inside (inside_computePosition hv) (inside_computePosition hr)
      have hsplit := hon.dist_add
      have hnext := ih (isApplicationTile_tileAt hinside) (by
        rw [computePosition_tileAt hinside]
        omega)
      have hrest : (mesh.model.network Data).Follows fuel (pkt.along [⟨_, .emesh⟩]) _ :=
        Network.Follows.cons hnext Network.Follows.nil
      apply (Network.Reaches.of_route rfl hforward hrest).congr
      intro i
      by_cases hi : i = r
      · simp [hi, trail_eq_cons hv hr hend]
      · simp [hi]

/-- A broadcast is received by each tile for which the router is on the route, once and after the
rest of this route. -/
theorem reaches_broadcast {fuel : ℕ} (hs : mesh.tiles.isApplicationTile pkt.sender)
    (hreceiver : pkt.receiver = .broadcast) (hv : mesh.tiles.isApplicationTile v)
    (hfuel : mesh.meshWidth + mesh.meshHeight ≤
      fuel + Grid.dist (mesh.computePosition pkt.sender) (mesh.computePosition v)) :
    (mesh.model.network Data).Reaches fuel v pkt.atRouter fun i ↦
      if mesh.tiles.isApplicationTile i ∧ Grid.OnPath (mesh.computePosition pkt.sender)
          (mesh.computePosition i) (mesh.computePosition v)
      then [mesh.trail v i pkt] else [] := by
  -- the depth of the tree below a tile is bounded by the size of the mesh
  induction fuel generalizing v with
  | zero =>
    have hdepth := Grid.dist_lt_of_inside (inside_computePosition hs) (inside_computePosition hv)
    omega
  | succ fuel ih =>
    have hdepth := Grid.dist_lt_of_inside (inside_computePosition hs) (inside_computePosition hv)
    have hbetween : mesh.tiles.BetweenApplicationTiles pkt.sender pkt.receiver := by
      rw [hreceiver]
      exact hs
    have hroute := routePacket_broadcast hv pkt.sender
    rw [← hreceiver] at hroute
    have hforward := forwardPacket_atRouter hbetween hroute
    obtain ⟨fuel, rfl⟩ : ∃ n, fuel = n + 1 := ⟨fuel - 1, by omega⟩
    have hreach : ∀ child ∈ mesh.branches pkt.sender v,
        (mesh.model.network Data).Reaches (fuel + 1) (mesh.tileAt child) pkt.atRouter fun i ↦
          if mesh.tiles.isApplicationTile i ∧ Grid.OnPath (mesh.computePosition pkt.sender)
              (mesh.computePosition i) child
          then [mesh.trail (mesh.tileAt child) i pkt] else [] := by
      intro child hchild
      obtain ⟨hinside, hstart, hparent⟩ := (Grid.mem_children (inside_computePosition hv)).mp hchild
      have hfar := Grid.dist_parent hstart
      rw [hparent] at hfar
      have hpoint := computePosition_tileAt hinside
      have hbelow := ih (isApplicationTile_tileAt hinside) (by
        rw [hpoint, hfar]
        omega)
      rwa [hpoint] at hbelow
    have hchildren : (mesh.model.network Data).Follows (fuel + 1)
        ((mesh.branches pkt.sender v).map fun child ↦ (mesh.tileAt child, pkt.atRouter))
        fun i ↦ (mesh.branches pkt.sender v).flatMap fun child ↦
            if mesh.tiles.isApplicationTile i ∧ Grid.OnPath (mesh.computePosition pkt.sender)
              (mesh.computePosition i) child
            then [mesh.trail (mesh.tileAt child) i pkt] else [] :=
      Network.Follows.map hreach
    have hself : (mesh.model.network Data).Follows (fuel + 1) [(v, pkt.atReceiver)] _ :=
      Network.Follows.cons (NetworkModel.reaches_receiver v pkt) Network.Follows.nil
    have hhops : pkt.along ((mesh.branches pkt.sender v).map
          (⟨mesh.tileAt ·, .emesh⟩) ++ [⟨v, .receiveTile⟩]) =
        (mesh.branches pkt.sender v).map (fun child ↦ (mesh.tileAt child, pkt.atRouter)) ++
          [(v, pkt.atReceiver)] := by
      unfold NetPacket.along
      rw [map_append, map_map]
      rfl
    rw [hhops] at hforward
    apply (Network.Reaches.of_route rfl hforward (hchildren.append hself)).congr
    intro i
    by_cases hi : mesh.tiles.isApplicationTile i
    · have hway := Grid.flatMap_children (inside_computePosition hs) (inside_computePosition hi)
        (inside_computePosition hv) fun child ↦ mesh.trail (mesh.tileAt child) i pkt
      simp only [hi, true_and, hway]
      by_cases hend : v = i
      · subst hend
        simp [Grid.onPath_end, trail_self]
      · have hpoints := mesh.computePosition_ne hend
        by_cases hon : mesh.OnRoute pkt.sender i v
        · simp [hend, hpoints, hon, trail_eq_cons hv hi hend]
        · simp [hend, hon]
    · have hend : v ≠ i := fun heq ↦ hi (heq ▸ hv)
      simp [hi, hend]

/-! ### Following what a tile sends -/

/-- A number of hops that suffices for every packet. -/
def longest (mesh : EMesh) : ℕ := mesh.meshWidth + mesh.meshHeight + 1

/-- The stops of a unicast from `s` to `r`. -/
def unicastTrail (mesh : EMesh) (s r : ℕ) (pkt : NetPacket Data) : List (ℕ × NetPacket Data) :=
  if mesh.tiles.Adjacent s r then [(r, pkt.atReceiver)] else mesh.trail s r pkt

/-- The stops of the copy of a broadcast from `s` for `r`. -/
def broadcastTrail (mesh : EMesh) (s r : ℕ) (pkt : NetPacket Data) : List (ℕ × NetPacket Data) :=
  if mesh.broadcastTreeEnabled then
    if mesh.tiles.isSystemTile s ∨ mesh.tiles.isSystemTile r then [(r, pkt.atReceiver)]
    else mesh.trail s r pkt
  else mesh.unicastTrail s r (pkt.unicast r)

theorem sent_unicast (htype : pkt.nodeType = .sendTile) (hsender : pkt.sender = s)
    (hreceiver : pkt.receiver = .tile r) (hs : s < mesh.tiles.totalTiles)
    (hr : r < mesh.tiles.totalTiles) :
    mesh.model.Sent mesh.longest s pkt fun i ↦
      if i = r then [mesh.unicastTrail s r pkt] else [] := by
  unfold unicastTrail
  by_cases hadjacent : mesh.tiles.Adjacent s r
  · rw [if_pos hadjacent]
    exact NetworkModel.sent_of_adjacent htype hsender hreceiver hadjacent
  · have hcases : mesh.model.tiles.Adjacent s r ∨ _ := NetworkModel.adjacent_or_between hs hr
    have hbetween : mesh.tiles.BetweenApplicationTiles s (.tile r) := hcases.resolve_left hadjacent
    have hdepth := Grid.dist_lt_of_inside (inside_computePosition hbetween.1)
      (inside_computePosition hbetween.2.1)
    have hreach : (mesh.model.network Data).Reaches mesh.longest s pkt.atRouter _ :=
      reaches_unicast (hsender ▸ hbetween) hreceiver hbetween.1 (by unfold longest; omega)
    rw [if_neg hadjacent]
    apply NetworkModel.sent_of_unicast htype hsender hreceiver hbetween rfl
    apply (Network.Follows.cons hreach Network.Follows.nil).congr
    intro i
    rw [append_nil]

theorem sent_broadcast (htype : pkt.nodeType = .sendTile) (hsender : pkt.sender = s)
    (hreceiver : pkt.receiver = .broadcast) (hs : s < mesh.tiles.totalTiles)
    (htree : mesh.broadcastTreeEnabled = true) :
    mesh.model.Sent mesh.longest s pkt fun i ↦
      if i < mesh.tiles.totalTiles then [mesh.broadcastTrail s i pkt] else [] := by
  unfold broadcastTrail
  by_cases hsystem : mesh.tiles.isSystemTile s
  · apply (NetworkModel.sent_of_system htype hsender hreceiver hsystem).congr
    intro i
    simp only [model_tiles, htree, if_true, hsystem, true_or]
    rfl
  · have happlication := TileCounts.application_of_not_system hs hsystem
    have hreach : (mesh.model.network Data).Reaches mesh.longest s pkt.atRouter _ :=
      reaches_broadcast (hsender ▸ happlication) hreceiver happlication (by unfold longest; omega)
    have hfollow : (mesh.model.network Data).Follows mesh.longest (pkt.along [⟨s, .emesh⟩]) _ :=
      Network.Follows.cons hreach Network.Follows.nil
    apply (NetworkModel.sent_of_broadcast htype hsender hreceiver happlication rfl hfollow).congr
    intro i
    subst hsender
    simp only [model_tiles, htree, if_true, append_nil]
    by_cases hi : mesh.tiles.isSystemTile i
    · have hnot : ¬ mesh.tiles.isApplicationTile i :=
        fun happlication ↦ TileCounts.not_system_of_application happlication hi
      simp [hi, hnot, hi.2]
    · have hiff : mesh.tiles.isApplicationTile i ∧ mesh.OnRoute pkt.sender i pkt.sender ↔
          i < mesh.tiles.totalTiles :=
        ⟨fun hboth ↦ Nat.lt_of_lt_of_le hboth.1 mesh.tiles.application_le_total,
          fun hlt ↦ ⟨TileCounts.application_of_not_system hlt hi, Grid.onPath_start _ _⟩⟩
      simp [hi, hsystem, hiff]

/-- A broadcast from a tile is delivered once to every tile. -/
theorem delivers_broadcast (htype : pkt.nodeType = .sendTile) (hsender : pkt.sender = s)
    (hreceiver : pkt.receiver = .broadcast) (hs : s < mesh.tiles.totalTiles) :
    (mesh.model.network Data).Delivers mesh.longest s pkt fun i ↦
      if i < mesh.tiles.totalTiles then [mesh.broadcastTrail s i pkt] else [] := by
  cases htree : mesh.broadcastTreeEnabled with
  | true => exact (sent_broadcast htype hsender hreceiver hs htree).delivers fun _ ↦ htree
  | false =>
    have htrail : ∀ i, mesh.broadcastTrail s i pkt = mesh.unicastTrail s i (pkt.unicast i) := by
      intro i
      unfold broadcastTrail
      rw [htree]
      rfl
    simp only [htrail]
    apply NetworkModel.delivers_of_unicasts hreceiver htree
    intro i hi
    exact sent_unicast htype hsender rfl hs hi

/-- A unicast between two tiles of the mesh follows its route, or goes from a tile to itself. -/
theorem unicastTrail_cases (hs : mesh.tiles.isApplicationTile s)
    (hr : mesh.tiles.isApplicationTile r) (pkt : NetPacket Data) :
    mesh.unicastTrail s r pkt = mesh.trail s r pkt ∨
      s = r ∧ mesh.unicastTrail s r pkt = [(r, pkt.atReceiver)] := by
  have hs' := TileCounts.not_system_of_application hs
  have hr' := TileCounts.not_system_of_application hr
  by_cases heq : s = r
  · exact .inr ⟨heq, if_pos (.inl heq)⟩
  · exact .inl (if_neg (not_or_intro heq (not_or_intro hs' hr')))

/-- A copy of a broadcast between two tiles of the mesh is on the tree, or it is a unicast. -/
theorem broadcastTrail_cases (hs : mesh.tiles.isApplicationTile s)
    (hr : mesh.tiles.isApplicationTile r) (pkt : NetPacket Data) :
    ∃ pkt', mesh.broadcastTrail s r pkt = mesh.trail s r pkt' ∨
      s = r ∧ mesh.broadcastTrail s r pkt = [(r, pkt'.atReceiver)] := by
  have hs' := TileCounts.not_system_of_application hs
  have hr' := TileCounts.not_system_of_application hr
  unfold broadcastTrail
  split_ifs with htree hsystem
  · exact absurd hsystem (not_or_intro hs' hr')
  · exact ⟨pkt, .inl rfl⟩
  · exact ⟨_, unicastTrail_cases hs hr (pkt.unicast r)⟩

/-- A copy of a broadcast for a system tile takes one hop. -/
theorem broadcastTrail_system (s : ℕ) (hr : mesh.tiles.isSystemTile r) (pkt : NetPacket Data) :
    ∃ pkt', mesh.broadcastTrail s r pkt = [(r, pkt')] := by
  have hadjacent : mesh.tiles.Adjacent s r := .inr (.inr hr)
  unfold broadcastTrail unicastTrail
  simp only [hr, or_true, hadjacent, if_true]
  split_ifs
  all_goals exact ⟨_, rfl⟩

/-- The stops between two tiles of the mesh, for each kind of packet. -/
theorem trails_in_mesh (hs : mesh.tiles.isApplicationTile s) (hr : mesh.tiles.isApplicationTile r)
    (pkt : NetPacket Data) {stops : List (ℕ × NetPacket Data)}
    (hstops : stops = mesh.trail s r pkt ∨ s = r ∧ stops = [(r, pkt.atReceiver)]) :
    meshHops stops = mesh.distance s r ∧ ∀ stop ∈ stops, mesh.tiles.isApplicationTile stop.1 := by
  rcases hstops with rfl | ⟨rfl, rfl⟩
  · exact ⟨meshHops_trail s r pkt, fun stop hstop ↦ application_of_mem_trail hs hr hstop⟩
  · constructor
    · rw [distance_eq, far, Grid.dist_self]
      rfl
    · intro stop hstop
      obtain rfl := mem_singleton.mp hstop
      exact hs

/-- Every packet that a tile sends is received exactly once by each of its receivers. Between tiles
of the mesh it takes as many hops as there are columns and rows between them, it stays in the mesh,
and a broadcast visits the same routers as a unicast; system tiles are reached in one hop. All
packets between two tiles keep their order, except those of a tile of the mesh to itself when it
broadcasts over the tree. -/
theorem emesh_delivers_once_in_order (mesh : EMesh) (data : Data) (s : ℕ)
    (hs : s < mesh.tiles.totalTiles) :
    ∃ unicast broadcast : ℕ → List (ℕ × NetPacket Data),
      (∀ r < mesh.tiles.totalTiles, (mesh.model.network Data).Delivers mesh.longest s
        ⟨s, .tile r, .sendTile, data⟩ fun i ↦ if i = r then [unicast r] else []) ∧
      ((mesh.model.network Data).Delivers mesh.longest s ⟨s, .broadcast, .sendTile, data⟩ fun i ↦
        if i < mesh.tiles.totalTiles then [broadcast i] else []) ∧
      (mesh.tiles.isApplicationTile s → ∀ r, mesh.tiles.isApplicationTile r →
        meshHops (unicast r) = mesh.distance s r ∧ meshHops (broadcast r) = mesh.distance s r ∧
        (∀ stop ∈ unicast r ++ broadcast r, mesh.tiles.isApplicationTile stop.1) ∧
        (s ≠ r → meshTiles (broadcast r) = meshTiles (unicast r))) ∧
      (∀ r, mesh.tiles.isSystemTile r → ∃ pkt, broadcast r = [(r, pkt)]) ∧
      ∀ r < mesh.tiles.totalTiles, KeepsOrder mesh.model s r ↔
        s ≠ r ∨ mesh.tiles.isSystemTile s ∨ mesh.broadcastTreeEnabled = false := by
  refine ⟨fun r ↦ mesh.unicastTrail s r ⟨s, .tile r, .sendTile, data⟩,
    fun r ↦ mesh.broadcastTrail s r ⟨s, .broadcast, .sendTile, data⟩, ?_, ?_, ?_, ?_, ?_⟩
  · intro r hr
    exact (sent_unicast rfl rfl rfl hs hr).delivers nofun
  · exact delivers_broadcast rfl rfl rfl hs
  · intro happlication r hr
    have hunicast := unicastTrail_cases happlication hr ⟨s, .tile r, .sendTile, data⟩
    obtain ⟨pkt, hbroadcast⟩ :=
      broadcastTrail_cases happlication hr ⟨s, .broadcast, .sendTile, data⟩
    obtain ⟨hhops, hstops⟩ := trails_in_mesh happlication hr _ hunicast
    obtain ⟨hhops', hstops'⟩ := trails_in_mesh happlication hr _ hbroadcast
    refine ⟨hhops, hhops', ?_, ?_⟩
    · intro stop hstop
      rcases mem_append.mp hstop with hfirst | hsecond
      · exact hstops stop hfirst
      · exact hstops' stop hsecond
    · intro hne
      dsimp only
      rw [hunicast.resolve_right fun hsame ↦ hne hsame.1,
        hbroadcast.resolve_right fun hsame ↦ hne hsame.1, meshTiles_trail, meshTiles_trail]
  · intro r hr
    exact broadcastTrail_system s hr _
  · intro r hr
    constructor
    · intro hkeeps
      by_contra hnot
      push Not at hnot
      obtain ⟨rfl, hsystem, htree⟩ := hnot
      have happlication := TileCounts.application_of_not_system hs hsystem
      exact not_keepsOrder happlication (Bool.eq_true_of_not_eq_false htree) hkeeps
    · exact keepsOrder hs hr

/-- The hops of a mesh of three columns and two rows with a system tile. -/
theorem emesh_delivers_once_in_order_threeByTwo :
    1 < (EMesh.mk 3 2 1 true).tiles.totalTiles ∧
    ∃ unicast broadcast : ℕ → List (ℕ × NetPacket ℕ),
      (∀ r < 7, ((EMesh.mk 3 2 1 true).model.network ℕ).Delivers 6 1
        ⟨1, .tile r, .sendTile, 5⟩ fun i ↦ if i = r then [unicast r] else []) ∧
      (((EMesh.mk 3 2 1 true).model.network ℕ).Delivers 6 1 ⟨1, .broadcast, .sendTile, 5⟩ fun i ↦
        if i < 7 then [broadcast i] else []) ∧
      meshHops (broadcast 5) = 2 ∧ meshTiles (broadcast 5) = meshTiles (unicast 5) := by
  have hs : 1 < (EMesh.mk 3 2 1 true).tiles.totalTiles := by decide
  obtain ⟨unicast, broadcast, hunicast, hbroadcast, hmesh, _⟩ :=
    emesh_delivers_once_in_order (EMesh.mk 3 2 1 true) 5 1 hs
  have hfive := hmesh (by decide) 5 (by decide)
  exact ⟨hs, unicast, broadcast, hunicast, hbroadcast, hfive.2.1, hfive.2.2.2 (by decide)⟩

/-- Tile 3 of a mesh of two columns and two rows sends a broadcast with payload 1 and then a unicast
with payload 2 to itself. When it has pulled two packets from its own channel, it has received the
unicast, and not the broadcast. -/
theorem emesh_self_overtakes :
    (run ((EMesh.mk 2 2 0 true).model.network ℕ) .empty
      [.send 3 ⟨3, .broadcast, .sendTile, 1⟩, .send 3 ⟨3, .tile 3, .sendTile, 2⟩, .pull 3 3,
        .pull 3 3]).map (receivedFrom 3 3) = .ok [2] ∧
    ¬ KeepsOrder (EMesh.mk 2 2 0 true).model 3 3 :=
  ⟨by decide, not_keepsOrder (by decide) rfl⟩

end EMesh

end CarbonSim.Network
