import CarbonSim.Network.EMesh
import CarbonSim.Network.Overtaking

/-!
# The order of packets in the electrical mesh

A unicast from `s` to `r` and the copy of a broadcast that `s` sends to `r` pass the same channels:
those along the route from `s` to `r`, one for each point of it, and then the one from `r` to itself
(`lane`). Two different tiles therefore keep the order of their packets (`keepsOrder`). A tile does
not keep the order of what it sends to itself: its broadcast first has to pass its own router, which
a unicast to itself does not (`not_keepsOrder`).
-/

namespace CarbonSim.Network.EMesh

open List

variable {mesh : EMesh} {u v s r : ℕ} {receiver : Receiver}

/-- A packet that is routed in the mesh, in the channel from `u` to `v`: at a router it has come
from the tile before `v` on the routes of the sender, and a unicast is on its route. -/
def Travel (mesh : EMesh) (u v s : ℕ) (receiver : Receiver) (t : NodeType) : Prop :=
  mesh.tiles.BetweenApplicationTiles s receiver ∧
  (receiver = .broadcast → mesh.broadcastTreeEnabled = true) ∧
  mesh.tiles.isApplicationTile v ∧
  match t with
  | .emesh =>
    u = mesh.tileAt (Grid.parent (mesh.computePosition s) (mesh.computePosition v)) ∧
      ∀ r, receiver = .tile r →
        Grid.OnPath (mesh.computePosition s) (mesh.computePosition r) (mesh.computePosition v)
  | .receiveTile => u = v ∧ (receiver = .tile v ∨ receiver = .broadcast)
  | _ => False

theorem application_of_between (hbetween : mesh.tiles.BetweenApplicationTiles s receiver) :
    mesh.tiles.isApplicationTile s := by
  cases receiver with
  | tile r => exact hbetween.1
  | broadcast => exact hbetween

/-- The next step of a route, as a hop. -/
theorem travel_step (hbetween : mesh.tiles.BetweenApplicationTiles s (.tile r))
    (hon : mesh.OnRoute s r v) (hne : v ≠ r) :
    mesh.Travel v (mesh.nextTile v r) s (.tile r) .emesh := by
  have hs := inside_computePosition hbetween.1
  have hr := inside_computePosition hbetween.2.1
  obtain ⟨hnext, _, hback⟩ := hon.next (mesh.computePosition_ne hne)
  have hinside := hnext.inside hs hr
  refine ⟨hbetween, nofun, isApplicationTile_tileAt hinside, ?_, ?_⟩
  · rw [computePosition_tileAt hinside, hback, tileAt_computePosition]
  · intro r' hr'
    obtain rfl := Receiver.tile.inj hr'
    rw [computePosition_tileAt hinside]
    exact hnext

/-- A child of a tile in the tree of a broadcast, as a hop. -/
theorem travel_child (hs : mesh.tiles.isApplicationTile s)
    (htree : mesh.broadcastTreeEnabled = true) (hv : mesh.tiles.isApplicationTile v)
    {child : Grid.Point} (hchild : child ∈ mesh.branches s v) :
    mesh.Travel v (mesh.tileAt child) s .broadcast .emesh := by
  obtain ⟨hinside, _, hparent⟩ := (Grid.mem_children (inside_computePosition hv)).mp hchild
  refine ⟨hs, fun _ ↦ htree, isApplicationTile_tileAt hinside, ?_, nofun⟩
  rw [computePosition_tileAt hinside, hparent, tileAt_computePosition]

theorem routes (mesh : EMesh) : mesh.model.Routes mesh.Travel := by
  constructor
  · -- a packet enters the mesh at its sender
    intro s receiver hbetween hcapability
    have hs := application_of_between hbetween
    refine ⟨[⟨s, .emesh⟩], rfl, ?_⟩
    intro hop hhop
    obtain rfl := mem_singleton.mp hhop
    refine ⟨hbetween, hcapability, hs, ?_, ?_⟩
    · rw [Grid.parent_self, tileAt_computePosition]
    · intro r _
      exact Grid.onPath_start _ _
  · intro u v s receiver t htravel htype
    obtain ⟨hbetween, hcapability, hv, hplace⟩ := htravel
    cases t with
    | sendTile | sendHub | receiveHub => exact hplace.elim
    | receiveTile => exact absurd rfl htype
    | emesh =>
      cases receiver with
      | tile r =>
        refine ⟨_, routePacket_unicast hv hbetween.2.1 s, ?_⟩
        intro hop hhop
        obtain rfl := mem_singleton.mp hhop
        split_ifs with hself
        · exact ⟨hbetween, hcapability, hv, rfl, .inl (by rw [hself])⟩
        · exact travel_step hbetween (hplace.2 r rfl) hself
      | broadcast =>
        refine ⟨_, routePacket_broadcast hv s, ?_⟩
        intro hop hhop
        rcases mem_append.mp hhop with hrouted | hself
        · obtain ⟨child, hchild, rfl⟩ := mem_map.mp hrouted
          exact travel_child hbetween (hcapability rfl) hv hchild
        · obtain rfl := mem_singleton.mp hself
          exact ⟨hbetween, hcapability, hv, rfl, .inr rfl⟩
  · intro u v s receiver t htravel
    exact htravel.1
  · intro u v s t htravel
    exact htravel.2.1 rfl
  · rintro u v s receiver t htravel rfl
    exact htravel.2.2.2
  · intro u v s receiver htravel
    exact ⟨htravel.2.2.1, htravel.2.2.2.2⟩

/-! ### The channels from one tile to another -/

/-- The stage of a packet from `s` to `r`: at a router its distance from `s`. -/
def laneStage (mesh : EMesh) (s r u v : ℕ) : NodeType → Option ℕ
  | .emesh =>
    if mesh.tiles.isApplicationTile v ∧
        u = mesh.tileAt (Grid.parent (mesh.computePosition s) (mesh.computePosition v)) ∧
        Grid.OnPath (mesh.computePosition s) (mesh.computePosition r) (mesh.computePosition v) then
      some (Grid.dist (mesh.computePosition s) (mesh.computePosition v))
    else none
  | .receiveTile =>
    if u = r ∧ v = r then some (Grid.dist (mesh.computePosition s) (mesh.computePosition r) + 1)
    else none
  | _ => none

/-- The point of the route from `s` to `r` at a distance from `s`. -/
def lanePoint (mesh : EMesh) (s r i : ℕ) : Grid.Point :=
  (Grid.step · (mesh.computePosition r))^[i] (mesh.computePosition s)

/-- The stage of a hop to the child of a tile. -/
theorem laneStage_child (hv : mesh.tiles.isApplicationTile v) {child : Grid.Point}
    (hchild : child ∈ mesh.branches s v) :
    mesh.laneStage s r v (mesh.tileAt child) .emesh =
      if Grid.OnPath (mesh.computePosition s) (mesh.computePosition r) child then
        some (Grid.dist (mesh.computePosition s) child) else none := by
  obtain ⟨hinside, _, hparent⟩ := (Grid.mem_children (inside_computePosition hv)).mp hchild
  simp only [laneStage, computePosition_tileAt hinside, hparent, tileAt_computePosition, true_and,
    isApplicationTile_tileAt hinside]

/-- The stages of the hops of a broadcast: it goes on towards `r` if it is on the route. -/
theorem laneStage_broadcast (hs : mesh.tiles.isApplicationTile s)
    (hr : mesh.tiles.isApplicationTile r) (hv : mesh.tiles.isApplicationTile v) {hops : List Hop}
    (hroute : mesh.routePacket v s .broadcast .emesh = .ok hops) :
    hops.filterMap (fun hop ↦ mesh.laneStage s r v hop.nextTileId hop.nextNodeType) =
      if mesh.OnRoute s r v then [mesh.far s v + 1] else [] := by
  rw [routePacket_broadcast hv s] at hroute
  obtain rfl := Except.ok.inj hroute
  have hself : mesh.laneStage s r v v .receiveTile = if v = r then some (mesh.far s r + 1)
      else none := by
    simp only [laneStage, and_self]
  have hchildren := Grid.flatMap_children (inside_computePosition hs) (inside_computePosition hr)
    (inside_computePosition hv) (Grid.dist (mesh.computePosition s))
  rw [filterMap_append, filterMap_map, filterMap_eq_flatMap_toList]
  have hstages : ∀ child ∈ mesh.branches s v,
      (mesh.laneStage s r v (mesh.tileAt child) .emesh).toList =
      if Grid.OnPath (mesh.computePosition s) (mesh.computePosition r) child then
        [Grid.dist (mesh.computePosition s) child] else [] := by
    intro child hchild
    rw [laneStage_child hv hchild]
    split_ifs <;> rfl
  simp only [Function.comp_def]
  rw [flatMap_congr hstages, hchildren]
  simp only [filterMap_cons, filterMap_nil, hself]
  by_cases hend : v = r
  · subst hend
    simp [Grid.onPath_end]
  · have hpoints := mesh.computePosition_ne hend
    by_cases hon : mesh.OnRoute s r v
    · simp [hend, hpoints, hon, (hon.next hpoints).2.1]
    · simp [hend, hon]

/-- The stage of the hop of a unicast. -/
theorem laneStage_unicast (hbetween : mesh.tiles.BetweenApplicationTiles s (.tile r))
    (hv : mesh.tiles.isApplicationTile v) (hon : mesh.OnRoute s r v)
    {hops : List Hop} (hroute : mesh.routePacket v s (.tile r) .emesh = .ok hops) :
    hops.filterMap (fun hop ↦ mesh.laneStage s r v hop.nextTileId hop.nextNodeType) =
      [mesh.far s v + 1] := by
  rw [routePacket_unicast hv hbetween.2.1 s] at hroute
  obtain rfl := Except.ok.inj hroute
  by_cases hend : v = r
  · subst hend
    simp [laneStage]
  · have hpoints := mesh.computePosition_ne hend
    obtain ⟨_, _, hv', hplace⟩ := travel_step hbetween hon hend
    have hnext : mesh.laneStage s r v (mesh.nextTile v r) .emesh = some (mesh.far s v + 1) := by
      have hinside := (hon.next hpoints).1.inside (inside_computePosition hbetween.1)
        (inside_computePosition hbetween.2.1)
      unfold laneStage
      rw [if_pos ⟨hv', hplace.1, hplace.2 r rfl⟩, computePosition_tileAt hinside,
        (hon.next hpoints).2.1]
    simp [if_neg hend, hnext]

/-- The channels that all packets from `s` to `r` pass. -/
def lane (hbetween : mesh.tiles.BetweenApplicationTiles s (.tile r)) :
    Lane mesh.model mesh.Travel s r where
  length := Grid.dist (mesh.computePosition s) (mesh.computePosition r) + 1
  source := fun i ↦ if i ≤ Grid.dist (mesh.computePosition s) (mesh.computePosition r) then
      mesh.tileAt (Grid.parent (mesh.computePosition s) (mesh.lanePoint s r i))
    else r
  target := fun i ↦ if i ≤ Grid.dist (mesh.computePosition s) (mesh.computePosition r) then
      mesh.tileAt (mesh.lanePoint s r i)
    else r
  stage := mesh.laneStage s r
  stage_channel := by
    intro u v t i hstage
    cases t with
    | emesh =>
      simp only [laneStage] at hstage
      split_ifs at hstage with hplace
      obtain ⟨_, hu, hon⟩ := hplace
      obtain rfl := Option.some.inj hstage
      have hsplit := hon.dist_add
      have hpoint : mesh.computePosition v = mesh.lanePoint s r _ := hon.eq_iterate
      rw [if_pos (by omega), if_pos (by omega), ← hpoint, tileAt_computePosition]
      exact ⟨by omega, hu, rfl⟩
    | receiveTile =>
      simp only [laneStage] at hstage
      split_ifs at hstage with hplace
      obtain rfl := Option.some.inj hstage
      rw [if_neg (by omega), if_neg (by omega)]
      exact ⟨Nat.le_refl _, hplace.1, hplace.2⟩
    | sendTile | sendHub | receiveHub => simp [laneStage] at hstage
  application := by
    intro u v t i hstage
    cases t with
    | emesh =>
      simp only [laneStage] at hstage
      split_ifs at hstage with hplace
      exact hplace.1
    | receiveTile =>
      simp only [laneStage] at hstage
      split_ifs at hstage with hplace
      rw [hplace.2]
      exact hbetween.2.1
    | sendTile | sendHub | receiveHub => simp [laneStage] at hstage
  start := by
    intro receiver hops _ hroute
    obtain rfl := Except.ok.inj hroute
    have hplace : mesh.laneStage s r s s .emesh = some 0 := by
      unfold laneStage
      rw [if_pos ⟨hbetween.1, by rw [Grid.parent_self, tileAt_computePosition],
        Grid.onPath_start _ _⟩, Grid.dist_self]
    simp [hplace]
  next := by
    intro u v receiver t hops hincludes htravel htype hroute
    obtain ⟨_, _, hv, hplace⟩ := htravel
    cases t with
    | sendTile => exact hplace.elim
    | receiveTile => exact absurd rfl htype
    | sendHub | receiveHub => exact hplace.elim
    | emesh =>
      have hstage : mesh.laneStage s r u v .emesh =
          if mesh.OnRoute s r v then some (mesh.far s v) else none := by
        simp only [laneStage, hv, true_and, ← hplace.1]
      rw [hstage]
      rcases Receiver.includes_iff.mp hincludes with rfl | rfl
      · have hon := hplace.2 r rfl
        rw [laneStage_unicast hbetween hv hon hroute, if_pos hon]
        rfl
      · rw [laneStage_broadcast hbetween.1 hbetween.2.1 hv hroute]
        split_ifs <;> rfl
  last := by
    intro u v receiver _ htravel
    obtain ⟨_, _, _, rfl, _⟩ := htravel
    simp only [laneStage, and_self]

/-- Two different tiles, at least one of which is a system tile or both of which are in the mesh,
keep the order of their packets, and so does each tile towards itself if it does not broadcast over
the tree. -/
theorem keepsOrder (hs : s < mesh.tiles.totalTiles) (hr : r < mesh.tiles.totalTiles)
    (hcases : s ≠ r ∨ mesh.tiles.isSystemTile s ∨ mesh.broadcastTreeEnabled = false) :
    KeepsOrder mesh.model s r := by
  by_cases hone : mesh.model.OneHop s r
  · exact NetworkModel.keepsOrder_of_oneHop mesh.routes hr hone
  · have hbetween : mesh.tiles.BetweenApplicationTiles s (.tile r) := by
      unfold NetworkModel.OneHop at hone
      push Not at hone
      refine ⟨TileCounts.application_of_not_system hs hone.1,
        TileCounts.application_of_not_system hr hone.2.1, ?_⟩
      rcases hcases with hne | hsystem | htree
      · exact hne
      · exact absurd hsystem hone.1
      · exact fun heq ↦ hone.2.2 heq htree
    exact (lane hbetween).keepsOrder mesh.routes hbetween

/-- A tile of the mesh does not keep the order of what it sends to itself if it broadcasts over the
tree. -/
theorem not_keepsOrder (hs : mesh.tiles.isApplicationTile s)
    (htree : mesh.broadcastTreeEnabled = true) : ¬ KeepsOrder mesh.model s s :=
  not_keepsOrder_self (t := .emesh) htree hs nofun nofun rfl (routePacket_broadcast hs s)

end CarbonSim.Network.EMesh
