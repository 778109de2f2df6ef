import CarbonSim.Lib.Outcome
import Mathlib.Data.List.Basic

/-!
# Store-and-forward networks with in-order channels

Nodes exchange packets over one first-in first-out channel for each ordered pair of nodes. A node
takes the packet at the head of a channel; a packet that is `ready` is received there, any other is
routed on, which puts copies of it into the channels to other nodes (`perform`).

`follow` follows one packet through all its copies. A `Line` is a sequence of channels such that the
packets of one flow all pass through these channels, in this order and in one copy each. Whatever the
interleaving, the packets of the flow are then received in the order in which they were sent, none
of them lost and none twice (`Line.run`).
-/

namespace CarbonSim.StoreForward

open List

/-- Which packets are received where they are, the copies a node makes of a packet of its own, and
those it makes of a packet that it routes on. -/
structure Network (Node Packet Fault : Type) where
  ready : Packet → Bool
  send : Node → Packet → Except Fault (List (Node × Packet))
  route : Node → Packet → Except Fault (List (Node × Packet))

/-- The packets under way from one node to another, oldest first, and those received. -/
structure State (Node Packet : Type) where
  channel : Node → Node → List Packet
  received : Node → List Packet

/-- A node sends a packet of its own, or takes the next packet from another node. -/
inductive Action (Node Packet : Type) where
  | send (u : Node) (p : Packet)
  | pull (u v : Node)

/-- Why a packet cannot be followed to its end. -/
inductive Halt (Fault : Type) where
  | fault (f : Fault)
  | outOfFuel
  deriving DecidableEq

variable {Node Packet Fault : Type} {actions : List (Action Node Packet)}
  {action : Action Node Packet}

namespace Network

/-- Follow a packet at a node through all its copies. The result has one list for each copy that is
received, with the nodes the copy has been at and how it looked there. -/
def follow (net : Network Node Packet Fault) :
    ℕ → Node → Packet → Except (Halt Fault) (List (List (Node × Packet)))
  | 0, _, _ => .error .outOfFuel
  | fuel + 1, v, p =>
    if net.ready p then
      .ok [[(v, p)]]
    else
      match net.route v p with
      | .error f => .error (.fault f)
      | .ok hops =>
        match hops.mapM fun hop ↦ follow net fuel hop.1 hop.2 with
        | .error e => .error e
        | .ok copies => .ok (copies.flatten.map ((v, p) :: ·))

/-- Follow a packet that a node sends. -/
def journeys (net : Network Node Packet Fault) (fuel : ℕ) (u : Node) (p : Packet) :
    Except (Halt Fault) (List (List (Node × Packet))) :=
  match net.send u p with
  | .error f => .error (.fault f)
  | .ok hops => (hops.mapM fun hop ↦ follow net fuel hop.1 hop.2).map List.flatten

/-- The copies that end at a node. -/
def arrivals [DecidableEq Node] (copies : List (List (Node × Packet))) (r : Node) :
    List (List (Node × Packet)) :=
  copies.filter fun trail ↦ trail.getLast?.map Prod.fst = some r

/-- A packet at a node can be followed to the end, and `way r` are the copies that end at `r`. -/
def Reaches [DecidableEq Node] (net : Network Node Packet Fault) (fuel : ℕ) (v : Node) (p : Packet)
    (way : Node → List (List (Node × Packet))) : Prop :=
  ∃ copies, net.follow fuel v p = .ok copies ∧ [] ∉ copies ∧ ∀ r, arrivals copies r = way r

/-- The hops of a node can be followed to the end, and `ways r` are the copies that end at `r`. -/
def Follows [DecidableEq Node] (net : Network Node Packet Fault) (fuel : ℕ)
    (hops : List (Node × Packet)) (ways : Node → List (List (Node × Packet))) : Prop :=
  ∃ copies, (hops.mapM fun hop ↦ net.follow fuel hop.1 hop.2) = .ok copies ∧
    [] ∉ copies.flatten ∧ ∀ r, arrivals copies.flatten r = ways r

/-- A packet that a node sends can be followed to the end, and `way r` are the copies that end at
`r`. -/
def Delivers [DecidableEq Node] (net : Network Node Packet Fault) (fuel : ℕ) (u : Node)
    (p : Packet) (way : Node → List (List (Node × Packet))) : Prop :=
  ∃ copies, net.journeys fuel u p = .ok copies ∧ [] ∉ copies ∧ ∀ r, arrivals copies r = way r

section Follow

variable [DecidableEq Node] {net : Network Node Packet Fault} {fuel : ℕ} {v : Node} {p : Packet}
  {hops : List (Node × Packet)} {ways : Node → List (List (Node × Packet))}
  {ways' : Node → List (List (Node × Packet))}

theorem Reaches.of_ready (hready : net.ready p = true) :
    net.Reaches (fuel + 1) v p fun r ↦ if v = r then [[(v, p)]] else [] := by
  refine ⟨[[(v, p)]], by simp only [follow, hready, if_true], by simp, ?_⟩
  intro r
  by_cases hr : v = r
  all_goals simp [arrivals, hr]

theorem arrivals_append (copies copies' : List (List (Node × Packet))) (r : Node) :
    arrivals (copies ++ copies') r = arrivals copies r ++ arrivals copies' r :=
  filter_append ..

theorem Follows.nil : net.Follows fuel [] fun _ ↦ [] := ⟨[], rfl, by simp, fun _ ↦ rfl⟩

/-- One hop, and then the others. -/
theorem Follows.cons {hop : Node × Packet} {way : Node → List (List (Node × Packet))}
    (hhop : net.Reaches fuel hop.1 hop.2 way) (hhops : net.Follows fuel hops ways) :
    net.Follows fuel (hop :: hops) fun r ↦ way r ++ ways r := by
  obtain ⟨first, hfirst, hproper, hway⟩ := hhop
  obtain ⟨others, hothers, hrest, hways⟩ := hhops
  refine ⟨first :: others, ?_, ?_, ?_⟩
  · simp only [mapM_cons, hfirst, hothers, bind, Except.bind, pure, Except.pure]
  · rw [flatten_cons, mem_append]
    exact not_or_intro hproper hrest
  · intro r
    rw [flatten_cons, arrivals_append, hway, hways]

theorem Follows.append {hops' : List (Node × Packet)} (hfirst : net.Follows fuel hops ways)
    (hsecond : net.Follows fuel hops' ways') :
    net.Follows fuel (hops ++ hops') fun r ↦ ways r ++ ways' r := by
  obtain ⟨copies, hmap, hproper, hways⟩ := hfirst
  obtain ⟨copies', hmap', hproper', hways'⟩ := hsecond
  refine ⟨copies ++ copies', ?_, ?_, ?_⟩
  · simp only [mapM_append, hmap, hmap', bind, Except.bind, pure, Except.pure]
  · rw [flatten_append, mem_append]
    exact not_or_intro hproper hproper'
  · intro r
    rw [flatten_append, arrivals_append, hways, hways']

/-- The hops of several packets one after the other. -/
theorem Follows.flatMap {ι : Type} {ids : List ι} {hops : ι → List (Node × Packet)}
    {ways : ι → Node → List (List (Node × Packet))}
    (hall : ∀ i ∈ ids, net.Follows fuel (hops i) (ways i)) :
    net.Follows fuel (ids.flatMap hops) fun r ↦ ids.flatMap fun i ↦ ways i r := by
  induction ids with
  | nil => exact .nil
  | cons i ids ih =>
    have hrest := ih fun j hj ↦ hall j (mem_cons_of_mem _ hj)
    exact (hall i mem_cons_self).append hrest

/-- One hop for each element of a list. -/
theorem Follows.map {ι : Type} {ids : List ι} {hop : ι → Node × Packet}
    {ways : ι → Node → List (List (Node × Packet))}
    (hall : ∀ i ∈ ids, net.Reaches fuel (hop i).1 (hop i).2 (ways i)) :
    net.Follows fuel (ids.map hop) fun r ↦ ids.flatMap fun i ↦ ways i r := by
  induction ids with
  | nil => exact .nil
  | cons i ids ih =>
    have hrest := ih fun j hj ↦ hall j (mem_cons_of_mem _ hj)
    exact .cons (hall i mem_cons_self) hrest

/-- A step at the front of a trail does not change where it ends. -/
theorem arrivals_map_cons {copies : List (List (Node × Packet))} (hproper : [] ∉ copies)
    (first : Node × Packet) (r : Node) :
    arrivals (copies.map (first :: ·)) r = (arrivals copies r).map (first :: ·) := by
  unfold arrivals
  rw [filter_map]
  congr 1
  apply filter_congr
  intro trail htrail
  cases trail with
  | nil => exact absurd htrail hproper
  | cons hop trail => simp [getLast?_cons_cons]

theorem Reaches.of_route (hready : net.ready p = false) (hroute : net.route v p = .ok hops)
    (hhops : net.Follows fuel hops ways) :
    net.Reaches (fuel + 1) v p fun r ↦ (ways r).map ((v, p) :: ·) := by
  obtain ⟨copies, hmap, hproper, hways⟩ := hhops
  refine ⟨copies.flatten.map ((v, p) :: ·), ?_, by simp, ?_⟩
  · simp only [follow, hready, hroute, hmap, Bool.false_eq_true, if_false]
  · intro r
    rw [arrivals_map_cons hproper, hways]

theorem Delivers.of_send (hsend : net.send v p = .ok hops) (hhops : net.Follows fuel hops ways) :
    net.Delivers fuel v p ways := by
  obtain ⟨copies, hmap, hproper, hways⟩ := hhops
  refine ⟨copies.flatten, ?_, hproper, hways⟩
  simp only [journeys, hsend, hmap, Except.map]

theorem Reaches.congr (hreach : net.Reaches fuel v p ways) (hsame : ∀ r, ways r = ways' r) :
    net.Reaches fuel v p ways' := by
  obtain rfl : ways = ways' := funext hsame
  exact hreach

theorem Follows.congr (hfollow : net.Follows fuel hops ways) (hsame : ∀ r, ways r = ways' r) :
    net.Follows fuel hops ways' := by
  obtain rfl : ways = ways' := funext hsame
  exact hfollow

end Follow

end Network

namespace State

variable [DecidableEq Node]

/-- Nothing is under way. -/
def empty : State Node Packet where
  channel := fun _ _ ↦ []
  received := fun _ ↦ []

/-- Node `u` appends its hops to the channels, in their order. -/
def push (st : State Node Packet) (u : Node) (hops : List (Node × Packet)) : State Node Packet :=
  { st with
    channel := fun a b ↦
      if a = u then st.channel a b ++ (hops.filter (·.1 = b)).map Prod.snd else st.channel a b }

/-- The channel from `u` to `v` now holds `rest`. -/
def drop (st : State Node Packet) (u v : Node) (rest : List Packet) : State Node Packet :=
  { st with channel := fun a b ↦ if a = u ∧ b = v then rest else st.channel a b }

/-- Node `v` receives a packet. -/
def receive (st : State Node Packet) (v : Node) (p : Packet) : State Node Packet :=
  { st with received := fun a ↦ if a = v then st.received a ++ [p] else st.received a }

variable (st : State Node Packet) (u v a b : Node) (hops : List (Node × Packet)) (p : Packet)
  (rest : List Packet)

/-- Hops go to the end of the channels from their node. -/
theorem push_channel : (st.push u hops).channel a b =
    st.channel a b ++ if a = u then (hops.filter (·.1 = b)).map Prod.snd else [] := by
  by_cases ha : a = u
  · simp only [push, if_pos ha]
  · simp only [push, if_neg ha, append_nil]

theorem drop_channel :
    (st.drop u v rest).channel a b = if a = u ∧ b = v then rest else st.channel a b := rfl

@[simp] theorem push_received : (st.push u hops).received = st.received := rfl

@[simp] theorem drop_received : (st.drop u v rest).received = st.received := rfl

theorem receive_received :
    (st.receive v p).received a = if a = v then st.received a ++ [p] else st.received a := rfl

end State

section Runs

variable [DecidableEq Node] (net : Network Node Packet Fault)

/-- One action. Nothing happens when the channel to take from is empty. -/
def perform (st : State Node Packet) : Action Node Packet → Except Fault (State Node Packet)
  | .send u p => (net.send u p).map fun hops ↦ st.push u hops
  | .pull u v =>
    match st.channel u v with
    | [] => .ok st
    | p :: rest =>
      if net.ready p then
        .ok ((st.drop u v rest).receive v p)
      else
        (net.route v p).map fun hops ↦ (st.drop u v rest).push v hops

/-- Actions one after the other. -/
def run (st : State Node Packet) (actions : List (Action Node Packet)) :
    Except Fault (State Node Packet) :=
  actions.foldlM (perform net) st

variable {net} {st next : State Node Packet} {u v : Node} {p : Packet} {rest : List Packet}
  {hops : List (Node × Packet)}

theorem perform_send (hsend : net.send u p = .ok hops) :
    perform net st (.send u p) = .ok (st.push u hops) := by
  simp only [perform, hsend, Except.map]

theorem perform_receive (hchannel : st.channel u v = p :: rest) (hready : net.ready p = true) :
    perform net st (.pull u v) = .ok ((st.drop u v rest).receive v p) := by
  simp only [perform, hchannel, hready, if_true]

theorem perform_route (hchannel : st.channel u v = p :: rest) (hready : net.ready p = false)
    (hroute : net.route v p = .ok hops) :
    perform net st (.pull u v) = .ok ((st.drop u v rest).push v hops) := by
  simp only [perform, hchannel, hready, Bool.false_eq_true, if_false, hroute, Except.map]

theorem run_cons (hstep : perform net st action = .ok next) :
    run net st (action :: actions) = run net next actions := by
  simp only [run, foldlM_cons, hstep]
  rfl

variable (net)

/-- What a successful action does. -/
theorem perform_eq_ok (hstep : perform net st action = .ok next) :
    (∃ u p hops, action = .send u p ∧ net.send u p = .ok hops ∧ next = st.push u hops) ∨
    (∃ u v, action = .pull u v ∧ next = st) ∨
    (∃ u v p rest, action = .pull u v ∧ st.channel u v = p :: rest ∧ net.ready p = true ∧
      next = (st.drop u v rest).receive v p) ∨
    (∃ u v p rest hops, action = .pull u v ∧ st.channel u v = p :: rest ∧ net.ready p = false ∧
      net.route v p = .ok hops ∧ next = (st.drop u v rest).push v hops) := by
  cases action with
  | send u p =>
    left
    obtain ⟨hops, hroute, rfl⟩ := Outcome.map_eq_ok hstep
    exact ⟨u, p, hops, rfl, hroute, rfl⟩
  | pull u v =>
    right
    simp only [perform] at hstep
    cases hchannel : st.channel u v with
    | nil =>
      simp only [hchannel, Except.ok.injEq] at hstep
      exact .inl ⟨u, v, rfl, hstep.symm⟩
    | cons p rest =>
      right
      simp only [hchannel] at hstep
      cases hready : net.ready p with
      | true =>
        simp only [hready, if_true, Except.ok.injEq] at hstep
        exact .inl ⟨u, v, p, rest, rfl, hchannel, hready, hstep.symm⟩
      | false =>
        right
        simp only [hready, Bool.false_eq_true, if_false] at hstep
        obtain ⟨hops, hroute, rfl⟩ := Outcome.map_eq_ok hstep
        exact ⟨u, v, p, rest, hops, rfl, hchannel, hready, hroute, rfl⟩

end Runs

/-! ### What holds of every packet under way -/

section Typing

variable [DecidableEq Node] (net : Network Node Packet Fault)

/-- Packets that may be sent can be routed, and so can what comes of them: `Ok u v p` is kept for
each packet `p` in the channel from `u` to `v`. -/
structure Typed (Valid : Node → Packet → Prop) (Ok : Node → Node → Packet → Prop) : Prop where
  send : ∀ u p, Valid u p → ∃ hops, net.send u p = .ok hops ∧ ∀ hop ∈ hops, Ok u hop.1 hop.2
  forward : ∀ u v p, Ok u v p → net.ready p = false →
    ∃ hops, net.route v p = .ok hops ∧ ∀ hop ∈ hops, Ok v hop.1 hop.2

/-- All packets in the channels satisfy `Ok`. -/
def Held (Ok : Node → Node → Packet → Prop) (st : State Node Packet) : Prop :=
  ∀ u v, ∀ p ∈ st.channel u v, Ok u v p

/-- All packets that are sent satisfy `Valid`. -/
def Sends (Valid : Node → Packet → Prop) (actions : List (Action Node Packet)) : Prop :=
  ∀ u p, Action.send u p ∈ actions → Valid u p

variable {net} {Valid : Node → Packet → Prop} {Ok : Node → Node → Packet → Prop}
  {st : State Node Packet}

omit [DecidableEq Node] in
theorem Held.empty : Held Ok (State.empty : State Node Packet) := by
  intro u v p hp
  simp [State.empty] at hp

theorem Held.push (hheld : Held Ok st) {u : Node} {hops : List (Node × Packet)}
    (hhops : ∀ hop ∈ hops, Ok u hop.1 hop.2) : Held Ok (st.push u hops) := by
  intro a b p hp
  simp only [State.push] at hp
  split_ifs at hp with hsource
  · subst hsource
    rcases mem_append.mp hp with hold | hnew
    · exact hheld a b p hold
    · obtain ⟨hop, hmem, rfl⟩ := mem_map.mp hnew
      obtain ⟨hhop, hto⟩ := mem_filter.mp hmem
      have htarget : hop.1 = b := of_decide_eq_true hto
      rw [← htarget]
      exact hhops hop hhop
  · exact hheld a b p hp

theorem Held.drop (hheld : Held Ok st) {u v : Node} {p : Packet} {rest : List Packet}
    (hchannel : st.channel u v = p :: rest) : Held Ok (st.drop u v rest) := by
  intro a b q hq
  simp only [State.drop] at hq
  split_ifs at hq with hthis
  · obtain ⟨rfl, rfl⟩ := hthis
    apply hheld
    rw [hchannel]
    exact mem_cons_of_mem _ hq
  · exact hheld a b q hq

theorem Held.receive (hheld : Held Ok st) (v : Node) (p : Packet) : Held Ok (st.receive v p) :=
  hheld

/-- An action on packets that can be routed succeeds and leaves such packets. -/
theorem Typed.perform (htyped : Typed net Valid Ok) (hheld : Held Ok st)
    (action : Action Node Packet) (hvalid : ∀ u p, action = .send u p → Valid u p) :
    ∃ next, StoreForward.perform net st action = .ok next ∧ Held Ok next := by
  cases action with
  | send u p =>
    obtain ⟨hops, hroute, hhops⟩ := htyped.send u p (hvalid u p rfl)
    exact ⟨st.push u hops, perform_send hroute, hheld.push hhops⟩
  | pull u v =>
    cases hchannel : st.channel u v with
    | nil => exact ⟨st, by simp only [StoreForward.perform, hchannel], hheld⟩
    | cons p rest =>
      have hrest := hheld.drop hchannel
      cases hready : net.ready p with
      | true => exact ⟨_, perform_receive hchannel hready, hrest.receive v p⟩
      | false =>
        have hok : Ok u v p := by
          apply hheld
          rw [hchannel]
          exact mem_cons_self
        obtain ⟨hops, hroute, hhops⟩ := htyped.forward u v p hok hready
        exact ⟨_, perform_route hchannel hready hroute, hrest.push hhops⟩

/-- No run of valid sends fails. -/
theorem Typed.run (htyped : Typed net Valid Ok) (hheld : Held Ok st)
    (hvalid : Sends Valid actions) :
    ∃ final, StoreForward.run net st actions = .ok final ∧ Held Ok final := by
  induction actions generalizing st with
  | nil => exact ⟨st, rfl, hheld⟩
  | cons action actions ih =>
    obtain ⟨next, hstep, hnext⟩ := htyped.perform hheld action fun u p heq ↦
      hvalid u p (heq ▸ mem_cons_self)
    obtain ⟨final, hrun, hfinal⟩ := ih hnext fun u p hmem ↦ hvalid u p (mem_cons_of_mem _ hmem)
    exact ⟨final, (run_cons hstep).trans hrun, hfinal⟩

end Typing

/-! ### Queues in a row -/

section Concat

variable {Tag : Type}

/-- The contents of the queues `n, …, 0`, that is, from the one whose elements are oldest on. -/
def concat (queue : ℕ → List Tag) : ℕ → List Tag
  | 0 => queue 0
  | n + 1 => queue (n + 1) ++ concat queue n

variable {before after : ℕ → List Tag} {t : Tag}

/-- An element that enters the first queue is the newest. -/
theorem concat_enter (hafter : ∀ j, after j = before j ++ if j = 0 then [t] else []) (n : ℕ) :
    concat after n = concat before n ++ [t] := by
  induction n with
  | zero => simp [concat, hafter]
  | succ n ih => simp [concat, hafter, ih]

/-- The head of the last queue is the oldest element. -/
theorem concat_leave {n : ℕ} (hbefore : ∀ j, before j = (if j = n then [t] else []) ++ after j) :
    concat before n = t :: concat after n := by
  have hbelow : ∀ k, k < n → concat before k = concat after k := by
    intro k hk
    induction k with
    | zero => simp [concat, hbefore, show ¬ 0 = n by omega]
    | succ k ih => simp [concat, hbefore, ih (by omega), show ¬ k + 1 = n by omega]
  cases n with
  | zero => simp [concat, hbefore]
  | succ n => simp [concat, hbefore, hbelow n (by omega)]

/-- An element that goes from the head of a queue to the end of the next keeps its place. -/
theorem concat_move (rest : ℕ → List Tag) {i n : ℕ}
    (hbefore : ∀ j, before j = (if j = i then [t] else []) ++ rest j)
    (hafter : ∀ j, after j = rest j ++ if j = i + 1 then [t] else []) (hi : i < n) :
    concat before n = concat after n := by
  have hrest : ∀ k, k ≤ i → concat after k = concat rest k := by
    intro k hk
    induction k with
    | zero => simp [concat, hafter]
    | succ k ih => simp [concat, hafter, ih (by omega), show ¬ k = i by omega]
  induction n with
  | zero => omega
  | succ n ih =>
    rcases Nat.lt_succ_iff_lt_or_eq.mp hi with hlt | rfl
    · simp [concat, hbefore, hafter, ih hlt, show ¬ n + 1 = i by omega, show ¬ n = i by omega]
    · simp [concat, hbefore (i + 1), hafter (i + 1), concat_leave hbefore, hrest i (Nat.le_refl i)]

end Concat

/-! ### Flows that keep their order -/

/-- A flow of packets that pass through the same channels `0, …, length`, one copy of each. The
stage of a packet in a channel is its place on the way, for packets of other flows there is none. -/
structure Line [DecidableEq Node] (net : Network Node Packet Fault) (Valid : Node → Packet → Prop)
    (Ok : Node → Node → Packet → Prop) (Tag : Type) where
  /-- Where the flow ends. -/
  receiver : Node
  /-- The packets sent at a node that belong to the flow. -/
  flow : Node → Packet → Bool
  /-- The packets received that belong to the flow. -/
  arrived : Packet → Bool
  /-- What all copies of a packet have in common. -/
  tag : Packet → Tag
  length : ℕ
  source : ℕ → Node
  target : ℕ → Node
  stage : Node → Node → Packet → Option ℕ
  stage_channel : ∀ u v p i, stage u v p = some i → i ≤ length ∧ u = source i ∧ v = target i
  send : ∀ u p hops, Valid u p → net.send u p = .ok hops →
    hops.filterMap (fun hop ↦ (stage u hop.1 hop.2).map fun i ↦ (i, tag hop.2)) =
      if flow u p then [(0, tag p)] else []
  forward : ∀ u v p hops, Ok u v p → net.ready p = false → net.route v p = .ok hops →
    hops.filterMap (fun hop ↦ (stage v hop.1 hop.2).map fun i ↦ (i, tag hop.2)) =
      ((stage u v p).map fun i ↦ (i + 1, tag p)).toList
  ready : ∀ u v p, Ok u v p → net.ready p = true →
    stage u v p = if v = receiver ∧ arrived p then some length else none

namespace Line

variable [DecidableEq Node] {net : Network Node Packet Fault} {Valid : Node → Packet → Prop}
  {Ok : Node → Node → Packet → Prop} {Tag : Type} (line : Line net Valid Ok Tag)

/-- The hops of a node that are on the line, with their stages. -/
def marks (u : Node) (hops : List (Node × Packet)) : List (ℕ × Tag) :=
  hops.filterMap fun hop ↦ (line.stage u hop.1 hop.2).map fun i ↦ (i, line.tag hop.2)

/-- The packets of the flow in its channel `i`. -/
def contents (st : State Node Packet) (i : ℕ) : List Tag :=
  ((st.channel (line.source i) (line.target i)).filter
    fun p ↦ line.stage (line.source i) (line.target i) p = some i).map line.tag

/-- The packets of the flow that are under way, oldest first. -/
def pending (st : State Node Packet) : List Tag := concat (line.contents st) line.length

/-- The packets of the flow that have been received. -/
def delivered (st : State Node Packet) : List Tag :=
  ((st.received line.receiver).filter line.arrived).map line.tag

/-- The packets of the flow that are sent. -/
def sent (actions : List (Action Node Packet)) : List Tag :=
  actions.filterMap fun
    | .send u p => if line.flow u p then some (line.tag p) else none
    | .pull _ _ => none

/-- The hops of one node into channel `i`, as far as they are on the line. -/
theorem hops_in_channel (u : Node) (hops : List (Node × Packet)) (i : ℕ) :
    (if line.source i = u then
        (((hops.filter (·.1 = line.target i)).map Prod.snd).filter
          fun p ↦ line.stage (line.source i) (line.target i) p = some i).map line.tag
      else []) =
      ((line.marks u hops).filter (·.1 = i)).map Prod.snd := by
  induction hops with
  | nil => simp [marks]
  | cons hop hops ih =>
    -- a hop at stage `i` goes from `source i` to `target i`
    have hplace := line.stage_channel u hop.1 hop.2
    simp only [marks, filterMap_cons] at ih ⊢
    cases hstage : line.stage u hop.1 hop.2 with
    | none =>
      simp only [Option.map_none]
      rw [← ih]
      split_ifs with hsource
      · subst hsource
        by_cases htarget : hop.1 = line.target i
        · simp [htarget, htarget ▸ hstage]
        · simp [htarget]
      · rfl
    | some j =>
      obtain ⟨_, hu, hv⟩ := hplace j hstage
      simp only [Option.map_some]
      by_cases hij : j = i
      · subst hij
        have hsource : line.source j = u := hu.symm
        rw [if_pos hsource] at ih ⊢
        have hhere : line.stage (line.source j) (line.target j) hop.2 = some j := by
          rw [hsource, ← hv]
          exact hstage
        simp only [filter_cons, hv, hhere, map_cons, decide_true, if_true, ih]
      · simp only [filter_cons, hij, decide_false, Bool.false_eq_true, if_false, ← ih]
        split_ifs with hsource htarget
        · have hthere : line.stage (line.source i) (line.target i) hop.2 ≠ some i := by
            rw [hsource, ← of_decide_eq_true htarget, hstage]
            simpa using hij
          simp only [map_cons, filter_cons, hthere, decide_false, Bool.false_eq_true, if_false]
        · rfl
        · rfl

theorem contents_push (st : State Node Packet) (u : Node) (hops : List (Node × Packet)) (i : ℕ) :
    line.contents (st.push u hops) i =
      line.contents st i ++ ((line.marks u hops).filter (·.1 = i)).map Prod.snd := by
  rw [← line.hops_in_channel]
  unfold contents State.push
  by_cases hsource : line.source i = u
  · simp only [if_pos hsource, filter_append, map_append]
  · simp only [if_neg hsource, append_nil]

theorem contents_drop {st : State Node Packet} {u v : Node} {p : Packet} {rest : List Packet}
    (hchannel : st.channel u v = p :: rest) (i : ℕ) :
    line.contents st i = (if line.stage u v p = some i then [line.tag p] else []) ++
        line.contents (st.drop u v rest) i := by
  unfold contents State.drop
  by_cases hthis : line.source i = u ∧ line.target i = v
  · obtain ⟨rfl, rfl⟩ := hthis
    simp only [hchannel, and_self, if_true]
    split_ifs with hstage
    · rw [filter_cons_of_pos (by simpa using hstage)]
      rfl
    · rw [filter_cons_of_neg (by simpa using hstage)]
      rfl
  · have hstage : line.stage u v p ≠ some i := by
      intro hstage
      obtain ⟨_, hu, hv⟩ := line.stage_channel u v p i hstage
      exact hthis ⟨hu.symm, hv.symm⟩
    simp only [if_neg hthis, if_neg hstage, nil_append]

/-- One action: what is sent on the line comes last, and nothing else changes the order of what has
been received followed by what is under way. -/
theorem step {st next : State Node Packet} (hheld : Held Ok st)
    (hvalid : ∀ u p, action = .send u p → Valid u p) (hstep : perform net st action = .ok next) :
    line.delivered next ++ line.pending next =
      line.delivered st ++ line.pending st ++ line.sent [action] := by
  rcases perform_eq_ok net hstep with ⟨u, p, hops, rfl, hroute, rfl⟩ | ⟨u, v, rfl, rfl⟩ |
    ⟨u, v, p, rest, rfl, hchannel, hready, rfl⟩ |
    ⟨u, v, p, rest, hops, rfl, hchannel, hready, hroute, rfl⟩
  · -- a packet is sent
    have hmarks : line.marks u hops = if line.flow u p then [(0, line.tag p)] else [] :=
      line.send u p hops (hvalid u p rfl) hroute
    have hcontents := line.contents_push st u hops
    rw [hmarks] at hcontents
    have hsame : line.delivered (st.push u hops) = line.delivered st := rfl
    rw [hsame]
    cases hflow : line.flow u p with
    | false =>
      have hall : line.contents (st.push u hops) = line.contents st := by
        funext j
        rw [hcontents, hflow]
        simp
      simp [pending, hall, sent, hflow]
    | true =>
      have hlast : line.pending (st.push u hops) = line.pending st ++ [line.tag p] := by
        apply concat_enter
        intro j
        rw [hcontents, hflow]
        by_cases hj : j = 0
        · simp [hj]
        · simp [hj, Ne.symm hj]
      simp [hlast, sent, hflow]
  · -- the channel is empty
    simp [sent]
  · -- a packet is received
    have hok : Ok u v p := hheld u v p (hchannel ▸ mem_cons_self)
    have hstage := line.ready u v p hok hready
    have hcontents := line.contents_drop hchannel
    have hsame : line.pending ((st.drop u v rest).receive v p) =
        line.pending (st.drop u v rest) := rfl
    rw [hsame]
    by_cases hend : v = line.receiver ∧ line.arrived p
    · rw [if_pos hend] at hstage
      have hfirst : line.pending st = line.tag p :: line.pending (st.drop u v rest) := by
        apply concat_leave
        intro j
        rw [hcontents, hstage]
        simp only [Option.some.injEq, eq_comm]
      have hnew : line.delivered ((st.drop u v rest).receive v p) =
          line.delivered st ++ [line.tag p] := by
        simp [delivered, State.receive, State.drop, hend]
      simp [hfirst, hnew, sent]
    · rw [if_neg hend] at hstage
      have hall : line.contents st = line.contents (st.drop u v rest) := by
        funext j
        rw [hcontents, hstage]
        simp
      have hold : line.delivered ((st.drop u v rest).receive v p) = line.delivered st := by
        unfold delivered State.receive State.drop
        by_cases hv : line.receiver = v
        · have harrived : line.arrived p = false := by
            simpa [hv] using hend
          simp [hv, harrived]
        · simp [hv]
      simp [pending, hall, hold, sent]
  · -- a packet is routed on
    have hok : Ok u v p := hheld u v p (hchannel ▸ mem_cons_self)
    have hmarks : line.marks v hops = ((line.stage u v p).map fun i ↦ (i + 1, line.tag p)).toList :=
      line.forward u v p hops hok hready hroute
    have hdrop := line.contents_drop hchannel
    have hpush := line.contents_push (st.drop u v rest) v hops
    rw [hmarks] at hpush
    have hsame : line.delivered ((st.drop u v rest).push v hops) = line.delivered st := rfl
    have hpending : line.pending st = line.pending ((st.drop u v rest).push v hops) := by
      cases hstage : line.stage u v p with
      | none =>
        have hall : line.contents st = line.contents ((st.drop u v rest).push v hops) := by
          funext j
          rw [hdrop, hpush, hstage]
          simp
        simp only [pending, hall]
      | some i =>
        -- the next stage exists, so `i` is not the last one
        have hnext : (i + 1, line.tag p) ∈ line.marks v hops := by
          rw [hmarks, hstage]
          simp
        obtain ⟨hop, _, hmark⟩ := mem_filterMap.mp hnext
        obtain ⟨j, hj, hpair⟩ := Option.map_eq_some_iff.mp hmark
        have hlength := (line.stage_channel _ _ _ _ hj).1
        have hji : j = i + 1 := congrArg Prod.fst hpair
        apply concat_move (line.contents (st.drop u v rest)) (t := line.tag p) (i := i)
        · intro k
          rw [hdrop, hstage]
          simp only [Option.some.injEq, eq_comm]
        · intro k
          rw [hpush, hstage]
          by_cases hk : k = i + 1
          · simp [hk]
          · simp [hk, Ne.symm hk]
        · omega
    simp [hsame, hpending, sent]

/-- In the beginning nothing is under way and nothing has been received. -/
theorem delivered_append_pending_empty :
    line.delivered .empty ++ line.pending .empty = [] := by
  have hcontents : ∀ n, concat (line.contents .empty) n = [] := by
    intro n
    induction n with
    | zero => rfl
    | succ n ih => exact ih
  exact hcontents line.length

/-- A whole run: the packets of the flow that have been received, followed by those under way, are
those sent, in the order in which they were sent. -/
theorem run (htyped : Typed net Valid Ok) {st final : State Node Packet} (hheld : Held Ok st)
    (hvalid : Sends Valid actions) (hrun : StoreForward.run net st actions = .ok final) :
    line.delivered final ++ line.pending final =
      line.delivered st ++ line.pending st ++ line.sent actions := by
  -- what one action adds is `step`; the induction only joins the logs
  induction actions generalizing st with
  | nil =>
    obtain rfl : st = final := Except.ok.inj hrun
    simp [sent]
  | cons action actions ih =>
    have hfirst : ∀ u p, action = .send u p → Valid u p := fun u p heq ↦
      hvalid u p (heq ▸ mem_cons_self)
    obtain ⟨next, hstep, hnext⟩ := htyped.perform hheld action hfirst
    rw [run_cons hstep] at hrun
    have hlater := ih hnext (fun u p hmem ↦ hvalid u p (mem_cons_of_mem _ hmem)) hrun
    have hsent : line.sent (action :: actions) = line.sent [action] ++ line.sent actions := by
      unfold sent
      rw [← filterMap_append]
      rfl
    rw [hlater, line.step hheld hfirst hstep, hsent]
    simp only [append_assoc]

end Line

end CarbonSim.StoreForward
