import CarbonSim.Msi.DramDirectory
import CarbonSim.Msi.Tile

/-!
# The private-L2 MSI memory system

The tiles, their directories and the network. Messages between each ordered pair of tiles are
delivered exactly once and in order, so the network is one queue for each pair. A step is a core that
starts an access or retries it after a fill, or a tile that handles the first message of a queue.
Each is one critical section of the lock of the tile. Between a fill and the retry the network thread
waits for the application thread, so a tile with a filled miss handles no message.
-/

namespace CarbonSim.Msi

open Function

/-- The state of the memory system. -/
structure Sys (A : Type) (N : ℕ) where
  tile : Fin N → Tile A
  dir : Fin N → Dir A N
  chan : Fin N → Fin N → List (Packet A N)

/-- What a step may do. -/
inductive Action (A : Type) (N : ℕ)
  | access (t : Fin N) (acc : Access A) (modeled : Bool) (now : ℕ)
  | retry (t : Fin N) (modeled : Bool) (now : ℕ)
  | deliver (src dst : Fin N)

/-- What can be seen of a step: the message delivered, the messages sent, and the access completed
with the bytes it has read. -/
structure Obs (A : Type) (N : ℕ) where
  delivered : Option (Fin N × Fin N × ShmemMsg A N)
  sent : List (Fin N × Send A N)
  completed : Option (Fin N × Access A × List UInt8)

namespace Sys

variable {A : Type} {N : ℕ}

/-- The memory system before any access. -/
def start : Sys A N := ⟨fun _ ↦ .start, fun _ ↦ .start, fun _ _ ↦ []⟩

def setTile (s : Sys A N) (t : Fin N) (x : Tile A) : Sys A N :=
  { s with tile := update s.tile t x }

def setChan (s : Sys A N) (src dst : Fin N) (q : List (Packet A N)) : Sys A N :=
  { s with chan := update s.chan src (update (s.chan src) dst q) }

/-- The packets for tile `t`, in the order in which they are sent. -/
def packetsTo (t : Fin N) (sends : List (Send A N)) : List (Packet A N) :=
  (sends.filter fun x ↦ x.receiver = t).map Send.packet

/-- The network after tile `src` has sent some messages. -/
def post (s : Sys A N) (src : Fin N) (sends : List (Send A N)) : Sys A N :=
  { s with chan := update s.chan src fun t ↦ s.chan src t ++ packetsTo t sends }

/-- The directory of tile `h` when a handler starts. -/
def enter (s : Sys A N) (h : Fin N) (now : ℕ) : Dir A N := { s.dir h with clock := now, out := [] }

/-- A handler of the directory has finished: its messages leave. -/
def commit (s : Sys A N) (h : Fin N) (d : Dir A N) : Sys A N :=
  Sys.post { s with dir := update s.dir h { d with out := [] } } h d.out

variable [DecidableEq A] (cfg : Config A N) (env : Env A)

/-- `MemoryManager::handleMsgFromNetwork` of tile `dst`: the state, and the messages sent. -/
def handleMsgFromNetwork (s : Sys A N) (src dst : Fin N) (p : Packet A N) :
    Except Fault (Sys A N × List (Send A N)) :=
  let now := p.time + env.delay
  match p.msg.route with
  | .fromL1 comp => do
    require (src = dst) .senderTile
    let (t, sends) ←
      (s.tile dst).handleMsgFromL1Cache (cfg.tile dst) cfg.home dst comp p.msg now
    return ((s.setTile dst t).post dst sends, sends)
  | .fromDirectory => do
    let (t, sends) ←
      (s.tile dst).handleMsgFromDramDirectory (cfg.tile dst) cfg.home dst env.l1Way env.l2Way src
        p.msg cfg.capacityModeled now
    return ((s.setTile dst t).post dst sends, sends)
  | .toDirectory => do
    let d ← Dir.handleMsgFromL2Cache cfg env (s.enter dst now) src p.msg
    return (s.commit dst d, d.out)

/-- A tile that has been filled waits for its core. -/
def ready (s : Sys A N) (t : Fin N) : Bool :=
  match (s.tile t).app with
  | .filled _ _ => false
  | _ => true

/-- The result of an attempt of the core of tile `t`. -/
def finish (s : Sys A N) (t : Fin N) (acc : Access A)
    (r : Tile A × Option (List UInt8) × List (Send A N)) : Sys A N × Obs A N :=
  ((s.setTile t r.1).post t r.2.2,
    ⟨none, r.2.2.map fun x ↦ (t, x), r.2.1.map fun bytes ↦ (t, acc, bytes)⟩)

/-- An action, if it is enabled. -/
def perform (s : Sys A N) (act : Action A N) : Option (Except Fault (Sys A N × Obs A N)) :=
  match act with
  | .access t acc modeled now =>
    match (s.tile t).app with
    | .idle =>
      some (s.finish t acc <$> (s.tile t).access (cfg.tile t) t env.l1Way acc modeled now)
    | _ => none
  | .retry t modeled now =>
    match (s.tile t).app with
    | .filled acc num =>
      some (s.finish t acc <$> (s.tile t).retry (cfg.tile t) t env.l1Way acc num modeled now)
    | _ => none
  | .deliver src dst =>
    match s.ready dst, s.chan src dst with
    | true, p :: rest =>
      some ((fun r ↦ (r.1, ⟨some (src, dst, p.msg), r.2.map fun x ↦ (dst, x), none⟩)) <$>
        (s.setChan src dst rest).handleMsgFromNetwork cfg env src dst p)
    | _, _ => none

/-- What an action computes, by the condition that enables it. -/
inductive Performs (s : Sys A N) : Action A N → Except Fault (Sys A N × Obs A N) → Prop
  | access {t acc modeled now} (happ : (s.tile t).app = .idle) :
    Performs s (.access t acc modeled now)
      (s.finish t acc <$> (s.tile t).access (cfg.tile t) t env.l1Way acc modeled now)
  | retry {t acc n modeled now} (happ : (s.tile t).app = .filled acc n) :
    Performs s (.retry t modeled now)
      (s.finish t acc <$> (s.tile t).retry (cfg.tile t) t env.l1Way acc n modeled now)
  | deliver {src dst p rest} (hready : s.ready dst = true) (hc : s.chan src dst = p :: rest) :
    Performs s (.deliver src dst)
      ((fun r ↦ (r.1, ⟨some (src, dst, p.msg), r.2.map fun x ↦ (dst, x), none⟩)) <$>
        (s.setChan src dst rest).handleMsgFromNetwork cfg env src dst p)

theorem performs {s : Sys A N} {act : Action A N} {r : Except Fault (Sys A N × Obs A N)}
    (hr : s.perform cfg env act = some r) : Performs cfg env s act r := by
  cases act <;> dsimp only [perform] at hr <;> split at hr <;> cases hr
  · next happ => exact .access happ
  · next happ => exact .retry happ
  · next hready hc => exact .deliver hready hc

/-- The accesses that the program makes: on each tile a line is accessed only through some of the L1
caches. -/
def Permits (allowed : Fin N → A → L1Kind → Prop) : Action A N → Prop
  | .access t acc _ _ => allowed t acc.address acc.comp
  | _ => True

/-- The tile that takes an action. -/
def actor : Action A N → Fin N
  | .access t _ _ _ => t
  | .retry t _ _ => t
  | .deliver _ dst => dst

/-- One step of the memory system. -/
def Step (allowed : Fin N → A → L1Kind → Prop) (s : Sys A N) (o : Obs A N) (s' : Sys A N) : Prop :=
  ∃ env act, Permits allowed act ∧ env.Valid (cfg.tile (actor act)) ∧
    s.perform cfg env act = some (.ok (s', o))

/-- The memory as the completed accesses have left it: what a line should contain. -/
def after (mem : A → Block) (o : Obs A N) : A → Block :=
  match o.completed with
  | some (_, ⟨_, .write bytes, a, offset⟩, _) =>
    update mem a ((mem a).write offset bytes)
  | _ => mem

/-- A run: what was seen of each step, the latest first, the state reached, and the memory that the
completed stores make up. DRAM is zero at the start. -/
inductive Run (allowed : Fin N → A → L1Kind → Prop) : List (Obs A N) → Sys A N → (A → Block) → Prop
  | start : Run allowed [] start fun _ ↦ Block.zero
  | step {trace : List (Obs A N)} {s s' : Sys A N} {mem : A → Block} {o : Obs A N}
      (hrun : Run allowed trace s mem) (hstep : s.Step cfg allowed o s') :
      Run allowed (o :: trace) s' (after mem o)

/-- A run that is computed: the actions of a list, the first one first. There is no result if an
action is not enabled or fails. -/
def exec (trace : List (Obs A N)) (s : Sys A N) (mem : A → Block) :
    List (Action A N) → Option (List (Obs A N) × Sys A N × (A → Block))
  | [] => some (trace, s, mem)
  | act :: rest =>
    match s.perform cfg env act with
    | some (.ok (s', o)) => exec (o :: trace) s' (after mem o) rest
    | _ => none

/-- The actions of a list from the start. -/
def execStart (acts : List (Action A N)) : Option (List (Obs A N) × Sys A N × (A → Block)) :=
  exec cfg env [] start (fun _ ↦ Block.zero) acts

variable {cfg env} {allowed : Fin N → A → L1Kind → Prop} {acts : List (Action A N)}
  {trace : List (Obs A N)}
  {mem : A → Block} {s : Sys A N}

theorem Run.exec (h : Run cfg allowed trace s mem) (henv : ∀ t, env.Valid (cfg.tile t))
    (hacts : ∀ act ∈ acts, Permits allowed act) (hx : (Sys.exec cfg env trace s mem acts).isSome) :
    Run cfg allowed ((Sys.exec cfg env trace s mem acts).get hx).1
      ((Sys.exec cfg env trace s mem acts).get hx).2.1
      ((Sys.exec cfg env trace s mem acts).get hx).2.2 := by
  induction acts generalizing trace s mem with
  | nil => exact h
  | cons act rest ih =>
    unfold Sys.exec at hx
    split at hx
    · next s' o hp =>
      have hstep : s.Step cfg allowed o s' := ⟨env, act, hacts _ List.mem_cons_self, henv _, hp⟩
      have hrun := ih (h.step hstep) (fun y hy ↦ hacts y (List.mem_cons_of_mem _ hy)) hx
      simpa only [Sys.exec, hp] using hrun
    · simp at hx

theorem Run.of_execStart (henv : ∀ t, env.Valid (cfg.tile t))
    (hacts : ∀ act ∈ acts, Permits allowed act)
    (heq : execStart cfg env acts = some (trace, s, mem)) : Run cfg allowed trace s mem := by
  have hx : (execStart cfg env acts).isSome := by simp [heq]
  have hrun : Run cfg allowed ((execStart cfg env acts).get hx).1
      ((execStart cfg env acts).get hx).2.1 ((execStart cfg env acts).get hx).2.2 :=
    Run.start.exec henv hacts hx
  rwa [Option.get_of_eq_some hx heq] at hrun

end Sys

end CarbonSim.Msi
