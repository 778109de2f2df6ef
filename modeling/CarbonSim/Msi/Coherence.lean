import CarbonSim.Msi.Safety

/-!
# Coherence of the private-L2 MSI protocol

The two properties a program relies on: a line that one tile may write is in no other cache, and a
load returns the bytes last written. Both are read off the invariant `Good` of runs. The second one
needs that no line is accessed through both L1 caches of a tile, since an L2 line remembers only one
of them.
-/

namespace CarbonSim.Msi

open Directory Function

variable {A : Type} [DecidableEq A] {N : ℕ} {cfg : Config A N} {allowed : Fin N → A → L1Kind → Prop}
  {listed : Prop} {s s' : Sys A N} {mem : A → Block} {env : Env A} {act : Action A N}
  {o : Obs A N} {trace : List (Obs A N)}

omit [DecidableEq A] in
/-- Nothing but the scheme is asked of a memory system whose sharer lists need not be exact. -/
theorem Config.supported_unlisted (h : cfg.scheme ≠ .limitedBroadcast) : cfg.Supported False :=
  ⟨h, False.elim, False.elim⟩

/-! ### A small memory system -/

/-- `N` tiles with caches of one line, and the directory of the only line on tile 0. -/
def oneLine (N : ℕ) [NeZero N] (scheme : Scheme) : Config Unit N where
  tile _ := ⟨fun _ ↦ ⟨fun _ ↦ 0, [0]⟩, ⟨fun _ ↦ 0, [0]⟩, 64, fun _ _ ↦ 1, fun _ ↦ 1⟩
  home _ := 0
  directory := ⟨fun _ ↦ 0, List.range' 0 N⟩
  scheme
  maxHwSharers := 1
  directoryDelay := 1
  softwareTrapPenalty := 1
  capacityModeled := false

/-- An environment of this memory system. -/
def oneWay {B : Type} : Env B := ⟨1, fun _ ↦ 0, 0, fun _ _ ↦ 1⟩

theorem oneWay_valid (N : ℕ) [NeZero N] (scheme : Scheme) (t : Fin N) :
    oneWay.Valid ((oneLine N scheme).tile t) :=
  ⟨fun _ ↦ List.mem_singleton.mpr rfl, List.mem_singleton.mpr rfl⟩

/-- A run of this memory system. -/
theorem oneLine_run {N : ℕ} [NeZero N] {scheme : Scheme} {allowed : Fin N → Unit → L1Kind → Prop}
    {acts : List (Action Unit N)} (hacts : ∀ act ∈ acts, Sys.Permits allowed act)
    (hx : (Sys.execStart (oneLine N scheme) oneWay acts).isSome) :
    Sys.Run (oneLine N scheme) allowed ((Sys.execStart (oneLine N scheme) oneWay acts).get hx).1
      ((Sys.execStart (oneLine N scheme) oneWay acts).get hx).2.1
      ((Sys.execStart (oneLine N scheme) oneWay acts).get hx).2.2 :=
  Sys.Run.start.exec (oneWay_valid N scheme) hacts hx

/-- The steps of an access that misses, when no other tile holds the line. -/
def missSteps {N : ℕ} [NeZero N] (t : Fin N) (comp : L1Kind) (op : MemOp) : List (Action Unit N) :=
  [.access t ⟨comp, op, (), 0⟩ true 0, .deliver t t, .deliver t 0, .deliver 0 t, .retry t true 0]

/-! ### Single writer -/

def LineCState.toCState : LineCState → CState
  | .invalid => .invalid
  | .shared => .shared
  | .modified => .modified

/-- The state of the line in the L2 cache of a tile. -/
theorem View.l2State {p : Phase} {a : A} {L : Line N Block} (hv : View cfg listed s p a L)
    (t : Fin N) : (s.tile t).l2State (cfg.tile t) a = (L.tile t).cstate.toCState := by
  have hstate : (s.tile t).l2State (cfg.tile t) a
      = (((s.tile t).content (cfg.tile t) a).map Prod.fst).getD .invalid := by
    simp [Tile.l2State, Tile.content, comp_def]
  rw [hstate, (hv.tile t).held]
  unfold TileView.held
  cases (L.tile t).cstate <;> rfl

/-- A line that one L2 cache holds MODIFIED is in no other L2 cache. -/
theorem single_writer (hscheme : cfg.scheme ≠ .limitedBroadcast)
    (hrun : Sys.Run cfg allowed trace s mem) (a : A) {t u : Fin N} (htu : t ≠ u)
    (ht : (s.tile t).l2State (cfg.tile t) a = .modified) :
    (s.tile u).l2State (cfg.tile u) a = .invalid := by
  obtain ⟨L, hv, hL, -⟩ := (Good.run (Config.supported_unlisted hscheme) hrun).line a
  rw [hv.l2State] at ht ⊢
  have hm : (L.tile t).cstate = .modified := by
    cases hc : (L.tile t).cstate <;> simp [hc, LineCState.toCState] at ht
    rfl
  obtain ⟨hmem, -⟩ := hL.cval (t := t) (by simp [hm])
  have hd := ((hL.present t hmem).of_modified hm).1
  -- the modified copy is the only one that the directory records
  have hu : u ∉ L.sharers := by
    rw [hL.sharers_eq hd hmem, Finset.mem_singleton]
    exact htu.symm
  rw [(hL.absent u hu).cstate]
  rfl

/-- Tile 1 reads the line, then tile 0 stores to it: the copy of tile 1 is invalidated. -/
def readThenStore : List (Action Unit 2) :=
  missSteps 1 .dcache (.read 1) ++
    [.access 0 ⟨.dcache, .write [7], (), 0⟩ true 0, .deliver 0 0, .deliver 0 0, .deliver 0 1,
      .deliver 1 0, .deliver 0 0, .retry 0 true 0]

theorem single_writer_readThenStore : ∃ trace s mem,
    Sys.Run (oneLine 2 .ackwise) (fun _ _ _ ↦ True) trace s mem ∧
      (s.tile 0).l2State ((oneLine 2 .ackwise).tile 0) () = .modified ∧
      (s.tile 1).l2State ((oneLine 2 .ackwise).tile 1) () = .invalid := by
  have hx : (Sys.execStart (oneLine 2 .ackwise) oneWay readThenStore).isSome := by decide
  have hrun : Sys.Run (oneLine 2 .ackwise) (fun _ _ _ ↦ True) _ _ _ :=
    oneLine_run (by simp [readThenStore, missSteps, Sys.Permits]) hx
  have hm : (((Sys.execStart (oneLine 2 .ackwise) oneWay readThenStore).get hx).2.1.tile 0).l2State
      ((oneLine 2 .ackwise).tile 0) () = .modified := rfl
  exact ⟨_, _, _, hrun, hm, single_writer (by decide) hrun () (by decide) hm⟩

/-! ### Loads return the last store -/

/-- The byte last written to offset `i` of line `a`; DRAM is zero at the start. -/
def lastWrite : List (Obs A N) → A → ℕ → UInt8
  | [], _, _ => 0
  | o :: trace, a, i =>
    match o.completed with
    | some (_, ⟨_, .write bytes, b, offset⟩, _) =>
      if h : b = a ∧ offset ≤ i ∧ i - offset < bytes.length then bytes[i - offset]
      else lastWrite trace a i
    | _ => lastWrite trace a i

/-- The memory that the completed stores make up holds the bytes last written. -/
theorem Sys.Run.mem_eq (h : Sys.Run cfg allowed trace s mem) (a : A) (i : ℕ) :
    mem a i = lastWrite trace a i := by
  induction h with
  | start => rfl
  | @step trace s s' mem o hrun hstep ih =>
    unfold Sys.after lastWrite
    rcases hc : o.completed with _ | ⟨t, ⟨comp, op, b, offset⟩, done⟩
    · exact ih
    · cases op with
      | read _ | readEx _ => exact ih
      | write bytes =>
        by_cases hb : a = b
        · subst hb
          dsimp only
          rw [update_self, Block.write_apply, ih]
          simp
        · dsimp only
          rw [update_of_ne hb, ih, dif_neg fun h ↦ hb h.1.symm]

/-- What is seen of a round that completes. -/
theorem completes_of_finish {t : Fin N} {acc : Access A} {n now : ℕ} {modeled : Bool}
    {r : Tile A × Option (List UInt8) × List (Send A N)}
    (hr : Tile.RoundPost (cfg.tile t) (allowed t) t (s.tile t) acc n modeled now r) {u : Fin N}
    {acc' : Access A} {bytes : List UInt8}
    (hc : (s.finish t acc r).2.completed = some (u, acc', bytes)) :
    Tile.Completes (cfg.tile u) (allowed u) (s.tile u) acc' bytes r.1 := by
  obtain ⟨bytes', hb, heq⟩ := Option.map_eq_some_iff.mp hc
  obtain ⟨rfl, rfl, rfl⟩ : t = u ∧ acc = acc' ∧ bytes' = bytes := by simpa using heq
  exact (hr.hit bytes' hb).2.2

/-- An access that completes reads or writes the L2 line of its tile. -/
theorem Good.completes (h : Coherent cfg allowed listed s mem)
    (hact : Sys.Permits allowed act) (henv : env.Valid (cfg.tile (Sys.actor act)))
    {r : Except Fault (Sys A N × Obs A N)} (hr : s.perform cfg env act = some r) :
    Yields r (fun x ↦ ∀ t acc bytes, x.2.completed = some (t, acc, bytes) →
      ∃ y, Tile.Completes (cfg.tile t) (allowed t) (s.tile t) acc bytes y) := by
  cases Sys.performs cfg env hr with
  | access happ =>
    refine .bind_mono ((h.tile _).access happ henv.l1Way hact) (fun _ _ ↦ trivial) ?_
    exact fun x hx u acc' bytes hc ↦ ⟨_, completes_of_finish hx hc⟩
  | retry happ =>
    refine .bind_mono ((h.tile _).retry happ henv.l1Way) (fun _ _ ↦ trivial) ?_
    exact fun x hx u acc' bytes hc ↦ ⟨_, completes_of_finish hx hc⟩
  | deliver => exact .skip fun x t acc bytes hc ↦ by simp at hc

/-- The loads of a tile return the bytes last written, if the tile accesses no line through both of
its L1 caches; DRAM is up to date unless the line is MODIFIED in the directory; and DRAM is not
written before it is read. -/
theorem loads_last_write (hscheme : cfg.scheme ≠ .limitedBroadcast)
    (hrun : Sys.Run cfg allowed trace s mem) :
    (∀ o rest, trace = o :: rest → ∀ t acc bytes, Pure (allowed t) →
      o.completed = some (t, acc, bytes) → (∀ bs, acc.op ≠ .write bs) →
        bytes = (List.range acc.op.length).map
          fun i ↦ lastWrite rest acc.address (acc.offset + i)) ∧
      (∀ a, (∀ e, (s.dir (cfg.home a)).cache.entry cfg.directory a = some e →
        e.dstate = .uncached ∨ e.dstate = .shared) →
          ∀ i, ((s.dir (cfg.home a)).dram a).getD Block.zero i = lastWrite trace a i) ∧
      ∀ env act, Sys.Permits allowed act → env.Valid (cfg.tile (Sys.actor act)) →
        s.perform cfg env act ≠ some (.error .noDramData) := by
  have hcfg := Config.supported_unlisted hscheme
  have hgood := Good.run hcfg hrun
  refine ⟨?_, fun a hd i ↦ ?_, fun env act hact henv hp ↦ ?_⟩
  · rintro o rest rfl t acc bytes hpure hc hload
    cases hrun with
    | @step _ s _ mem _ hrun hstep =>
      obtain ⟨env, act, hact, henv, hp⟩ := hstep
      have hold := Good.run hcfg hrun
      obtain ⟨y, hy⟩ := (hold.completes hact henv hp) t acc bytes hc
      obtain ⟨st, data, hcont, rfl⟩ := hy.load hload hpure
      obtain ⟨L, hv, hL, hlatest⟩ := hold.line acc.address
      rw [hv.eq_latest hL hcont, hlatest]
      unfold Block.read
      simp only [hrun.mem_eq]
  · obtain ⟨L, hv, hL, hlatest⟩ := hgood.line a
    have hne : L.dstate ≠ .modified := by
      intro hm
      obtain ⟨e, he⟩ := hv.dir.exists_entry (by simp [hm])
      have hst := (hv.dir.entry e he).dstate
      rw [hm] at hst
      rcases hd e he with hd | hd <;> simp [hd, LineDState.toDState] at hst
    rw [← hv.dir.dram, hL.fresh hne, hlatest, hrun.mem_eq]
  · exact (Outcome.of_eq_error (hgood.perform hcfg hact henv hp) rfl).1 rfl

/-- A tile reads the line through L1-I, stores to it through L1-D, and reads it through L1-I again. -/
def readStoreRead {N : ℕ} [NeZero N] : List (Action Unit N) :=
  missSteps 0 .icache (.read 1) ++
    [.access 0 ⟨.dcache, .write [7], (), 0⟩ true 0, .deliver 0 0, .deliver 0 0, .deliver 0 0,
      .deliver 0 0, .retry 0 true 0, .access 0 ⟨.icache, .read 1, (), 0⟩ true 0]

/-- The L2 line only knows of L1-D, so the copy in L1-I survives the store and is read. -/
theorem stale_load_readStoreRead : ∃ trace s mem,
    Sys.Run (oneLine 1 .fullMap) (fun _ _ _ ↦ True) trace s mem ∧
      trace.head?.bind Obs.completed = some (0, ⟨.icache, .read 1, (), 0⟩, [0]) ∧
      lastWrite trace.tail () 0 = 7 := by
  have hx : (Sys.execStart (oneLine 1 .fullMap) oneWay readStoreRead).isSome := by decide
  exact ⟨_, _, _, oneLine_run (by simp [readStoreRead, missSteps, Sys.Permits]) hx, rfl, rfl⟩

/-- Tile 0 stores to the line and tile 1 reads it: the data is written back for the load. -/
def storeThenRead : List (Action Unit 2) :=
  missSteps 0 .dcache (.write [7]) ++
    [.access 1 ⟨.dcache, .read 1, (), 0⟩ true 0, .deliver 1 1, .deliver 1 0, .deliver 0 0,
      .deliver 0 0, .deliver 0 1, .retry 1 true 0]

theorem loads_last_write_storeThenRead : ∃ trace s mem,
    Sys.Run (oneLine 2 .fullMap) (fun _ _ c ↦ c = .dcache) trace s mem ∧
      trace.head?.bind Obs.completed = some (1, ⟨.dcache, .read 1, (), 0⟩, [7]) ∧
      [7] = (List.range 1).map (fun i ↦ lastWrite trace.tail () (0 + i)) ∧
      ((s.dir 0).dram ()).getD Block.zero 0 = lastWrite trace () 0 ∧
      s.perform (oneLine 2 .fullMap) oneWay (.access 1 ⟨.dcache, .read 1, (), 0⟩ true 0) ≠
        some (.error .noDramData) := by
  have hx : (Sys.execStart (oneLine 2 .fullMap) oneWay storeThenRead).isSome := by decide
  have hrun : Sys.Run (oneLine 2 .fullMap) (fun _ _ c ↦ c = .dcache) _ _ _ :=
    oneLine_run (by simp [storeThenRead, missSteps, Sys.Permits]) hx
  have hpure : Pure fun (_ : Unit) c ↦ c = L1Kind.dcache := fun _ _ _ h h' ↦ h.trans h'.symm
  obtain ⟨hload, hdram, herr⟩ := loads_last_write (by decide) hrun
  refine ⟨_, _, _, hrun, rfl, hload _ _ rfl 1 ⟨.dcache, .read 1, (), 0⟩ [7] hpure rfl (by simp),
    hdram () (fun e he ↦ ?_) 0, herr _ _ rfl (oneWay_valid 2 .fullMap 1)⟩
  obtain rfl := Option.some.inj he
  exact .inr rfl

end CarbonSim.Msi
