import CarbonSim.Lib.Runs
import CarbonSim.Msi.TileInvariant

/-!
# Runs of a tile

A tile by itself: its core makes accesses, the requests of its L1 caches reach its L2 cache, and the
directories send it messages, whatever they are. After every handler that has completed the L1 caches
are included in the L2 cache, if no line is accessed through both of them.
-/

namespace CarbonSim.Msi

/-- A tile with the requests that its L1 caches have sent to its L2 cache. -/
structure TileState (A : Type) (N : ℕ) where
  tile : Tile A
  requests : List (Packet A N)

/-- A handler of a tile; the replacement policies pick the ways. -/
inductive TileEvent (A : Type) (N : ℕ)
  | access (env : Env A) (acc : Access A) (modeled : Bool) (now : ℕ)
  | retry (env : Env A) (modeled : Bool) (now : ℕ)
  | request (env : Env A)
  | deliver (env : Env A) (sender : Fin N) (m : ShmemMsg A N) (now : ℕ)

namespace TileState

variable {A : Type} {N : ℕ}

def start : TileState A N := ⟨.start, []⟩

/-- The tile after a round of a memory operation; what it sends are requests to its own L2 cache. -/
def finish (s : TileState A N) (r : Tile A × Option (List UInt8) × List (Send A N)) :
    TileState A N :=
  ⟨r.1, s.requests ++ r.2.2.map Send.packet⟩

variable [DecidableEq A] (cfg : TileConfig A) (home : A → Fin N) (here : Fin N)
  (capacityModeled : Bool)

/-- A handler, or `none` as the error if it cannot run: an access starts when the core is idle, is
retried after the fill, and a tile that has been filled handles no message before that. -/
def step (s : TileState A N) : TileEvent A N → Except (Option Fault) (TileState A N)
  | .access env acc modeled now =>
    match s.tile.app with
    | .idle => (s.finish <$> s.tile.access cfg here env.l1Way acc modeled now).mapError some
    | _ => .error none
  | .retry env modeled now =>
    match s.tile.app with
    | .filled acc num =>
      (s.finish <$> s.tile.retry cfg here env.l1Way acc num modeled now).mapError some
    | _ => .error none
  | .request env =>
    match s.tile.app, s.requests with
    | .filled _ _, _ => .error none
    | _, [] => .error none
    | _, p :: rest =>
      match p.msg.route with
      | .fromL1 comp => ((fun r ↦ ⟨r.1, rest⟩) <$>
          s.tile.handleMsgFromL1Cache cfg home here comp p.msg (p.time + env.delay)).mapError some
      | _ => .error none
  | .deliver env sender m now =>
    match s.tile.app with
    | .filled _ _ => .error none
    | _ => ((fun r ↦ ⟨r.1, s.requests⟩) <$> s.tile.handleMsgFromDramDirectory cfg home here env.l1Way
        env.l2Way sender m capacityModeled now).mapError some

def machine : Machine (TileState A N) (TileEvent A N) (Option Fault) where
  start := start
  step := step cfg home here capacityModeled

/-- The accesses of the program, and replacement policies that pick ways that exist. -/
def Meets (allowed : A → L1Kind → Prop) (_ : TileState A N) : TileEvent A N → Prop
  | .access env acc _ _ => allowed acc.address acc.comp ∧ env.Valid cfg
  | .retry env _ _ => env.Valid cfg
  | .request env => env.Valid cfg
  | .deliver env _ _ _ => env.Valid cfg

/-- The states of a tile after handlers that have completed. -/
def Reached (allowed : A → L1Kind → Prop) (s : TileState A N) : Prop :=
  (machine cfg home here capacityModeled).Reached (Meets cfg allowed) s

/-- The invariant of the tile, and the request of its miss is on the way until the L2 has it. -/
structure Inv (allowed : A → L1Kind → Prop) (s : TileState A N) : Prop where
  tile : s.tile.Inv cfg allowed
  asking : ∀ acc n, s.tile.app = .missed acc n → s.tile.outstanding = none →
    ∃ modeled time, s.requests = [⟨Tile.l1Request here acc modeled, time⟩]
  quiet : ((∀ acc n, s.tile.app ≠ .missed acc n) ∨ s.tile.outstanding ≠ none) → s.requests = []

/-- The asserts on the locations of lines. -/
def Location (e : Option Fault) : Prop := e = some .setCachedLoc ∨ e = some .clearCachedLoc

variable {cfg home here capacityModeled} {allowed : A → L1Kind → Prop} {s s' : TileState A N}

omit [DecidableEq A] in
/-- A handler whose faults are mapped. -/
theorem outcome_mapError {α β : Type} {r : Except Fault α} {f : α → β} {post : β → Prop}
    {fault : Option Fault → Prop} (h : Outcome r (fun a ↦ post (f a)) fun e ↦ fault (some e)) :
    Outcome ((f <$> r).mapError some) post fault := by
  cases r with
  | ok a => exact h
  | error e => exact h

omit [DecidableEq A] in
theorem inv_start [DecidableEq A] : Inv cfg here allowed (start : TileState A N) :=
  ⟨.start, fun _ _ h ↦ (nomatch h), fun _ ↦ rfl⟩

section

variable (h : Inv cfg here allowed s)

include h

/-- A round of a memory operation of a core that is not waiting. -/
theorem Inv.round {acc : Access A} {n now : ℕ} {modeled : Bool}
    (happ : ∀ acc n, s.tile.app ≠ .missed acc n)
    (r : Tile A × Option (List UInt8) × List (Send A N))
    (hr : Tile.RoundPost cfg allowed here s.tile acc n modeled now r) :
    Inv cfg here allowed (s.finish r) := by
  have hquiet := h.quiet (.inl happ)
  cases hbytes : r.2.1 with
  | some bytes =>
    obtain ⟨hidle, hsends, -⟩ := hr.hit bytes hbytes
    refine ⟨hr.inv, fun acc' n' heq ↦ ?_, fun _ ↦ ?_⟩
    · exact absurd (hidle.symm.trans heq) nofun
    · show s.requests ++ r.2.2.map Send.packet = []
      rw [hquiet, hsends]
      rfl
  | none =>
    obtain ⟨hmissed, -, ⟨time, -, hsends⟩, -⟩ := hr.miss hbytes
    refine ⟨hr.inv, fun acc' n' heq _ ↦ ?_, fun hno ↦ ?_⟩
    · obtain ⟨rfl, -⟩ : acc = acc' ∧ n = n' := App.missed.inj (hmissed.symm.trans heq)
      refine ⟨modeled, time, ?_⟩
      show s.requests ++ r.2.2.map Send.packet = _
      rw [hquiet, hsends]
      rfl
    · rcases hno with hno | hno
      · exact absurd hmissed (hno acc n)
      · exact absurd hr.outstanding hno

/-- A handler that changes neither the core nor the outstanding miss. -/
theorem Inv.served {a : A} {x : Option (CState × Block)} {t : Tile A}
    (ht : Tile.Served cfg allowed s.tile a x t) : Inv cfg here allowed ⟨t, s.requests⟩ := by
  refine ⟨ht.inv, fun acc n happ hout ↦ ?_, fun hno ↦ ?_⟩
  · exact h.asking acc n (ht.app ▸ happ) (ht.outstanding ▸ hout)
  · refine h.quiet (hno.imp (fun hno acc n ↦ ?_) fun hno ↦ ?_)
    · exact ht.app ▸ hno acc n
    · exact ht.outstanding ▸ hno

/-- A reply fills the line of the miss. -/
theorem Inv.filled {acc : Access A} {n : ℕ} {line : L1Line} {evicted : Option (A × CState × Block)}
    {t : Tile A} (ht : Tile.FillPost cfg allowed s.tile acc n line evicted t) :
    Inv cfg here allowed ⟨t, s.requests⟩ := by
  have hquiet : s.requests = [] := h.quiet (.inr fun hnone ↦ by
    rw [ht.outstanding] at hnone
    cases hnone)
  refine ⟨ht.inv, fun acc' n' happ ↦ ?_, fun _ ↦ hquiet⟩
  exact absurd (ht.app'.symm.trans happ) nofun

theorem Inv.deliver (hpure : Pure allowed) {env : Env A} (henv : env.Valid cfg) (sender : Fin N)
    (m : ShmemMsg A N) (now : ℕ) :
    Outcome (s.tile.handleMsgFromDramDirectory cfg home here env.l1Way env.l2Way sender m
      capacityModeled now) (fun r ↦ Inv cfg here allowed ⟨r.1, s.requests⟩)
      fun e ↦ ¬ Location (some e) := by
  have hrep : ∀ e, Tile.RepFault allowed s.tile m now e → ¬ Location (some e) := by
    rintro e (⟨rfl, -⟩ | ⟨rfl, -⟩ | ⟨-, hno⟩ | ⟨rfl, -⟩)
    · rintro (heq | heq) <;> cases heq
    · rintro (heq | heq) <;> cases heq
    · exact absurd hpure hno
    · rintro (heq | heq) <;> cases heq
  have hstate : ¬ Location (some .cacheState) := by
    rintro (heq | heq) <;> cases heq
  unfold Tile.handleMsgFromDramDirectory
  cases m.type with
  | exRep =>
    refine (h.tile.processRepFromDramDirectory henv.l1Way henv.l2Way (.inr rfl)).mono ?_ hrep
    rintro r ⟨acc, n, data, evicted, -, -, hfill, -⟩
    exact h.filled hfill
  | shRep =>
    refine (h.tile.processRepFromDramDirectory henv.l1Way henv.l2Way (.inl rfl)).mono ?_ hrep
    rintro r ⟨acc, n, data, evicted, -, -, hfill, -⟩
    exact h.filled hfill
  | invReq =>
    refine h.tile.processInvReqFromDramDirectory.mono (fun r hr ↦ h.served hr.1) ?_
    rintro e ⟨rfl, -⟩
    exact hstate
  | flushReq =>
    refine h.tile.processFlushReqFromDramDirectory.mono (fun r hr ↦ h.served hr.1) ?_
    rintro e ⟨rfl, -⟩
    exact hstate
  | wbReq =>
    refine h.tile.processWbReqFromDramDirectory.mono ?_ ?_
    · rintro r (⟨hserved, -⟩ | ⟨d, time, -, -, hserved, -⟩)
      all_goals exact h.served hserved
    · rintro e ⟨rfl, -⟩
      exact hstate
  | _ =>
    rintro (heq | heq) <;> cases heq

theorem Inv.request {p : Packet A N} {rest : List (Packet A N)} (hrequests : s.requests = p :: rest) :
    ∃ acc n modeled time, s.tile.app = .missed acc n ∧ s.tile.outstanding = none ∧
      p = ⟨Tile.l1Request here acc modeled, time⟩ ∧ rest = [] := by
  have hne : s.requests ≠ [] := by
    rw [hrequests]
    exact nofun
  cases happ : s.tile.app with
  | missed acc n =>
    have hout : s.tile.outstanding = none := by
      by_contra hout
      exact hne (h.quiet (.inr hout))
    obtain ⟨modeled, time, heq⟩ := h.asking acc n happ hout
    obtain ⟨rfl, rfl⟩ := List.cons.inj (hrequests.symm.trans heq)
    exact ⟨acc, n, modeled, time, rfl, hout, rfl, rfl⟩
  | idle | filled acc n =>
    exact absurd (h.quiet (.inl fun acc n heq ↦ by rw [happ] at heq; cases heq)) hne

/-- Every handler keeps the invariant, and none fails on the location of a line. -/
theorem Inv.step (hpure : Pure allowed) {e : TileEvent A N} (hmeets : Meets cfg allowed s e) :
    Outcome (s.step cfg home here capacityModeled e) (Inv cfg here allowed) fun e ↦ ¬ Location e := by
  have hdisabled : ¬ Location none := by
    rintro (heq | heq) <;> cases heq
  have haccess : ∀ acc e, Tile.AccessFault cfg allowed acc e → ¬ Location (some e) := by
    rintro acc e (⟨rfl, -⟩ | ⟨-, hno⟩)
    · rintro (heq | heq) <;> cases heq
    · exact absurd hpure hno
  cases e with
  | access env acc modeled now =>
    unfold TileState.step
    cases happ : s.tile.app with
    | idle =>
      refine outcome_mapError ((h.tile.access happ hmeets.2.l1Way hmeets.1).mono ?_ (haccess acc))
      exact h.round (by rw [happ]; exact nofun)
    | missed | filled => exact hdisabled
  | retry env modeled now =>
    unfold TileState.step
    cases happ : s.tile.app with
    | filled acc n =>
      refine outcome_mapError ((h.tile.retry happ hmeets.l1Way).mono ?_ ?_)
      · exact h.round (by rw [happ]; exact nofun)
      · rintro e (⟨rfl, -⟩ | hfault)
        · rintro (heq | heq) <;> cases heq
        · exact haccess acc e hfault
    | idle | missed => exact hdisabled
  | request env =>
    unfold TileState.step
    cases hrequests : s.requests with
    | nil => cases s.tile.app <;> exact hdisabled
    | cons p rest =>
      obtain ⟨acc, n, modeled, time, happ, hout, rfl, rfl⟩ := h.request hrequests
      rw [happ]
      refine outcome_mapError ((h.tile.handleMsgFromL1Cache happ hout).mono ?_ ?_)
      · rintro r ⟨hrequested, -⟩
        refine ⟨hrequested.inv, fun acc' n' _ hnone ↦ ?_, fun _ ↦ rfl⟩
        exact absurd (hrequested.outstanding.symm.trans hnone) nofun
      · exact fun _ hfalse ↦ hfalse.elim
  | deliver env sender m now =>
    unfold TileState.step
    cases s.tile.app with
    | filled acc n => exact hdisabled
    | idle | missed => exact outcome_mapError (h.deliver hpure hmeets sender m now)

end

theorem Reached.inv (hs : Reached cfg home here capacityModeled allowed s) (hpure : Pure allowed) :
    Inv cfg here allowed s :=
  hs.invariant inv_start fun _ _ _ h hmeets hstep ↦ (h.step hpure hmeets).of_eq_ok hstep

/-- After every handler an L1 line is in the L2 in the same state with that L1 as its location, and an
L2 line has a location only if that L1 holds the line or has dropped it for an upgrade miss that has not
reached the L2. So the L1 holds nothing of a line that the L2 does not hold, and nothing that may be
written of a line that the L2 may not write; and no handler fails on a location. -/
theorem l1_included (hpure : Pure allowed) (hs : Reached cfg home here capacityModeled allowed s) :
    (∀ c a l, s.tile.l1Line cfg c a = some l → ∃ line, s.tile.l2Line cfg a = some line ∧
      line.cstate = l.cstate ∧ line.cachedLoc = some c) ∧
    (∀ c a line, s.tile.l2Line cfg a = some line → line.cachedLoc = some c →
      (s.tile.l1Line cfg c a).isSome ∨ ∃ acc n, s.tile.app = .missed acc n ∧
        s.tile.outstanding = none ∧ acc.op.exclusive = true ∧ a = acc.address ∧ c = acc.comp) ∧
    (∀ a, s.tile.l2Line cfg a = none → ∀ c, s.tile.l1Line cfg c a = none) ∧
    (∀ a, s.tile.l2State cfg a ≠ .modified → ∀ c, s.tile.l1State cfg c a ≠ .modified) ∧
    ∀ e, Meets cfg allowed s e →
      s.step cfg home here capacityModeled e ≠ .error (some .setCachedLoc) ∧
      s.step cfg home here capacityModeled e ≠ .error (some .clearCachedLoc) := by
  have h := hs.inv hpure
  have hincluded := fun c a l hl ↦ (h.tile.caches.included hpure c a l hl).2
  refine ⟨fun c a l hl ↦ ⟨_, hincluded c a l hl, rfl, rfl⟩, fun c a line hline hloc ↦ ?_,
    fun a hnone c ↦ ?_, fun a hne c hmodified ↦ ?_, fun e hmeets ↦ ⟨fun heq ↦ ?_, fun heq ↦ ?_⟩⟩
  · obtain ⟨-, hin | ⟨-, acc, n, happ, hout, haddress, hcomp, hex⟩⟩ :=
      h.tile.caches.located hpure c a line hline hloc
    · exact .inl hin
    · exact .inr ⟨acc, n, happ, hout, hex, haddress, hcomp⟩
  · cases hl : s.tile.l1Line cfg c a with
    | none => rfl
    | some l => exact absurd (hnone.symm.trans (hincluded c a l hl)) nofun
  · cases hl : s.tile.l1Line cfg c a with
    | none => simp [Tile.l1State, hl] at hmodified
    | some l =>
      have hbacked := hincluded c a l hl
      unfold Tile.Backed at hbacked
      simp [Tile.l1State, hl] at hmodified
      simp [Tile.l2State, hbacked, hmodified] at hne
  · exact (h.step hpure hmeets).of_eq_error heq (.inl rfl)
  · exact (h.step hpure hmeets).of_eq_error heq (.inr rfl)

/-- Caches of one line each. -/
def oneLineTile : TileConfig Bool :=
  ⟨fun _ ↦ ⟨fun _ ↦ 0, [0]⟩, ⟨fun _ ↦ 0, [0]⟩, 64, fun _ _ ↦ 1, fun _ ↦ 1⟩

def firstWay : Env Bool := ⟨1, fun _ ↦ 0, 0, fun _ _ ↦ 1⟩

theorem firstWay_valid : firstWay.Valid oneLineTile :=
  ⟨fun _ ↦ List.mem_singleton.mpr rfl, List.mem_singleton.mpr rfl⟩

/-- A line is read and then written, which misses; the request has not reached the L2. -/
def upgrading : List (TileEvent Bool 1) :=
  [.access firstWay ⟨.dcache, .read 1, false, 0⟩ true 0, .request firstWay,
    .deliver firstWay 0 ⟨.shRep, .fromDirectory, 0, false, some Block.zero, true⟩ 9,
    .retry firstWay true 9, .access firstWay ⟨.dcache, .write [7], false, 0⟩ true 9]

theorem l1_included_upgrading : ∃ s : TileState Bool 1,
    Reached oneLineTile (fun _ ↦ 0) 0 false (fun _ c ↦ c = .dcache) s ∧
      s.tile.l1Line oneLineTile .dcache false = none ∧
      (s.tile.l2Line oneLineTile false).bind L2Line.cachedLoc = some .dcache ∧
      s.tile.l1State oneLineTile .dcache true ≠ .modified := by
  have hpure : Pure fun (_ : Bool) c ↦ c = L1Kind.dcache := fun _ _ _ h h' ↦ h.trans h'.symm
  have hmeets : ∀ e ∈ upgrading, ∀ s : TileState Bool 1,
      Meets oneLineTile (fun _ c ↦ c = .dcache) s e := by
    intro e he s
    simp only [upgrading, List.mem_cons, List.not_mem_nil, or_false] at he
    rcases he with rfl | rfl | rfl | rfl | rfl
    · exact ⟨rfl, firstWay_valid⟩
    · exact firstWay_valid
    · exact firstWay_valid
    · exact firstWay_valid
    · exact ⟨rfl, firstWay_valid⟩
  have hrun : Reached oneLineTile (fun _ ↦ 0) (0 : Fin 1) false (fun _ c ↦ c = .dcache) _ :=
    Machine.Reached.start.exec_of_forall upgrading hmeets rfl
  have hincluded := l1_included hpure hrun
  exact ⟨_, hrun, rfl, rfl, hincluded.2.2.2.1 true nofun .dcache⟩

end TileState

end CarbonSim.Msi
