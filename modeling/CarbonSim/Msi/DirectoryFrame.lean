import CarbonSim.Msi.RequestRefinement

/-!
# What a directory may change

While a handler of the directory of tile `g` runs, the state of the memory system is the one before
with the directory replaced and the messages sent so far in the channels. `Good.dirStep` is the
frame of each of its actions: only the home of one line and the channels from it change, and it
remains to give the step of that line.
-/

namespace CarbonSim.Msi

open Directory List
open Relation (ReflTransGen)

variable {A : Type} {N : ℕ}

/-- The memory system after the directory of tile `g` has changed and sent some messages. -/
def Sys.advance (s : Sys A N) (g : Fin N) (d : Dir A N) (sends : List (Send A N)) : Sys A N :=
  Sys.post { s with dir := Function.update s.dir g { d with out := [] } } g sends

theorem Sys.commit_eq_of_append (s : Sys A N) {g : Fin N} {d d' : Dir A N}
    {sends : List (Send A N)} (h : d'.out = d.out ++ sends) :
    s.commit g d' = (s.commit g d).advance g d' sends := by
  unfold Sys.advance Sys.commit Sys.post
  simp only [Function.update_idem, h, packetsTo_append]
  congr 1
  funext u v
  by_cases hu : u = g
  · simp
  · simp [hu]

variable [DecidableEq A] {cfg : Config A N} {allowed : Fin N → A → L1Kind → Prop}
  {listed : Prop} {ph : A → Phase} {s s₀ : Sys A N} {mem : A → Block} {g src t : Fin N}
  {d d' d'' : Dir A N} {sends : List (Send A N)} {a : A} {L : Line N Block} {p : Packet A N}
  {rest : List (Packet A N)} {T : A → Prop} {q : Phase} {ph' : A → Phase}

/-- A directory changes nothing but what belongs to the lines of `T`. -/
structure Dir.Touches (cfg : Config A N) (T : A → Prop) (d d' : Dir A N) : Prop where
  wf : d'.cache.WF cfg.directory
  entry : ∀ b, ¬ T b → d'.cache.entry cfg.directory b = d.cache.entry cfg.directory b
  replaced : ∀ b, ¬ T b → (b ∈ d'.cache.replaced.map Prod.fst ↔ b ∈ d.cache.replaced.map Prod.fst)
  queue : ∀ b, ¬ T b → d'.queue b = d.queue b
  dram : ∀ b, ¬ T b → d'.dram b = d.dram b

theorem Dir.Touches.refl (h : d.cache.WF cfg.directory) : Dir.Touches cfg T d d :=
  ⟨h, fun _ _ ↦ rfl, fun _ _ ↦ Iff.rfl, fun _ _ ↦ rfl, fun _ _ ↦ rfl⟩

/-- A view of a line depends only on what belongs to it. -/
theorem DirView.congr (h : DirView cfg listed d q a L)
    (hentry : d'.cache.entry cfg.directory a = d.cache.entry cfg.directory a)
    (hreplaced : a ∈ d'.cache.replaced.map Prod.fst ↔ a ∈ d.cache.replaced.map Prod.fst)
    (hqueue : d'.queue a = d.queue a) (hdram : d'.dram a = d.dram a) :
    DirView cfg listed d' q a L := by
  refine ⟨?_, ?_, ?_, ?_, ?_, ?_, ?_, ?_, ?_⟩
  · rw [hentry]
    exact h.entry
  · rw [hentry]
    exact h.noEntry
  · rw [hqueue]
    exact h.queue
  · rw [hqueue]
    exact h.busy
  · rw [hqueue]
    exact h.pending
  · rw [hqueue]
    exact h.address
  · rw [hdram]
    exact h.dram
  · rw [hdram]
    exact h.asked
  · rw [hreplaced]
    exact h.replaced

/-- The view of a line whose entry is replaced by an equivalent one. -/
theorem DirView.setEntry (h : DirView cfg listed d q a L) {e : Entry}
    (hentry : d'.cache.entry cfg.directory a = some e) (hev : EntryView listed e L)
    (hreplaced : a ∈ d'.cache.replaced.map Prod.fst ↔ a ∈ d.cache.replaced.map Prod.fst)
    (hqueue : d'.queue a = d.queue a) (hdram : d'.dram a = d.dram a) :
    DirView cfg listed d' q a L := by
  refine ⟨fun e₁ he₁ ↦ ?_, fun hn ↦ ?_, ?_, ?_, ?_, ?_, ?_, ?_, ?_⟩
  · obtain rfl : e = e₁ := Option.some.inj (hentry.symm.trans he₁)
    exact hev
  · exact absurd (hentry.symm.trans hn) (by simp)
  · rw [hqueue]
    exact h.queue
  · rw [hqueue]
    exact h.busy
  · rw [hqueue]
    exact h.pending
  · rw [hqueue]
    exact h.address
  · rw [hdram]
    exact h.dram
  · rw [hdram]
    exact h.asked
  · rw [hreplaced]
    exact h.replaced

/-- Before it handles a message, about a line of `T`, a directory has taken it from a channel. -/
structure UpPopped (cfg : Config A N) (s : Sys A N) (T : A → Prop) (s₀ : Sys A N) : Prop where
  tile : s₀.tile = s.tile
  dir : s₀.dir = s.dir
  chan : ∀ u v p, p ∈ s₀.chan u v → p ∈ s.chan u v
  asks : ∀ u, l1Asks s₀ u = l1Asks s u
  down : ∀ b u, downs cfg s₀ b u = downs cfg s b u
  up : ∀ b u, ¬ T b → ups cfg s₀ b u = ups cfg s b u

theorem UpPopped.refl : UpPopped cfg s T s :=
  ⟨rfl, rfl, fun _ _ _ h ↦ h, fun _ ↦ rfl, fun _ _ ↦ rfl, fun _ _ _ ↦ rfl⟩

theorem UpPopped.setChan (hc : s.chan src g = p :: rest) (hroute : p.msg.route = .toDirectory) :
    UpPopped cfg s (· = p.msg.address) (s.setChan src g rest) := by
  refine ⟨rfl, rfl, fun u v q hq ↦ ?_, fun u ↦ ?_, fun b u ↦ ?_, fun b u hb ↦ ?_⟩
  · rw [chan_setChan] at hq
    split_ifs at hq with huv
    · rw [huv.1, huv.2, hc]
      exact mem_cons_of_mem _ hq
    · exact hq
  · by_cases hu : u = g
    · subst hu
      exact l1Asks_setChan hc (by simp [Packet.fromL1, hroute])
    · unfold l1Asks
      rw [chan_setChan, if_neg fun huv ↦ hu huv.2]
  · exact downs_setChan_of_none hc (downMsg_eq_none (.inl (by simp [hroute]))) u
  · rw [ups_pop hc b u, upMsg_eq_none (.inr (Ne.symm hb))]
    simp

/-- What tile `t` sees of an action of the directory. -/
structure Sees (cfg : Config A N) (s s₀ : Sys A N) (a : A) (sends : List (Send A N)) (t : Fin N)
    (v v' : TileView Block) : Prop where
  held : v'.held = v.held
  down : v'.down = v.down ++ downsOf a t sends
  up : v'.up = ups cfg s₀ a t
  stage : StageView (s.tile t) a v.stage → StageView (s.tile t) a v'.stage

/-- The messages of a directory about the lines of `T`. -/
def FromHome (home : A → Fin N) (T : A → Prop) (g : Fin N) (sends : List (Send A N)) : Prop :=
  ∀ y ∈ sends, y.packet.msg.route = .fromDirectory ∧ T y.packet.msg.address ∧
    y.packet.msg.WF home g y.receiver

/-- A view of line `a` that satisfies the invariant. -/
structure LineOf (cfg : Config A N) (listed : Prop) (s : Sys A N) (mem : A → Block) (q : Phase)
    (a : A) (L : Line N Block) : Prop where
  view : View cfg listed s q a L
  inv : L.Inv listed
  latest : L.latest = mem a

theorem Good.lineOf (h : Good cfg allowed listed ph s mem) (a : A) :
    ∃ L, LineOf cfg listed s mem (ph a) a L := by
  obtain ⟨L, hv, hL, hlatest⟩ := h.line a
  exact ⟨L, hv, hL, hlatest⟩

/-- The effect of an action of a directory on the invariant. -/
theorem Good.dirStep (h : Good cfg allowed listed ph s mem) (hT : ∀ b, T b → cfg.home b = g)
    (hpop : UpPopped cfg s T s₀) (hph : ∀ b, ¬ T b → ph' b = ph b)
    (htouch : Dir.Touches cfg T (s.dir g) d') (hsends : FromHome cfg.home T g sends)
    (hrep : ∀ y ∈ sends, y.packet.msg.type.isRep = true →
      (s.tile y.receiver).outstandingTime ≤ y.packet.time)
    (hqueue : ∀ b, T b → ∀ r ∈ d'.queue b, r.type.isReq = true →
      (s.tile r.requester).outstandingTime ≤ r.time)
    (hline : ∀ b, T b → ∃ L, LineOf cfg listed s mem (ph b) b L ∧
      ∃ L', ReflTransGen (Line.Step listed) L L' ∧ DirView cfg listed d' (ph' b) b L' ∧
        L'.latest = L.latest ∧ ∀ t, Sees cfg s s₀ b sends t (L.tile t) (L'.tile t)) :
    Good cfg allowed listed ph' (s₀.advance g d' sends) mem := by
  have htile : (s₀.advance g d' sends).tile = s.tile := hpop.tile
  have hdir (u : Fin N) (hu : u ≠ g) : (s₀.advance g d' sends).dir u = s.dir u := by
    simp [Sys.advance, Sys.post, hu, hpop.dir]
  have hself : (s₀.advance g d' sends).dir g = { d' with out := [] } := by
    simp [Sys.advance, Sys.post]
  have hchan (u v : Fin N) (p : Packet A N) (hp : p ∈ (s₀.advance g d' sends).chan u v) :
      p ∈ s.chan u v ∨ u = g ∧ ⟨v, p⟩ ∈ sends := by
    rw [Sys.advance, chan_post, mem_append] at hp
    rcases hp with hp | hp
    · exact .inl (hpop.chan u v p hp)
    · split_ifs at hp with hu
      · exact .inr ⟨hu, mem_packetsTo.mp hp⟩
      · simp at hp
  have hups (b : A) (u : Fin N) : ups cfg (s₀.advance g d' sends) b u = ups cfg s₀ b u :=
    ups_post_fromDirectory (fun y hy ↦ (hsends y hy).1) b u
  refine ⟨fun b ↦ ?_, fun u ↦ ?_, fun u ↦ ?_, fun u ↦ ?_, fun u b hb ↦ ?_, fun u v p hp ↦ ?_,
    fun u ↦ ?_, fun u ↦ ?_⟩
  · by_cases hb : T b
    · have hg := hT b hb
      obtain ⟨L, ⟨hv, hL, hlatest⟩, L', hsteps, hdirv, hlatest', hsees⟩ := hline b hb
      refine ⟨L', ⟨?_, fun t ↦ ?_⟩, hL.run hsteps, hlatest'.trans hlatest⟩
      · rw [hg, hself]
        exact hdirv.congr rfl Iff.rfl rfl rfl
      · obtain ⟨hheld, hdown, hup, hstage⟩ := hsees t
        have hm := hv.tile t
        refine ⟨?_, ?_, ?_, ?_⟩
        · rw [htile, hheld, hm.held]
        · rw [Sys.advance, downs_post, if_pos hg, hdown, hm.down, ← hpop.down b t]
          rfl
        · rw [hups, hup]
        · rw [htile]
          exact hstage hm.stage
    · obtain ⟨L, hv, hL, hlatest⟩ := h.line b
      refine ⟨L, ⟨?_, fun t ↦ ?_⟩, hL, hlatest⟩
      · rw [hph b hb]
        by_cases hgb : cfg.home b = g
        · have hold := hv.dir
          rw [hgb] at hold ⊢
          rw [hself]
          exact hold.congr (htouch.entry b hb) (htouch.replaced b hb) (htouch.queue b hb)
            (htouch.dram b hb)
        · rw [hdir _ hgb]
          exact hv.dir
      · have hm := hv.tile t
        have hnil : downsOf b t sends = [] := downsOf_eq_nil fun y hy ↦ .inr fun hyb ↦
          hb (hyb ▸ (hsends y hy).2.1)
        refine ⟨by rw [htile, hm.held], ?_, ?_, by rw [htile]; exact hm.stage⟩
        · rw [Sys.advance, downs_post, hnil, ite_self, append_nil, hm.down, ← hpop.down b t]
          rfl
        · rw [hups, hpop.up b t hb, hm.up]
  · rw [htile]
    exact h.tile u
  · rw [htile]
    exact h.ready u
  · by_cases hu : u = g
    · subst hu
      rw [hself]
      exact htouch.wf
    · rw [hdir u hu]
      exact h.cache u
  · by_cases hu : u = g
    · subst hu
      have hba : ¬ T b := fun hTb ↦ hb (hT b hTb)
      rw [hself]
      rw [htouch.queue b hba, htouch.entry b hba]
      exact h.foreign u b hb
    · rw [hdir u hu]
      exact h.foreign u b hb
  · rcases hchan u v p hp with hold | ⟨rfl, hnew⟩
    · exact h.wf u v p hold
    · exact (hsends _ hnew).2.2
  · have hasks : l1Asks (s₀.advance g d' sends) u = l1Asks s u := by
      rw [← hpop.asks u]
      unfold l1Asks
      rw [Sys.advance, chan_post, filter_append, map_append]
      split_ifs with hu
      · have hnil : (Sys.packetsTo u sends).filter Packet.fromL1 = [] := by
          refine filter_eq_nil_iff.mpr fun p hp ↦ ?_
          have hroute : p.msg.route = .fromDirectory := (hsends ⟨u, p⟩ (mem_packetsTo.mp hp)).1
          simp [Packet.fromL1, hroute]
        rw [hnil, map_nil, append_nil]
      · exact append_nil _
    rw [hasks, htile]
    exact h.asks u
  · have hold := h.timely u
    rw [htile]
    refine ⟨fun v b r hr hreq hru ↦ ?_, fun v p hp hroute hreq ↦ ?_, fun v p hp hrep' ↦ ?_⟩
    · by_cases hv : v = g
      · subst hv
        rw [hself] at hr
        by_cases hb : T b
        · rw [← hru]
          exact hqueue b hb r hr hreq
        · have hr' : r ∈ (s.dir v).queue b := (htouch.queue b hb) ▸ hr
          exact hold.queue v b r hr' hreq hru
      · rw [hdir v hv] at hr
        exact hold.queue v b r hr hreq hru
    · rcases hchan u v p hp with hmem | ⟨rfl, hnew⟩
      · exact hold.request v p hmem hroute hreq
      · have hfrom : p.msg.route = .fromDirectory := (hsends ⟨v, p⟩ hnew).1
        simp [hfrom] at hroute
    · rcases hchan v u p hp with hmem | ⟨rfl, hnew⟩
      · exact hold.reply v p hmem hrep'
      · exact hrep ⟨u, p⟩ hnew hrep'

/-! ### In the middle of a handler -/

omit [DecidableEq A] in
theorem commit_dir (s : Sys A N) (g : Fin N) (d : Dir A N) :
    (s.commit g d).dir g = { d with out := [] } := by
  simp [Sys.commit, Sys.post]

/-- A change of the directory and messages of it, as line `b` sees them. -/
def LineStep (cfg : Config A N) (listed : Prop) (s : Sys A N) (q : Phase) (d' : Dir A N)
    (sends : List (Send A N)) (b : A) (L : Line N Block) : Prop :=
  ∃ L' : Line N Block, ReflTransGen (Line.Step listed) L L' ∧ DirView cfg listed d' q b L' ∧
    L'.latest = L.latest ∧ ∃ stage : Fin N → Stage, (∀ t, L'.tile t = { L.tile t with
        down := (L.tile t).down ++ downsOf b t sends, stage := stage t }) ∧
      ∀ t, StageView (s.tile t) b (L.tile t).stage → StageView (s.tile t) b (stage t)

/-- The line takes no step. -/
theorem LineStep.refl (h : DirView cfg listed d' q a L) : LineStep cfg listed s q d' [] a L :=
  ⟨L, .refl, h, rfl, fun t ↦ (L.tile t).stage, fun t ↦ by simp [downsOf, Sys.packetsTo],
    fun _ hs ↦ hs⟩

section

variable (h : Good cfg allowed listed ph (s.commit g d) mem)

include h

/-- An action in the middle of a handler. -/
theorem Good.midStep (hT : ∀ b, T b → cfg.home b = g) (hph : ∀ b, ¬ T b → ph' b = ph b)
    (htouch : Dir.Touches cfg T d d') (hout : d'.out = d.out ++ sends)
    (hsends : FromHome cfg.home T g sends) (hrep : ∀ y ∈ sends, y.packet.msg.type.isRep = true →
      (s.tile y.receiver).outstandingTime ≤ y.packet.time)
    (hqueue : ∀ b, T b → ∀ r ∈ d'.queue b, r.type.isReq = true →
      (s.tile r.requester).outstandingTime ≤ r.time)
    (hline : ∀ b, T b → ∃ L, LineOf cfg listed (s.commit g d) mem (ph b) b L ∧
      LineStep cfg listed s (ph' b) d' sends b L) :
    Good cfg allowed listed ph' (s.commit g d') mem := by
  have hd := commit_dir s g d
  rw [s.commit_eq_of_append hout]
  refine h.dirStep hT .refl hph ?_ hsends hrep hqueue fun b hb ↦ ?_
  · rw [hd]
    exact ⟨htouch.wf, htouch.entry, htouch.replaced, htouch.queue, htouch.dram⟩
  · obtain ⟨L, hL, L', hsteps, hdir', hlatest, stage, htile, hstage⟩ := hline b hb
    refine ⟨L, hL, L', hsteps, hdir', hlatest, fun t ↦ ⟨?_, ?_, ?_, ?_⟩⟩
    · rw [htile t]
      rfl
    · rw [htile t]
    · rw [htile t]
      exact (hL.view.tile t).up
    · rw [htile t]
      exact hstage t

/-- The requests of the queues are timely in the middle of a handler. -/
theorem Good.queue_timely {b : A} {r : ShmemReq A N} (hr : r ∈ d.queue b)
    (hreq : r.type.isReq = true) :
    (s.tile r.requester).outstandingTime ≤ r.time := by
  refine (h.timely r.requester).queue g b r ?_ hreq rfl
  rw [commit_dir]
  exact hr

theorem Good.cache_wf :
    d.cache.WF cfg.directory := by
  have hwf := h.cache g
  rw [commit_dir] at hwf
  exact hwf

end

/-- The directory of the line in the middle of a handler. -/
theorem LineOf.dir (h : LineOf cfg listed (s.commit g d) mem q a L) (ha : cfg.home a = g) :
    DirView cfg listed d q a L := by
  have hold := h.view.dir
  rw [ha, commit_dir] at hold
  exact hold.congr rfl Iff.rfl rfl rfl

/-- The clock of the directory is of no concern to the lines. -/
theorem Good.clock (h : Good cfg allowed listed ph (s.commit g d) mem) (c : ℕ) :
    Good cfg allowed listed ph (s.commit g { d with clock := c }) mem := by
  have hout : ({ d with clock := c } : Dir A N).out = d.out ++ [] := (append_nil _).symm
  refine h.midStep (T := fun _ ↦ False) (fun _ hf ↦ hf.elim) (fun _ _ ↦ rfl)
    ⟨h.cache_wf, fun _ _ ↦ rfl, fun _ _ ↦ Iff.rfl, fun _ _ ↦ rfl, fun _ _ ↦ rfl⟩ hout ?_ ?_ ?_ ?_
  · simp [FromHome]
  · simp
  · exact fun _ hf ↦ hf.elim
  · exact fun _ hf ↦ hf.elim

end CarbonSim.Msi
