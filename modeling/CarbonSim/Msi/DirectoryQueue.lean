import CarbonSim.Msi.DirectoryAllocation

/-!
# The directory serves the queue of a line

`processNextReqFromL2Cache` serves the requests of a line until one has to wait. Before each round
the front request is answered and not yet removed, and afterwards no request is left untried.
-/

namespace CarbonSim.Msi

open Directory Function

variable {A : Type} [DecidableEq A] {N : ℕ} {cfg : Config A N} {allowed : Fin N → A → L1Kind → Prop}
  {listed : Prop} {s : Sys A N} {mem : A → Block} {g t : Fin N} {d d' : Dir A N} {a : A}
  {L : Line N Block} {req : ShmemReq A N} {rest : List (ShmemReq A N)} {e : Entry} {env : Env A}
  {cachedData : Option Block}

/-- Only line `a` is being worked on. -/
def Phase.only (a : A) (q : Phase) : A → Phase := update (fun _ ↦ .settled) a q

theorem Phase.only_self (a : A) (q : Phase) : Phase.only a q a = q := update_self ..

theorem Phase.only_of_ne {b : A} (q : Phase) (h : b ≠ a) : Phase.only a q b = .settled :=
  update_of_ne h ..

theorem Phase.only_settled (a : A) : Phase.only a .settled = fun _ ↦ .settled :=
  update_eq_self a _

theorem Phase.update_only (a : A) (q q' : Phase) :
    update (Phase.only a q) a q' = Phase.only a q' :=
  update_idem ..

/-- A handler of directory `g` leaves the invariant intact. -/
abbrev Settles (cfg : Config A N) (allowed : Fin N → A → L1Kind → Prop) (listed : Prop)
    (s : Sys A N)
    (g : Fin N) (mem : A → Block) (r : Except Fault (Dir A N)) : Prop :=
  Outcome r (fun d ↦ Coherent cfg allowed listed (s.commit g d) mem) (Tolerated listed)

/-- The state after an attempt to serve the front request of line `a`. -/
structure Attempted (cfg : Config A N) (allowed : Fin N → A → L1Kind → Prop) (listed : Prop)
    (s : Sys A N)
    (g : Fin N) (mem : A → Block) (a : A) (d : Dir A N) (r : Dir A N × Bool) : Prop where
  good : Good cfg allowed listed (Phase.only a (if r.2 then .done else .settled))
    (s.commit g r.1) mem
  queue : r.1.queue a = d.queue a

theorem Tried.attempted {q : Phase} {r : Dir A N × Bool}
    (h : Tried cfg allowed listed (Phase.only a q) s g mem a d' r) (hq : d'.queue a = d.queue a) :
    Attempted cfg allowed listed s g mem a d r := by
  refine ⟨?_, h.queue.trans hq⟩
  have hgood := h.good
  rw [Phase.update_only] at hgood
  exact hgood

section Front

variable (hcfg : cfg.Supported listed)
  (h : Good cfg allowed listed (Phase.only req.address .trying) (s.commit g d) mem)
  (hg : cfg.home req.address = g) (hq : d.queue req.address = req :: rest)
  (htime : req.time ≤ d.clock)

include hcfg h hg hq htime

omit hcfg htime in
theorem Good.front_misses {kind : ReqKind} (hline : req.toLine = .miss kind t) :
    (s.tile t).Misses req.address := by
  obtain ⟨L, hL⟩ := h.lineOf req.address
  have hqL : L.queue = .miss kind t :: rest.map ShmemReq.toLine := by
    rw [(hL.dir hg).queue, Phase.only_self, hq, ← hline]
    rfl
  exact hL.misses (hqL ▸ List.mem_cons_self)

theorem Good.processExReqFromL2Cache (hex : req.type = .exReq) :
    Outcome (d.processExReqFromL2Cache cfg env req none)
      (Attempted cfg allowed listed s g mem req.address d) (Tolerated listed) := by
  have hline : req.toLine = .miss .ex req.requester := by simp [ShmemReq.toLine, hex]
  have hmiss := h.front_misses hg hq hline
  refine .bind (h.entryFor hcfg hg (fun b hb ↦ Phase.only_of_ne _ hb) hmiss) ?_
  rintro ⟨e, d₁⟩ hfound
  refine (hfound.good.serveExReq hg (Phase.only_self ..) (hfound.queue.trans hq) hfound.entry
    (htime.trans hfound.clock) hex).imp (fun r hr ↦ ?_)
  exact hr.attempted hfound.queue

theorem Good.processShReqFromL2Cache (hsh : req.type = .shReq)
    (hdata : ∀ x, cachedData = some x → d.dram req.address = some x ∧
      ∃ e, d.cache.entry cfg.directory req.address = some e ∧ e.dstate ≠ .modified) :
    Outcome (d.processShReqFromL2Cache cfg env req cachedData)
      (Attempted cfg allowed listed s g mem req.address d) (Tolerated listed) := by
  have hline : req.toLine = .miss .sh req.requester := by simp [ShmemReq.toLine, hsh]
  have hmiss := h.front_misses hg hq hline
  refine .bind (h.entryFor hcfg hg (fun b hb ↦ Phase.only_of_ne _ hb) hmiss) ?_
  rintro ⟨e, d₁⟩ hfound
  refine (hfound.good.serveShReq hg (Phase.only_self ..) (hfound.queue.trans hq) hfound.entry
    (htime.trans hfound.clock) hsh (fun x hx ↦ hfound.dram.trans (hdata x hx).1)
    fun hsome ↦ ?_).imp (fun r hr ↦ ?_)
  · obtain ⟨x, hx⟩ := Option.isSome_iff_exists.mp hsome
    obtain ⟨-, e', he', hmod⟩ := hdata x hx
    rw [hfound.same e' he']
    exact hmod
  · exact hr.attempted hfound.queue

theorem Good.processReq (hmiss : req.toLine ≠ .nullify) :
    Outcome (d.processReq cfg env req)
      (Attempted cfg allowed listed s g mem req.address d) (Tolerated listed) := by
  unfold Dir.processReq
  cases htype : req.type with
  | exReq => exact h.processExReqFromL2Cache hcfg hg hq htime htype
  | shReq => exact h.processShReqFromL2Cache hcfg hg hq htime htype (by simp)
  | _ => exact absurd (by simp [ShmemReq.toLine, htype]) hmiss

end Front

/-! ### The loop -/

theorem Good.busy (h : Good cfg allowed listed (Phase.only a .done) (s.commit g d) mem)
    (hg : cfg.home a = g) : d.queue a ≠ [] := by
  obtain ⟨L, hL⟩ := h.lineOf a
  exact (hL.dir hg).busy (by simp [Phase.only_self])

/-- The answered request is removed and the next one brought up to date. -/
theorem Good.touchNext (h : Good cfg allowed listed (Phase.only a .done) (s.commit g d) mem)
    (hg : cfg.home a = g) {r : ShmemReq A N} (hq : d.queue a = r :: req :: rest) :
    Good cfg allowed listed (Phase.only a .trying) (s.commit g (d.touchFront a req rest).2) mem := by
  have hre : Retimed s a (req :: rest) (req :: rest) :=
    h.retimed hg (hq ▸ List.suffix_cons r (req :: rest))
  have hpop := h.pop hg (Phase.only_self ..) hq (hre.touch d.clock)
    (max d.clock (max req.time d.clock))
  rw [Phase.update_only, if_neg (by simp)] at hpop
  exact hpop

/-- The requests of a line are served until one has to wait. -/
theorem Good.processNextReqFromL2Cache (hcfg : cfg.Supported listed) (hg : cfg.home a = g) (n : ℕ)
    (d : Dir A N) (h : Good cfg allowed listed (Phase.only a .done) (s.commit g d) mem)
    (hn : (d.queue a).length ≤ n) (hmiss : ∀ r ∈ (d.queue a).tail, r.toLine ≠ .nullify) :
    Settles cfg allowed listed s g mem (Dir.processNextReqFromL2Cache cfg env a n d) := by
  induction n generalizing d with
  | zero =>
    have hnil := List.length_eq_zero_iff.mp (Nat.le_zero.mp hn)
    exact absurd hnil (h.busy hg)
  | succ n ih =>
    unfold Dir.processNextReqFromL2Cache
    rcases hq : d.queue a with _ | ⟨r, _ | ⟨req, rest⟩⟩
    · exact absurd hq (h.busy hg)
    · have hpop := h.pop hg (Phase.only_self ..) hq .nil d.clock
      rw [Phase.update_only, if_pos rfl, Phase.only_settled] at hpop
      exact hpop
    · obtain ⟨L, hL⟩ := h.lineOf a
      obtain rfl : req.address = a := (hL.dir hg).address req (by simp [hq])
      rw [hq] at hn hmiss
      have hq₁ : (d.touchFront req.address req rest).2.queue req.address
          = (d.touchFront req.address req rest).1 :: rest := update_self ..
      refine .bind ((h.touchNext hg hq).processReq hcfg hg hq₁ (le_max_right _ _)
        (hmiss req (by simp))) ?_
      rintro ⟨d₂, completed⟩ ⟨hgood, hqueue⟩
      replace hqueue := hqueue.trans hq₁
      dsimp only at hgood hqueue ⊢
      cases completed with
      | false =>
        rw [if_neg (by simp), Phase.only_settled] at hgood
        exact hgood
      | true =>
        refine ih d₂ hgood ?_ ?_
        · rw [hqueue]
          simpa using hn
        · rw [hqueue]
          exact fun x hx ↦ hmiss x (by simp_all)

/-- What follows the attempt to serve the front request of line `a`. -/
theorem Good.afterReq (hcfg : cfg.Supported listed) (hg : cfg.home a = g)
    (hmiss : ∀ r ∈ (d.queue a).tail, r.toLine ≠ .nullify) (r : Dir A N × Bool)
    (h : Attempted cfg allowed listed s g mem a d r) :
    Settles cfg allowed listed s g mem (Dir.afterReq cfg env a r) := by
  obtain ⟨d₁, completed⟩ := r
  obtain ⟨hgood, hqueue⟩ := h
  dsimp only at hgood hqueue
  unfold Dir.afterReq
  cases completed with
  | false =>
    rw [if_neg (by simp), Phase.only_settled] at hgood
    exact hgood
  | true =>
    refine Good.processNextReqFromL2Cache hcfg hg _ _ hgood le_rfl ?_
    rw [hqueue]
    exact hmiss

/-- No NULLIFY stands behind the front of a queue. -/
theorem DirView.miss_of_tail {q : Phase} (h : DirView cfg listed d q a L) (hL : L.Inv listed)
    (hq : q ≠ .done) : ∀ r ∈ (d.queue a).tail, r.toLine ≠ .nullify := by
  intro r hr hnull
  have hfirst := hL.nullifyFirst
  rw [h.queue, if_neg hq, ← List.map_tail, ← hnull] at hfirst
  exact hfirst (List.mem_map_of_mem hr)

end CarbonSim.Msi
