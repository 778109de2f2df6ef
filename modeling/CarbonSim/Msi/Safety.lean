import CarbonSim.Msi.DirectoryMessages

/-!
# The invariant along runs

`Good.perform` puts the specifications of the tiles and of the directories together: every action
keeps `Good`, and the failures of an action are listed. `Good.run` is the induction over runs.
-/

namespace CarbonSim.Msi

open Directory

variable {A : Type} [DecidableEq A] {N : ℕ} {cfg : Config A N} {allowed : Fin N → A → L1Kind → Prop}
  {listed : Prop} {s s' : Sys A N} {mem : A → Block} {env : Env A} {act : Action A N}
  {o : Obs A N} {trace : List (Obs A N)}

/-- The action of a core, not of the network. -/
def Action.isCore : Action A N → Prop
  | .deliver _ _ => False
  | _ => True

/-- The failures of an action: DRAM is never written before it is read, and if the directory is
exact and its tile accesses no line through both L1 caches, only the access of a core beyond the end
of its line fails. -/
def StepFault (allowed : Fin N → A → L1Kind → Prop) (listed : Prop) (act : Action A N) (e : Fault) :
    Prop :=
  e ≠ .noDramData ∧ (listed → Pure (allowed (Sys.actor act)) → act.isCore ∧ e = .lineRange)

omit [DecidableEq A] in
theorem StepFault.of_access {t : Fin N} {acc : Access A} {e : Fault} (hact : act.isCore)
    (h : Tile.AccessFault (cfg.tile t) (allowed (Sys.actor act)) acc e) :
    StepFault allowed listed act e := by
  rcases h with ⟨rfl, -⟩ | ⟨rfl | rfl, hmix⟩
  · exact ⟨by decide, fun _ _ ↦ ⟨hact, rfl⟩⟩
  · exact ⟨by decide, fun _ hp ↦ absurd hp hmix⟩
  · exact ⟨by decide, fun _ hp ↦ absurd hp hmix⟩

omit [DecidableEq A] in
theorem StepFault.of_tolerated {e : Fault} (h : Tolerated listed e) :
    StepFault allowed listed act e := ⟨h.2, fun hl ↦ absurd hl h.1⟩

/-- A message is handled. -/
theorem Good.handleMsgFromNetwork (hcfg : cfg.Supported listed)
    (h : Coherent cfg allowed listed s mem) {src dst : Fin N} {p : Packet A N}
    {rest : List (Packet A N)} (hc : s.chan src dst = p :: rest) (hready : s.ready dst = true)
    (henv : env.Valid (cfg.tile dst)) :
    Outcome ((s.setChan src dst rest).handleMsgFromNetwork cfg env src dst p)
      (fun r ↦ Coherent cfg allowed listed r.1 mem)
      (StepFault allowed listed (.deliver src dst : Action A N)) := by
  have hnow : p.time ≤ p.time + env.delay := Nat.le_add_right _ _
  have hfilled : ∀ acc n, (s.tile dst).app ≠ .filled acc n := by
    intro acc n happ
    simp [Sys.ready, happ] at hready
  unfold Sys.handleMsgFromNetwork
  cases hroute : p.msg.route with
  | fromL1 comp =>
    have hends := (h.wf src dst p (by simp [hc])).ends
    rw [hroute] at hends
    refine .require_pos hends ?_
    refine .bind_mono (h.handleMsgFromL1Cache (by simp) hc hroute _) (fun _ hf ↦ hf.elim) ?_
    exact fun r hr ↦ hr
  | fromDirectory =>
    refine .bind_mono (h.handleMsgFromDramDirectory hc hroute hfilled henv hnow _) ?_ ?_
    · rintro e ⟨rfl | rfl, hmix⟩
      all_goals exact ⟨by decide, fun _ hp ↦ absurd hp hmix⟩
    · exact fun r hr ↦ hr
  | toDirectory =>
    have henter (now : ℕ) : (s.setChan src dst rest).enter dst now = s.enter dst now := rfl
    dsimp only
    rw [henter]
    exact .bind_mono (h.handleMsgFromL2Cache hcfg hc hroute hnow)
      (fun e hf ↦ .of_tolerated hf) fun d hd ↦ hd

/-- Every action keeps the invariant. -/
theorem Good.perform (hcfg : cfg.Supported listed)
    (h : Coherent cfg allowed listed s mem) (hact : Sys.Permits allowed act)
    (henv : env.Valid (cfg.tile (Sys.actor act))) {r : Except Fault (Sys A N × Obs A N)}
    (hr : s.perform cfg env act = some r) :
    Outcome r (fun x ↦ Coherent cfg allowed listed x.1 (Sys.after mem x.2))
      (StepFault allowed listed act) := by
  cases Sys.performs cfg env hr with
  | access happ =>
    refine .bind_mono ((h.tile _).access happ henv.l1Way hact)
      (fun e he ↦ .of_access trivial he) fun x hx ↦ ?_
    exact h.round (by simp [happ]) hx fun _ ↦ rfl
  | @retry t acc n _ _ happ =>
    obtain ⟨rfl, hperm⟩ : n = 1 ∧ acc.op.permissible
        ((s.tile t).l1State (cfg.tile t) acc.comp acc.address) = true := by
      have hready := h.ready t
      rw [Ready, happ] at hready
      exact hready
    refine .bind_mono ((h.tile t).retry happ henv.l1Way) ?_ fun x hx ↦ ?_
    · rintro e (⟨-, hn⟩ | he)
      · exact absurd rfl hn
      · exact .of_access trivial he
    · refine h.round (by simp [happ]) hx fun hnone ↦ ?_
      have hmiss := (hx.miss hnone).2.2.2.1
      simp [hperm] at hmiss
  | deliver hready hc =>
    exact .bind (h.handleMsgFromNetwork hcfg hc hready henv) fun x hx ↦ hx

/-- The invariant holds along every run. -/
theorem Good.run (hcfg : cfg.Supported listed) (h : Sys.Run cfg allowed trace s mem) :
    Coherent cfg allowed listed s mem := by
  induction h with
  | start => exact .start cfg allowed listed
  | step _ hstep ih =>
    obtain ⟨env, act, hact, henv, hperform⟩ := hstep
    exact ih.perform hcfg hact henv hperform

end CarbonSim.Msi
