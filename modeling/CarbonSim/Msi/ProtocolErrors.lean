import CarbonSim.Msi.Coherence

/-!
# No handler fails

With a directory that can name every tile, as many ways as tiles, and no line that is accessed
through both L1 caches, no check in the handlers of the directories and of the L2 caches fails. The
reason is that a directory records exactly the tiles that hold a line, are about to receive it, or
have sent notice that they have given it up.
-/

namespace CarbonSim.Msi

open Directory

variable {A : Type} [DecidableEq A] {N : ℕ} {cfg : Config A N} {allowed : Fin N → A → L1Kind → Prop}
  {s : Sys A N} {mem : A → Block} {trace : List (Obs A N)} {a : A} {t : Fin N} {L : Line N Block}
  {p : Packet A N} {home : A → Fin N} {src dst : Fin N} {listed : Prop}

/-! ### The tiles of a line -/

/-- An EX_REP or SH_REP for line `a` is on its way to tile `t`. -/
def ReplyInFlight (cfg : Config A N) (s : Sys A N) (a : A) (t : Fin N) : Prop :=
  ∃ p ∈ s.chan (cfg.home a) t, p.msg.route = .fromDirectory ∧ p.msg.address = a ∧
    (p.msg.type = .exRep ∨ p.msg.type = .shRep)

/-- An INV_REP or FLUSH_REP for line `a` is on its way from tile `t`. -/
def NoticeInFlight (cfg : Config A N) (s : Sys A N) (a : A) (t : Fin N) : Prop :=
  ∃ p ∈ s.chan t (cfg.home a), p.msg.route = .toDirectory ∧ p.msg.address = a ∧
    (p.msg.type = .invRep ∨ p.msg.type = .flushRep)

/-- The tiles of `S` are those that the directory records for line `a`. -/
structure Records (cfg : Config A N) (s : Sys A N) (a : A) (S : Finset (Fin N)) : Prop where
  sharers : ∀ e, (s.dir (cfg.home a)).cache.entry cfg.directory a = some e →
    Represents True e.sharers S
  owner : ∀ e, (s.dir (cfg.home a)).cache.entry cfg.directory a = some e → e.dstate = .modified →
    ∃ o : Fin N, e.owner = (o : ℕ) ∧ S = {o}
  noEntry : (s.dir (cfg.home a)).cache.entry cfg.directory a = none → S = ∅

theorem downMsg_of_rep (hwf : p.msg.WF home src dst) (hroute : p.msg.route = .fromDirectory)
    (hadr : p.msg.address = a) (htype : p.msg.type = .exRep ∨ p.msg.type = .shRep) :
    ∃ m, downMsg a p = some m ∧ ¬ m.IsReq := by
  have hshape := hwf.shape
  rw [hroute] at hshape
  rcases htype with htype | htype <;> rw [htype] at hshape <;>
    obtain ⟨x, hx⟩ := Option.isSome_iff_exists.mp hshape
  · exact ⟨.exRep x, by simp [downMsg, hroute, hadr, htype, hx], id⟩
  · exact ⟨.shRep x, by simp [downMsg, hroute, hadr, htype, hx], id⟩

theorem rep_of_downMsg {m : DownMsg Block} (h : downMsg a p = some m) (hm : ¬ m.IsReq) :
    p.msg.route = .fromDirectory ∧ p.msg.address = a ∧
      (p.msg.type = .exRep ∨ p.msg.type = .shRep) := by
  unfold downMsg at h
  split_ifs at h with hp
  refine ⟨hp.1, hp.2, ?_⟩
  split at h <;> simp_all [DownMsg.IsReq] <;> subst h <;> simp at hm

theorem View.replyInFlight_iff {q : Phase} (hv : View cfg listed s q a L)
    (hwf : ∀ p ∈ s.chan (cfg.home a) t, p.msg.WF cfg.home (cfg.home a) t) :
    ReplyInFlight cfg s a t ↔ ∃ m ∈ (L.tile t).down, ¬ m.IsReq := by
  rw [(hv.tile t).down]
  constructor
  · rintro ⟨p, hp, hroute, hadr, htype⟩
    obtain ⟨m, hm, hrep⟩ := downMsg_of_rep (hwf p hp) hroute hadr htype
    exact ⟨m, List.mem_filterMap.mpr ⟨p, hp, hm⟩, hrep⟩
  · rintro ⟨m, hm, hrep⟩
    obtain ⟨p, hp, hpm⟩ := List.mem_filterMap.mp hm
    exact ⟨p, hp, rep_of_downMsg hpm hrep⟩

theorem upMsg_eq_invRep :
    upMsg a p = some .invRep ↔
      p.msg.route = .toDirectory ∧ p.msg.address = a ∧ p.msg.type = .invRep := by
  unfold upMsg
  split_ifs with hp
  · split <;> simp_all
  · simp only [false_iff]
    exact fun h ↦ hp ⟨h.1, h.2.1⟩

theorem exists_upMsg_eq_flushRep (hwf : p.msg.WF home src dst) :
    (∃ x, upMsg a p = some (.flushRep x)) ↔
      p.msg.route = .toDirectory ∧ p.msg.address = a ∧ p.msg.type = .flushRep := by
  constructor
  · rintro ⟨x, hx⟩
    unfold upMsg at hx
    split_ifs at hx with hp
    refine ⟨hp.1, hp.2, ?_⟩
    split at hx <;> simp_all
  · rintro ⟨hroute, hadr, htype⟩
    have hshape := hwf.shape
    rw [hroute, htype] at hshape
    obtain ⟨x, hx⟩ := Option.isSome_iff_exists.mp hshape
    exact ⟨x, by simp [upMsg, hroute, hadr, htype, hx]⟩

theorem View.noticeInFlight_iff {q : Phase} (hv : View cfg listed s q a L)
    (hwf : ∀ p ∈ s.chan t (cfg.home a), p.msg.WF cfg.home t (cfg.home a)) :
    NoticeInFlight cfg s a t ↔ .invRep ∈ (L.tile t).up ∨ ∃ x, .flushRep x ∈ (L.tile t).up := by
  rw [(hv.tile t).up]
  unfold ups
  simp only [List.mem_filterMap]
  constructor
  · rintro ⟨p, hp, hroute, hadr, htype | htype⟩
    · exact .inl ⟨p, hp, upMsg_eq_invRep.mpr ⟨hroute, hadr, htype⟩⟩
    · obtain ⟨x, hx⟩ := (exists_upMsg_eq_flushRep (hwf p hp)).mpr ⟨hroute, hadr, htype⟩
      exact .inr ⟨x, p, hp, hx⟩
  · rintro (⟨p, hp, hm⟩ | ⟨x, p, hp, hm⟩)
    · obtain ⟨hroute, hadr, htype⟩ := upMsg_eq_invRep.mp hm
      exact ⟨p, hp, hroute, hadr, .inl htype⟩
    · obtain ⟨hroute, hadr, htype⟩ := (exists_upMsg_eq_flushRep (hwf p hp)).mp ⟨x, hm⟩
      exact ⟨p, hp, hroute, hadr, .inr htype⟩

/-! ### The checks of the handlers -/

/-- If no tile accesses a line through both of its L1 caches, no handler of a message fails, and the
directory records exactly the tiles of each line. -/
theorem no_protocol_error (hscheme : cfg.scheme ≠ .limitedBroadcast)
    (hlists : cfg.scheme ≠ .fullMap →
      N ≤ 2 ^ 15 ∧ (cfg.scheme ≠ .limitless → 0 < cfg.maxHwSharers))
    (hways : N ≤ cfg.directory.scan.toFinset.card) (hpure : ∀ t, Pure (allowed t))
    (hrun : Sys.Run cfg allowed trace s mem) :
    (∀ env src dst r, env.Valid (cfg.tile dst) →
      s.perform cfg env (.deliver src dst) = some r → ∃ x, r = .ok x) ∧
      ∀ a, ∃ S : Finset (Fin N), Records cfg s a S ∧
        ∀ t, t ∈ S ↔ (s.tile t).l2State (cfg.tile t) a ≠ .invalid ∨
          ReplyInFlight cfg s a t ∨ NoticeInFlight cfg s a t := by
  have hcfg : cfg.Supported True := ⟨hscheme, fun _ ↦ hlists, fun _ ↦ hways⟩
  have hgood := Good.run hcfg hrun
  refine ⟨fun env src dst r henv hp ↦ ?_, fun a ↦ ?_⟩
  · cases r with
    | ok x => exact ⟨x, rfl⟩
    | error e =>
      have hact : Sys.Permits allowed (.deliver src dst : Action A N) := trivial
      have hfault := Outcome.of_eq_error (hgood.perform hcfg hact henv hp) rfl
      exact (hfault.2 trivial (hpure dst)).1.elim
  · obtain ⟨L, hv, hL, -⟩ := hgood.line a
    refine ⟨L.sharers, ⟨fun e he ↦ (hv.dir.entry e he).sharers, fun e he hm ↦ ?_, fun hn ↦ ?_⟩,
      fun t ↦ ?_⟩
    · have hev := hv.dir.entry e he
      obtain ⟨o, ho, hS⟩ := hL.modified (toDState_injective (hev.dstate.symm.trans hm))
      refine ⟨o, ?_, hS⟩
      rw [hev.owner, ho]
      rfl
    · exact hL.uncached (hv.dir.noEntry hn)
    · have hstate : (s.tile t).l2State (cfg.tile t) a ≠ .invalid ↔ (L.tile t).cstate ≠ .invalid := by
        rw [hv.l2State]
        cases (L.tile t).cstate <;> simp [LineCState.toCState]
      rw [hL.mem_sharers_iff, hstate, hv.replyInFlight_iff fun p hp ↦ hgood.wf _ _ p hp,
        hv.noticeInFlight_iff fun p hp ↦ hgood.wf _ _ p hp]

/-- The INV_REQ with which the directory recalls the copy of tile 1 finds it there. -/
theorem no_protocol_error_readThenStore : ∃ trace s mem,
    Sys.Run (oneLine 2 .ackwise) (fun _ _ c ↦ c = .dcache) trace s mem ∧
      (∃ r, s.perform (oneLine 2 .ackwise) oneWay (.deliver 0 1) = some (.ok r)) ∧
      ∃ S : Finset (Fin 2), Records (oneLine 2 .ackwise) s () S ∧ 1 ∈ S := by
  have hx : (Sys.execStart (oneLine 2 .ackwise) oneWay (readThenStore.take 8)).isSome := by decide
  have hrun : Sys.Run (oneLine 2 .ackwise) (fun _ _ c ↦ c = .dcache) _ _ _ :=
    oneLine_run (by simp [readThenStore, missSteps, Sys.Permits]) hx
  have hpure : Pure fun (_ : Unit) c ↦ c = L1Kind.dcache := fun _ _ _ h h' ↦ h.trans h'.symm
  obtain ⟨hok, hrecords⟩ := no_protocol_error (by decide) (fun _ ↦ by decide)
    (by decide) (fun _ ↦ hpure) hrun
  have hheld : CState.shared ≠ .invalid := by decide
  have hready : (((Sys.execStart (oneLine 2 .ackwise) oneWay
      (readThenStore.take 8)).get hx).2.1.perform (oneLine 2 .ackwise) oneWay (.deliver 0 1)).isSome :=
    rfl
  obtain ⟨r, hr⟩ := Option.isSome_iff_exists.mp hready
  obtain ⟨x, rfl⟩ := hok oneWay 0 1 r (oneWay_valid 2 .ackwise 1) hr
  obtain ⟨S, hS, hmem⟩ := hrecords ()
  exact ⟨_, _, _, hrun, ⟨x, hr⟩, S, hS, (hmem 1).mpr (.inl hheld)⟩

/-- A handler fails after some run of the memory system. -/
def Fails (cfg : Config A N) (allowed : Fin N → A → L1Kind → Prop) (fault : Fault) : Prop :=
  ∃ trace s mem, Sys.Run cfg allowed trace s mem ∧ ∃ env src dst, env.Valid (cfg.tile dst) ∧
    s.perform cfg env (.deliver src dst) = some (.error fault)

/-- The failure of an action after a run that is computed. -/
def faultAfter (cfg : Config A N) (env env' : Env A) (acts : List (Action A N))
    (act : Action A N) : Option Fault :=
  match Sys.execStart cfg env acts with
  | some (_, s, _) =>
    match s.perform cfg env' act with
    | some (.error fault) => some fault
    | _ => none
  | none => none

theorem Fails.of_exec {fault : Fault} (env env' : Env A) (acts : List (Action A N))
    (src dst : Fin N) (henv : ∀ t, env.Valid (cfg.tile t))
    (hacts : ∀ act ∈ acts, Sys.Permits allowed act) (henv' : env'.Valid (cfg.tile dst))
    (hfail : faultAfter cfg env env' acts (.deliver src dst) = some fault) :
    Fails cfg allowed fault := by
  unfold faultAfter at hfail
  split at hfail
  · next trace s mem heq =>
    have hrun := Sys.Run.of_execStart henv hacts heq
    split at hfail
    · next fault' hp =>
      obtain rfl := Option.some.inj hfail
      exact ⟨trace, s, mem, hrun, env', src, dst, henv', hp⟩
    · simp at hfail
  · simp at hfail

/-- Two lines, which share a way in each L1 cache but not in the L2 cache. -/
def twoLines : Config Bool 1 where
  tile _ := ⟨fun _ ↦ ⟨fun _ ↦ 0, [0]⟩, ⟨fun _ ↦ 0, [0, 1]⟩, 64, fun _ _ ↦ 1, fun _ ↦ 1⟩
  home _ := Fin.last 0
  directory := ⟨fun _ ↦ 0, [0, 1]⟩
  scheme := .fullMap
  maxHwSharers := 1
  directoryDelay := 1
  softwareTrapPenalty := 1
  capacityModeled := false

/-- A line is read through L1-I and stored to through L1-D; then another one is read through L1-I. -/
def mixedAccesses {N : ℕ} [NeZero N] : List (Action Bool N) :=
  [.access 0 ⟨.icache, .read 1, false, 0⟩ true 0, .deliver 0 0, .deliver 0 0, .deliver 0 0,
    .retry 0 true 0, .access 0 ⟨.dcache, .write [7], false, 0⟩ true 0, .deliver 0 0, .deliver 0 0,
    .deliver 0 0, .deliver 0 0, .retry 0 true 0, .access 0 ⟨.icache, .read 1, true, 0⟩ true 0,
    .deliver 0 0, .deliver 0 0]

/-- The conditions of `no_protocol_error` are needed. The copy that is left in L1-I is evicted, but
the L2 line records L1-D; the entry has no room for the first sharer; and the owner recorded in 16
bits is not the one that is asked for. -/
theorem protocol_errors :
    Fails twoLines (fun _ _ _ ↦ True) .clearCachedLoc ∧
      Fails { oneLine 1 .limitedNoBroadcast with maxHwSharers := 0 } (fun _ _ c ↦ c = .dcache)
        .addResult ∧
      Fails (oneLine 32769 .ackwise) (fun _ _ c ↦ c = .dcache) .ownerNotSharer := by
  refine ⟨?_, ?_, ?_⟩
  · exact .of_exec oneWay { oneWay with l2Way := 1 } mixedAccesses 0 0
      (fun _ ↦ ⟨by simp [twoLines, oneWay], by simp [twoLines, oneWay]⟩)
      (by simp [mixedAccesses, Sys.Permits]) ⟨by simp [twoLines, oneWay], by simp [twoLines]⟩
      (by decide +kernel)
  · exact .of_exec oneWay oneWay ((missSteps 0 .dcache (.write [7])).take 2) 0 0
      (oneWay_valid 1 .limitedNoBroadcast) (by simp [missSteps, Sys.Permits])
      (oneWay_valid 1 .limitedNoBroadcast 0) (by decide +kernel)
  · exact .of_exec oneWay oneWay ((missSteps (Fin.last 32768) .dcache (.write [7])).take 2)
      (Fin.last 32768) 0 (oneWay_valid _ .ackwise) (by simp [missSteps, Sys.Permits])
      (oneWay_valid _ .ackwise 0) (by decide +kernel)

end CarbonSim.Msi
