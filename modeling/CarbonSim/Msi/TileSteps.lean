import CarbonSim.Msi.Inclusion

/-!
# What the controllers of a tile do

One specification for each handler of a tile: the invariant of the tile is kept, and the effect on
the L2 cache (`content`), on the outstanding miss and on the messages sent is described. The faults
that remain possible are listed, each with the state in which it occurs.
-/

namespace CarbonSim.Msi.Tile

open Option

variable {A : Type} [DecidableEq A] {cfg : TileConfig A} {t t' : Tile A} {comp : L1Kind} {a : A}
  {allowed up : A → L1Kind → Prop} {N : ℕ} {home : A → Fin N} {self : Fin N} {acc : Access A}
  {way : L1Kind → ℕ} {bytes : List UInt8}

theorem content_eq_none_iff : t.content cfg a = none ↔ t.l2Line cfg a = none := by
  simp [content]

theorem l2State_eq_of_content {st : CState} {data : Block}
    (h : t.content cfg a = some (st, data)) : t.l2State cfg a = st := by
  obtain ⟨l, hl, heq⟩ := map_eq_some_iff.mp h
  simp [l2State, hl, (Prod.mk.inj heq).1]

theorem L1Set.content {x : Option L1Line} (h : L1Set cfg t comp a x t') (b : A) :
    t'.content cfg b = t.content cfg b := by
  rw [h.rest]
  rfl

theorem L2Set.content {x : Option L2Line} (h : L2Set cfg t a x t') (b : A) :
    t'.content cfg b = if b = a then x.map fun l ↦ (l.cstate, l.data) else t.content cfg b := by
  unfold Tile.content
  rw [h.l2Line b]
  split_ifs <;> rfl

theorem InsertedL1.content {l : L1Line} {evicted : Option A}
    (h : InsertedL1 cfg t comp a l evicted t') (b : A) : t'.content cfg b = t.content cfg b := by
  unfold Tile.content
  rw [h.l2Line b]
  split_ifs
  · rw [map_map]
    rfl
  · rfl

theorem CacheInv.l1_of_permissible (h : t.CacheInv cfg allowed up) {op : MemOp}
    (hop : op.permissible (t.l1State cfg comp a) = true) :
    ∃ l, t.l1Line cfg comp a = some l ∧ (op.exclusive = true → l.cstate = .modified) := by
  cases hl : t.l1Line cfg comp a with
  | none =>
    by_cases hex : op.exclusive = true <;>
      simp [l1State, hl, MemOp.permissible, hex, CState.readable, CState.writable] at hop
  | some l =>
    refine ⟨l, rfl, fun hex ↦ ?_⟩
    rcases h.state1 comp a l hl with hs | hs
    · simp [l1State, hl, MemOp.permissible, hex, hs, CState.writable] at hop
    · exact hs

/-! ### Accesses -/

/-- What the completion of an access does: a load returns what the L2 holds, provided that no line
is accessed through both L1 caches, and a store changes a modified line. -/
def Completes (cfg : TileConfig A) (allowed : A → L1Kind → Prop) (t : Tile A) (acc : Access A)
    (bytes : List UInt8) (t' : Tile A) : Prop :=
  match acc.op with
  | .write bs => ∃ data, t.content cfg acc.address = some (.modified, data) ∧
      ∀ b, t'.content cfg b =
        if b = acc.address then some (.modified, data.write acc.offset bs) else t.content cfg b
  | op => (∀ b, t'.content cfg b = t.content cfg b) ∧
      (Pure allowed → ∃ st data, t.content cfg acc.address = some (st, data) ∧
        bytes = data.read acc.offset op.length)

theorem Completes.load (h : Completes cfg allowed t acc bytes t') (hload : ∀ bs, acc.op ≠ .write bs)
    (hpure : Pure allowed) :
    ∃ st data, t.content cfg acc.address = some (st, data) ∧
      bytes = data.read acc.offset acc.op.length := by
  obtain ⟨comp, op, a, offset⟩ := acc
  cases op with
  | write bs => exact absurd rfl (hload bs)
  | read _ | readEx _ => exact h.2 hpure

theorem CacheInv.accessCache (h : t.CacheInv cfg allowed up)
    (hop : acc.op.permissible (t.l1State cfg acc.comp acc.address) = true) :
    Outcome (t.accessCache cfg acc)
      (fun r ↦ r.2.CacheInv cfg allowed up ∧ Completes cfg allowed t acc r.1 r.2 ∧
        r.2 = { t with l1 := r.2.l1, l2 := r.2.l2 })
      fun e ↦ e = .lineRange ∧ cfg.lineSize < acc.offset + acc.op.length := by
  obtain ⟨l, hl, hmod⟩ := h.l1_of_permissible hop
  have hread : Pure allowed → ∃ st data, t.content cfg acc.address = some (st, data) ∧
      l.data = data := fun hp ↦ by
    have hb := (h.included hp _ _ _ hl).2
    exact ⟨l.cstate, l.data, by rw [Tile.content, hb]; rfl, rfl⟩
  unfold Tile.accessCache
  rw [hl]
  refine .require_bind (fun _ ↦ ?_) fun hlen ↦ ⟨rfl, by omega⟩
  obtain ⟨comp, op, a, offset⟩ := acc
  cases op with
  | read n | readEx n =>
    refine ⟨h, ⟨fun _ ↦ rfl, fun hp ↦ ?_⟩, rfl⟩
    obtain ⟨st, data, hc, rfl⟩ := hread hp
    exact ⟨st, l.data, hc, rfl⟩
  | write bs =>
    have hm := hmod rfl
    have hback := h.modified comp a l hl hm
    rw [Backed, hm] at hback
    refine .bind_mono (h.wf.setL1Line _) (fun _ hnone ↦ ?_) fun t₁ h₁ ↦ ?_
    · simp at hl
      simp [hl] at hnone
    · have hback₁ : t₁.l2Line cfg a = _ := (h₁.l2Line a).trans hback
      refine .fetch_bind (fun x hx ↦ ?_) fun hx ↦ absurd (hx.symm.trans hback₁) (by simp)
      obtain rfl := some.inj (hx.symm.trans hback₁)
      refine .bind_mono (h₁.wf.setL2Line _) (fun _ hnone ↦ ?_) fun t₂ h₂ ↦ ?_
      · exact absurd (hnone.symm.trans hback₁) (by simp)
      · refine ⟨h.store h₂.wf hl hm (l.data.write offset bs) (fun c b ↦ ?_) fun b ↦ ?_,
          ⟨l.data, ?_, fun b ↦ ?_⟩, ?_⟩
        · rw [h₂.l1Line, h₁.l1Line]
        · rw [h₂.l2Line, h₁.l2Line]
        · rw [Tile.content, hback]
          rfl
        · rw [h₂.content b, h₁.content b]
          rfl
        · rw [h₂.rest, h₁.rest]

theorem Completes.congr {t₀ : Tile A} (h : Completes cfg allowed t acc bytes t')
    (hc : ∀ b, t.content cfg b = t₀.content cfg b) : Completes cfg allowed t₀ acc bytes t' := by
  obtain ⟨comp, op, a, offset⟩ := acc
  cases op <;> simpa only [Completes, hc] using h

/-- The request that an L1 sends to the L2 of its tile. -/
def l1Request (self : Fin N) (acc : Access A) (modeled : Bool) : ShmemMsg A N :=
  ⟨reqType acc.op, .fromL1 acc.comp, self, acc.address, none, modeled⟩

/-- The upgrade miss, if the access is one, has not reached the L2. -/
def upgrade (acc : Access A) (b : A) (c : L1Kind) : Prop :=
  b = acc.address ∧ c = acc.comp ∧ acc.op.exclusive = true

/-- What a round of the loop of a memory operation does. -/
def AttemptPost (cfg : TileConfig A) (allowed : A → L1Kind → Prop) (self : Fin N) (t : Tile A)
    (acc : Access A) (modeled : Bool) (now : ℕ)
    (r : Tile A × Option (List UInt8) × List (Send A N)) : Prop :=
  r.1 = { t with l1 := r.1.l1, l2 := r.1.l2 } ∧
  match r.2.1 with
  | some bytes => r.2.2 = [] ∧ r.1.CacheInv cfg allowed (fun _ _ ↦ False) ∧
      Completes cfg allowed t acc bytes r.1
  | none => (∃ time, now ≤ time ∧ r.2.2 = [⟨self, ⟨l1Request self acc modeled, time⟩⟩]) ∧
      r.1.CacheInv cfg allowed (upgrade acc) ∧ (∀ b, r.1.content cfg b = t.content cfg b) ∧
      r.1.l1Line cfg acc.comp acc.address = none ∧
      acc.op.permissible (t.l1State cfg acc.comp acc.address) = false ∧
      acc.op.permissible (t.l2State cfg acc.address) = false

/-- The faults of an access: the range of its bytes, and the locations of lines that are accessed
through both L1 caches. -/
def AccessFault (cfg : TileConfig A) (allowed : A → L1Kind → Prop) (acc : Access A) (e : Fault) :
    Prop :=
  (e = .lineRange ∧ cfg.lineSize < acc.offset + acc.op.length) ∨
    (e = .clearCachedLoc ∨ e = .setCachedLoc) ∧ ¬ Pure allowed

/-- A hit in the L2 fills the L1. -/
theorem CacheInv.l2Hit (h : t.CacheInv cfg allowed fun _ _ ↦ False)
    (hway : ∀ c, way c ∈ (cfg.l1 c).scan) (hal : allowed acc.address acc.comp)
    (hmiss : acc.op.permissible (t.l1State cfg acc.comp acc.address) = false)
    (hhit : acc.op.permissible (t.l2State cfg acc.address) = true) {t₁ : Tile A}
    (h₁ : L1Set cfg t acc.comp acc.address none t₁) :
    Outcome (t₁.processShmemRequestFromL1Cache cfg way acc.comp acc.op acc.address)
      (fun r ↦ r.1 = false ∧ r.2.CacheInv cfg allowed (fun _ _ ↦ False) ∧
        (∀ b, r.2.content cfg b = t.content cfg b) ∧
        acc.op.permissible (r.2.l1State cfg acc.comp acc.address) = true ∧
        r.2 = { t with l1 := r.2.l1, l2 := r.2.l2 })
      fun e ↦ (e = .clearCachedLoc ∨ e = .setCachedLoc) ∧ ¬ Pure allowed := by
  have hl2 := h₁.l2Line
  have hstate : t₁.l2State cfg acc.address = t.l2State cfg acc.address := by
    simp [l2State, hl2]
  unfold Tile.processShmemRequestFromL1Cache
  rw [hstate, if_pos hhit]
  refine .fetch_bind (fun line hline ↦ ?_) fun hline ↦ ?_
  swap
  · rw [hl2] at hline
    by_cases hex : acc.op.exclusive = true <;>
      simp [l2State, hline, MemOp.permissible, hex, CState.readable, CState.writable] at hhit
  rw [hl2] at hline
  have hst : t.l2State cfg acc.address = line.cstate := by simp [l2State, hline]
  have habs : t₁.l1Line cfg acc.comp acc.address = none := by simp [h₁.l1Line]
  refine .bind_mono (h₁.wf.insertCacheLineInL1 (hway acc.comp) habs) ?_ ?_
  · rintro e ⟨rfl, b, hba, hsome, hloc⟩
    refine ⟨.inl rfl, fun hp ↦ hloc ?_⟩
    have hne : ¬ (acc.comp = acc.comp ∧ b = acc.address) := fun hcb ↦ hba hcb.2
    rw [h₁.l1Line, if_neg hne] at hsome
    obtain ⟨x, hx⟩ := isSome_iff_exists.mp hsome
    have hb := (h.included hp _ _ _ hx).2
    rw [hl2, hb]
    rfl
  · rintro t₂ ⟨evicted, h₂⟩
    refine .require_bind (fun hloc ↦ ?_) fun hloc ↦ ⟨.inr rfl, fun hp ↦ ?_⟩
    · refine .bind_mono (h₂.wf.setL2Line _) (fun _ hnone ↦ ?_) fun t₃ h₃ ↦ ?_
      · rw [h₂.l2Line, hl2, hline] at hnone
        split_ifs at hnone
        simp at hnone
      · have hl1 := h₃.l1Line
        have hinv : t₃.CacheInv cfg allowed fun _ _ ↦ False := by
          refine h.fill h₃.wf (a := acc.address) (l := ⟨line.cstate, line.data⟩) (by simp) hal
            (h.state2 _ _ hline) (by simp [hline, hloc]) evicted (fun b hb ↦ ?_) (fun c b ↦ ?_)
            fun b ↦ ?_
          · obtain ⟨hne, -, hcl⟩ := h₂.held b hb
            exact ⟨hne, by rwa [hl2] at hcl⟩
          · rw [hl1, h₂.l1Line, h₁.l1Line]
            split_ifs <;> rfl
          · rw [h₃.l2Line, h₂.l2Line, hl2]
        refine ⟨rfl, hinv, fun b ↦ ?_, ?_, ?_⟩
        · rw [h₃.content, h₂.content, h₁.content]
          split_ifs with hb
          · subst hb
            simp [Tile.content, hline]
          · rfl
        · rw [← hhit, hst]
          congr 1
          simp [l1State, hl1, h₂.l1Line]
        · rw [h₃.rest, h₂.rest, h₁.rest]
    · -- a recorded L1 copy would have the state of the L2 line, and the access would have hit
      cases hc : line.cachedLoc with
      | none => exact hloc hc
      | some c =>
        obtain ⟨hal', hin | hup⟩ := h.located hp c _ _ hline hc
        · obtain rfl := hp _ _ _ hal hal'
          obtain ⟨x, hx⟩ := isSome_iff_exists.mp hin
          have hb := (h.included hp _ _ _ hx).2
          rw [Backed, hline] at hb
          have hxs : x.cstate = line.cstate := by
            rw [some.inj hb]
          have hl1s : t.l1State cfg acc.comp acc.address = line.cstate := by
            simp [l1State, hx, hxs]
          rw [hl1s, ← hst, hhit] at hmiss
          exact absurd hmiss (by simp)
        · exact hup.2

/-- One round of the loop of a memory operation. -/
theorem CacheInv.attempt (h : t.CacheInv cfg allowed fun _ _ ↦ False)
    (hway : ∀ c, way c ∈ (cfg.l1 c).scan) (hal : allowed acc.address acc.comp) (modeled : Bool)
    (now : ℕ) :
    Outcome (t.attempt cfg self way acc modeled now)
      (AttemptPost cfg allowed self t acc modeled now) (AccessFault cfg allowed acc) := by
  unfold Tile.attempt
  split_ifs with hl1
  · refine .bind_mono (h.accessCache hl1) (fun e he ↦ .inl he) fun r hr ↦ ?_
    exact ⟨hr.2.2, rfl, hr.1, hr.2.1⟩
  · have hmiss : acc.op.permissible (t.l1State cfg acc.comp acc.address) = false := by
      simpa using hl1
    refine .bind_mono h.wf.invalidateL1 (by simp) fun t₁ h₁ ↦ ?_
    by_cases hhit : acc.op.permissible (t.l2State cfg acc.address) = true
    · refine .bind_mono (h.l2Hit hway hal hmiss hhit h₁) (fun e he ↦ .inr he) fun r hr ↦ ?_
      obtain ⟨miss, t₂⟩ := r
      obtain ⟨rfl, hinv, hcont, hperm, hrest⟩ := hr
      refine .bind_mono (hinv.accessCache hperm) (fun e he ↦ .inl he) fun r hr ↦ ?_
      refine ⟨?_, rfl, hr.1, hr.2.1.congr hcont⟩
      rw [hr.2.2, hrest]
    · have hhit' : acc.op.permissible (t.l2State cfg acc.address) = false := by simpa using hhit
      have hstate : t₁.l2State cfg acc.address = t.l2State cfg acc.address := by
        rw [h₁.rest]
        rfl
      have hreq : t₁.processShmemRequestFromL1Cache cfg way acc.comp acc.op acc.address
          = .ok (true, t₁) := by
        unfold Tile.processShmemRequestFromL1Cache
        rw [hstate, if_neg hhit]
        rfl
      rw [hreq]
      refine ⟨?_, ⟨_, by omega, rfl⟩, h.drop h₁ hhit', h₁.content, by simp [h₁.l1Line], hmiss, hhit'⟩
      rw [h₁.rest]

/-! ### Evictions and fills -/

theorem WF.invalidateCacheLineInL1 (h : t.WF cfg) (loc : Option L1Kind) :
    Outcome (t.invalidateCacheLineInL1 cfg loc a)
      (fun t' ↦ t'.WF cfg ∧ t' = { t with l1 := t'.l1 } ∧ ∀ c b, t'.l1Line cfg c b =
        if loc = some c ∧ b = a then none else t.l1Line cfg c b)
      fun _ ↦ False := by
  cases loc with
  | none => exact ⟨h, rfl, by simp⟩
  | some comp =>
    refine h.invalidateL1.imp (fun t' ht' ↦ ⟨ht'.wf, ht'.rest, fun c b ↦ ?_⟩)
    rw [ht'.l1Line]
    simp only [some.injEq, eq_comm]

theorem WF.setCacheLineStateInL1 (h : t.WF cfg) (loc : Option L1Kind) (cstate : CState) :
    Outcome (t.setCacheLineStateInL1 cfg loc a cstate)
      (fun t' ↦ t'.WF cfg ∧ t' = { t with l1 := t'.l1 } ∧ ∀ c b, t'.l1Line cfg c b =
        if loc = some c ∧ b = a then (t.l1Line cfg c b).map fun l ↦ { l with cstate }
        else t.l1Line cfg c b)
      fun e ↦ e = .cacheState ∧ ∃ c, loc = some c ∧ t.l1State cfg c a = .invalid := by
  cases loc with
  | none => exact ⟨h, rfl, by simp⟩
  | some comp =>
    refine h.setCacheLineState.mono (fun t' ht' ↦ ⟨ht'.wf, ht'.rest, fun c b ↦ ?_⟩) fun e he ↦ ?_
    · rw [ht'.l1Line]
      split_ifs with h₁ h₂ h₂
      · rw [h₁.1, h₁.2]
      · exact absurd ⟨by rw [h₁.1], h₁.2⟩ h₂
      · exact absurd ⟨(some.inj h₂.1).symm, h₂.2⟩ h₁
      · rfl
    · exact ⟨he.1, comp, rfl, he.2⟩

/-- An L2 line is invalidated after its L1 copy. -/
theorem CacheInv.remove (h : t.CacheInv cfg allowed up) {x : L2Line}
    (hx : t.l2Line cfg a = some x) {α : Type} (k : Tile A → α) :
    Outcome (do
        let t ← t.invalidateCacheLineInL1 cfg x.cachedLoc a
        let t ← t.setL2Line cfg a none
        return k t)
      (fun r ↦ ∃ t', r = k t' ∧ t'.CacheInv cfg allowed up ∧
        t' = { t with l1 := t'.l1, l2 := t'.l2 } ∧
        (∀ c b, t'.l1Line cfg c b = if x.cachedLoc = some c ∧ b = a then none
          else t.l1Line cfg c b) ∧
        ∀ b, t'.l2Line cfg b = if b = a then none else t.l2Line cfg b)
      fun _ ↦ False := by
  refine .bind (h.wf.invalidateCacheLineInL1 x.cachedLoc) ?_
  rintro t₁ ⟨hwf₁, hrest₁, hl1⟩
  have hl2 (b : A) : t₁.l2Line cfg b = t.l2Line cfg b := by rw [hrest₁]; rfl
  refine .bind_mono (hwf₁.setL2Line none) (fun _ hnone ↦ ?_) fun t₂ h₂ ↦ ?_
  · rw [hl2, hx] at hnone
    simp at hnone
  · have hl1' (c : L1Kind) (b : A) : t₂.l1Line cfg c b =
        if x.cachedLoc = some c ∧ b = a then none else t.l1Line cfg c b := by
      rw [h₂.l1Line]
      exact hl1 c b
    have hl2' (b : A) : t₂.l2Line cfg b = if b = a then none else t.l2Line cfg b := by
      rw [h₂.l2Line, hl2]
    refine ⟨t₂, rfl, h.evict h₂.wf hx hl1' hl2', ?_, hl1', hl2'⟩
    rw [h₂.rest, hrest₁]

/-- The line evicted from the L2 by a fill, with what the L2 held of it. -/
def EvictionOf (cfg : TileConfig A) (t : Tile A) (a : A) (evicted : Option (A × CState × Block)) :
    Prop :=
  ∀ b st data, evicted = some (b, st, data) → b ≠ a ∧ t.content cfg b = some (st, data)

/-- The notice that a tile sends when it evicts a line. -/
def evictionNotice (home : A → Fin N) (self : Fin N) (modeled : Bool) (now : ℕ) :
    Option (A × CState × Block) → List (Send A N)
  | none => []
  | some (b, .modified, data) => [toHome home .flushRep self b (some data) modeled now]
  | some (b, _, _) => [toHome home .invRep self b none modeled now]

/-- The L2 after a line has been inserted, with the line evicted gone from both caches. -/
structure InsertedL2 (cfg : TileConfig A) (allowed up : A → L1Kind → Prop) (t : Tile A) (a : A)
    (line : L2Line) (evicted : Option (A × CState × Block)) (t' : Tile A) : Prop where
  wf : t'.WF cfg
  held : EvictionOf cfg t a evicted
  rest : t' = { t with l1 := t'.l1, l2 := t'.l2 }
  /-- Without the new line the caches are as after an eviction. -/
  base : ∃ tv : Tile A, tv.CacheInv cfg allowed up ∧
    (∀ c b, t'.l1Line cfg c b = tv.l1Line cfg c b) ∧
    (∀ b, t'.l2Line cfg b = if b = a then some line else tv.l2Line cfg b) ∧
    tv.l2Line cfg a = none ∧
    (∀ c b, t.l1Line cfg c b = none → tv.l1Line cfg c b = none) ∧
    ∀ b, tv.content cfg b = if evicted.any fun x ↦ x.1 = b then none else t.content cfg b

theorem CacheInv.insertL2 (h : t.CacheInv cfg allowed up) {way : ℕ} (hway : way ∈ cfg.l2.scan)
    (ha : t.l2Line cfg a = none) (cstate : CState) (data : Block) (modeled : Bool) (now : ℕ) :
    Outcome (t.insertL2 cfg home self way a cstate data comp modeled now) (fun r ↦ ∃ evicted,
        InsertedL2 cfg allowed up t a ⟨cstate, some comp, data⟩ evicted r.1 ∧
        r.2 = evictionNotice home self modeled now evicted)
      fun _ ↦ False := by
  unfold Tile.insertL2
  refine .require_pos hway ?_
  have hins := h.wf.l2.insertAt (v := (⟨cstate, some comp, data⟩ : L2Line)) hway ha
  generalize t.l2.insertAt cfg.l2 way a ⟨cstate, some comp, data⟩ = r at hins
  obtain ⟨ev, s⟩ := r
  cases ev with
  | none =>
    refine ⟨none, ⟨⟨h.wf.l1, hins.wf⟩, by simp [EvictionOf], rfl, t, h, fun _ _ ↦ rfl,
      fun b ↦ ?_, ha, fun _ _ h ↦ h, by simp⟩, rfl⟩
    have hget := hins.get? b
    simpa [Tile.l2Line] using hget
  | some y =>
    obtain ⟨b, line⟩ := y
    obtain ⟨hba, hheld⟩ := hins.held b line rfl
    have hheld' : t.l2Line cfg b = some line := hheld
    -- the tile without the evicted line, which the code never builds
    obtain ⟨-, -, tv, -, hinv, -, hl1v, hl2v⟩ := (h.remove hheld' id).exists_ok fun _ ↦ id
    have hwf : Tile.WF cfg { t with l2 := s } := ⟨h.wf.l1, hins.wf⟩
    have hpost : ∀ t₁ : Tile A, (t₁.WF cfg ∧ t₁ = { t with l1 := t₁.l1, l2 := s } ∧
        ∀ c j, t₁.l1Line cfg c j = if line.cachedLoc = some c ∧ j = b then none
          else t.l1Line cfg c j) →
        InsertedL2 cfg allowed up t a ⟨cstate, some comp, data⟩
          (some (b, line.cstate, line.data)) t₁ := by
      rintro t₁ ⟨hwf₁, hrest₁, hl1⟩
      refine ⟨hwf₁, fun j st d hj ↦ ?_, ?_, tv, hinv, fun c j ↦ ?_, fun j ↦ ?_, ?_, fun c j hj ↦ ?_,
        fun j ↦ ?_⟩
      · obtain ⟨rfl, rfl, rfl⟩ : b = j ∧ line.cstate = st ∧ line.data = d := by simpa using hj
        exact ⟨hba, by simp [Tile.content, hheld']⟩
      · rw [hrest₁]
      · rw [hl1, hl1v]
      · have hget := hins.get? j
        have hl2 : t₁.l2Line cfg j = s.get? cfg.l2 j := by rw [hrest₁]; rfl
        rw [hl2, hget, hl2v]
        by_cases hja : j = a
        · simp [hja]
        · by_cases hjb : j = b
          · subst hjb
            simp [hja]
          · simp [hja, hjb, Ne.symm hjb, Tile.l2Line]
      · rw [hl2v, if_neg (Ne.symm hba), ha]
      · rw [hl1v]
        split_ifs
        · rfl
        · exact hj
      · unfold Tile.content
        rw [hl2v]
        by_cases hjb : j = b
        · subst hjb
          simp
        · simp [hjb, Ne.symm hjb]
    refine .bind (hwf.invalidateCacheLineInL1 line.cachedLoc) fun t₁ h₁ ↦ ?_
    have hins₁ := hpost t₁ h₁
    split_ifs with hm
    · refine ⟨_, hins₁, ?_⟩
      rw [hm]
      rfl
    · refine .require_bind (fun hs ↦ ⟨_, hins₁, ?_⟩) fun hs ↦ ?_
      · rw [hs]
        rfl
      · rcases h.state2 b line hheld' with hst | hst
        · exact hs hst
        · exact hm hst

/-- The caches after a reply has filled a line. -/
structure Filled (cfg : TileConfig A) (allowed : A → L1Kind → Prop) (t : Tile A) (comp : L1Kind)
    (a : A) (line : L1Line) (evicted : Option (A × CState × Block)) (t' : Tile A) : Prop where
  caches : t'.CacheInv cfg allowed fun _ _ ↦ False
  held : EvictionOf cfg t a evicted
  rest : t' = { t with l1 := t'.l1, l2 := t'.l2 }
  l1Line : t'.l1Line cfg comp a = some line
  content : ∀ b, t'.content cfg b = if b = a then some (line.cstate, line.data)
    else if evicted.any fun x ↦ x.1 = b then none else t.content cfg b

theorem CacheInv.insertCacheLineInHierarchy (h : t.CacheInv cfg allowed up)
    (hup : ∀ b c, up b c → b = a) {l1Way : L1Kind → ℕ} {l2Way : ℕ}
    (hway₁ : ∀ c, l1Way c ∈ (cfg.l1 c).scan) (hway₂ : l2Way ∈ cfg.l2.scan)
    (ho : t.outstanding = some (a, comp)) (hal : allowed a comp)
    (ha₁ : t.l1Line cfg comp a = none) (ha₂ : t.l2Line cfg a = none) {cstate : CState}
    (hst : cstate = .shared ∨ cstate = .modified) (data : Block) (modeled : Bool) (now : ℕ) :
    Outcome (t.insertCacheLineInHierarchy cfg home self l1Way l2Way a cstate data modeled now)
      (fun r ↦ ∃ evicted, Filled cfg allowed t comp a ⟨cstate, data⟩ evicted r.1 ∧
        r.2 = evictionNotice home self modeled now evicted)
      fun e ↦ e = .clearCachedLoc ∧ ¬ Pure allowed := by
  unfold Tile.insertCacheLineInHierarchy
  rw [ho]
  refine .require_pos rfl ?_
  refine .bind_mono (h.insertL2 hway₂ ha₂ cstate data modeled now) (by simp) ?_
  rintro ⟨t₁, sends⟩ ⟨evicted, h₁, hsends⟩
  obtain ⟨tv, hinv, hl1, hl2, hav, hkeep, hcont⟩ := h₁.base
  have habs : t₁.l1Line cfg comp a = none := by rw [hl1, hkeep comp a ha₁]
  refine .bind_mono (h₁.wf.insertCacheLineInL1 (hway₁ comp) habs) ?_ ?_
  · rintro e ⟨rfl, b, hba, hsome, hloc⟩
    refine ⟨rfl, fun hp ↦ hloc ?_⟩
    rw [hl1] at hsome
    obtain ⟨x, hx⟩ := isSome_iff_exists.mp hsome
    have hb := (hinv.included hp _ _ _ hx).2
    rw [hl2, if_neg hba, hb]
    rfl
  · rintro t₂ ⟨ev, h₂⟩
    refine ⟨evicted, ⟨?_, h₁.held, ?_, by simp [h₂.l1Line], fun b ↦ ?_⟩, hsends⟩
    · refine hinv.fill h₂.wf (a := a) (l := ⟨cstate, data⟩) hup hal hst (by simp [hav]) ev
        (fun b hb ↦ ?_) (fun c b ↦ ?_) fun b ↦ ?_
      · obtain ⟨hne, -, hcl⟩ := h₂.held b hb
        rw [hl2, if_neg hne] at hcl
        exact ⟨hne, hcl⟩
      · rw [h₂.l1Line, hl1]
      · rw [h₂.l2Line, hl2]
        by_cases hb : b = a
        · subst hb
          have hne : ev ≠ some b := fun hev ↦ (h₂.held b hev).1 rfl
          simp [hne]
        · simp [hb]
    · rw [h₂.rest, h₁.rest]
    · rw [h₂.content]
      by_cases hb : b = a
      · subst hb
        simp [Tile.content, hl2]
      · rw [if_neg hb, ← hcont b]
        simp [Tile.content, hl2, hb]

end CarbonSim.Msi.Tile
