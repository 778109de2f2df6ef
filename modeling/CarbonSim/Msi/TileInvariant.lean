import CarbonSim.Msi.TileSteps

/-!
# The invariant of a tile

The caches of a tile together with its outstanding miss. Every handler of the tile keeps the
invariant, whatever the directory sends; each specification also lists the effect of the handler on
the L2 cache and the messages it sends, and the states in which it can fail.
-/

namespace CarbonSim.Msi.Tile

variable {A : Type} [DecidableEq A] {cfg : TileConfig A} {t t' : Tile A} {comp : L1Kind} {a : A}
  {allowed up : A → L1Kind → Prop} {N : ℕ} {home : A → Fin N} {self sender : Fin N}
  {acc : Access A} {n now : ℕ} {modeled : Bool} {m : ShmemMsg A N} {way : L1Kind → ℕ}
  {up' : A → L1Kind → Prop}

/-- The L1 copy of a line has been dropped for an upgrade miss that has not reached the L2. -/
def Upgrading (t : Tile A) (b : A) (c : L1Kind) : Prop :=
  ∃ acc n, t.app = .missed acc n ∧ t.outstanding = none ∧ upgrade acc b c

/-- The caches of a tile whose core waits for an access that has missed. -/
structure Missing (cfg : TileConfig A) (allowed : A → L1Kind → Prop) (t : Tile A)
    (acc : Access A) : Prop where
  allowed : allowed acc.address acc.comp
  absent : t.l1Line cfg acc.comp acc.address = none
  asking : t.outstanding = none → ∀ st data, t.content cfg acc.address = some (st, data) →
    acc.op.exclusive = true ∧ st = .shared
  waiting : ∀ x, t.outstanding = some x →
    x = (acc.address, acc.comp) ∧ t.content cfg acc.address = none

/-- The invariant of a tile. -/
structure Inv (cfg : TileConfig A) (allowed : A → L1Kind → Prop) (t : Tile A) : Prop where
  caches : t.CacheInv cfg allowed t.Upgrading
  missed : ∀ acc n, t.app = .missed acc n → t.Missing cfg allowed acc
  filled : ∀ acc n, t.app = .filled acc n → allowed acc.address acc.comp
  outstanding : (∀ acc n, t.app ≠ .missed acc n) → t.outstanding = none

theorem Inv.start : (start : Tile A).Inv cfg allowed :=
  ⟨.start, fun _ _ h ↦ by simp [Tile.start] at h, fun _ _ h ↦ by simp [Tile.start] at h,
    fun _ ↦ rfl⟩

theorem CacheInv.mono_up (h : t.CacheInv cfg allowed up)
    (hup : ∀ b c l, t.l2Line cfg b = some l → up b c → up' b c) : t.CacheInv cfg allowed up' :=
  h.of_lines h.wf fun b hfits ↦ hfits.mono (hup b)

/-- The caches of a tile are unchanged, whatever else is. -/
theorem CacheInv.transfer (h : t.CacheInv cfg allowed up) (h1 : t'.l1 = t.l1) (h2 : t'.l2 = t.l2)
    (hup : ∀ b c l, t'.l2Line cfg b = some l → up b c → up' b c) : t'.CacheInv cfg allowed up' :=
  (h.congr h1 h2).mono_up hup

/-- A tile whose core does not wait has no upgrade miss under way. -/
theorem Inv.caches_of_not_missed (h : t.Inv cfg allowed) (happ : ∀ acc n, t.app ≠ .missed acc n) :
    t.CacheInv cfg allowed fun _ _ ↦ False :=
  h.caches.mono_up fun _ _ _ _ ⟨acc, n, heq, _⟩ ↦ happ acc n heq

/-! ### Accesses -/

/-- What a round of the loop of a memory operation leaves behind. -/
structure RoundPost (cfg : TileConfig A) (allowed : A → L1Kind → Prop) (id : Fin N) (t : Tile A)
    (acc : Access A) (n : ℕ) (modeled : Bool) (now : ℕ)
    (r : Tile A × Option (List UInt8) × List (Send A N)) : Prop where
  inv : r.1.Inv cfg allowed
  outstanding : r.1.outstanding = none
  time : r.1.outstandingTime = t.outstandingTime
  hit : ∀ bytes, r.2.1 = some bytes → r.1.app = .idle ∧ r.2.2 = [] ∧
    Completes cfg allowed t acc bytes r.1
  miss : r.2.1 = none → r.1.app = .missed acc n ∧ (∀ b, r.1.content cfg b = t.content cfg b) ∧
    (∃ time, now ≤ time ∧ r.2.2 = [⟨id, ⟨l1Request id acc modeled, time⟩⟩]) ∧
    acc.op.permissible (t.l1State cfg acc.comp acc.address) = false ∧
      ∀ st data, t.content cfg acc.address = some (st, data) →
        acc.op.exclusive = true ∧ st = .shared

/-- An L2 line that an operation may not use is shared and the operation a store. -/
theorem CacheInv.not_permissible (h : t.CacheInv cfg allowed up) {op : MemOp}
    (hop : op.permissible (t.l2State cfg a) = false) (st : CState) (data : Block)
    (hc : t.content cfg a = some (st, data)) : op.exclusive = true ∧ st = .shared := by
  rw [l2State_eq_of_content hc] at hop
  obtain ⟨l, hl, heq⟩ := Option.map_eq_some_iff.mp hc
  have hst : st = .shared ∨ st = .modified := by
    have hs := h.state2 a l hl
    rwa [(Prod.mk.inj heq).1] at hs
  by_cases hex : op.exclusive = true <;> rcases hst with rfl | rfl <;>
    simp_all [MemOp.permissible, CState.readable, CState.writable]

theorem Inv.round (h : t.Inv cfg allowed) (happ : ∀ acc n, t.app ≠ .missed acc n)
    (hway : ∀ c, way c ∈ (cfg.l1 c).scan) (hal : allowed acc.address acc.comp) :
    Outcome (afterAttempt acc n <$> t.attempt cfg self way acc modeled now)
      (RoundPost cfg allowed self t acc n modeled now) (AccessFault cfg allowed acc) := by
  have hc := h.caches_of_not_missed happ
  have hout := h.outstanding happ
  refine .bind (hc.attempt hway hal modeled now) ?_
  rintro ⟨t₁, bytes, sends⟩ ⟨hrest, hr⟩
  dsimp only at hrest hr
  have ho : t₁.outstanding = none := by rw [hrest, hout]
  have htime : t₁.outstandingTime = t.outstandingTime := by rw [hrest]
  cases bytes with
  | some bytes =>
    obtain ⟨hs, hinv, hdone⟩ := hr
    refine ⟨⟨?_, ?_, ?_, fun _ ↦ ho⟩, ho, htime, fun bytes' hb ↦ ?_, fun hn ↦ ?_⟩
    · exact hinv.transfer rfl rfl fun _ _ _ _ hf ↦ hf.elim
    · simp [afterAttempt]
    · simp [afterAttempt]
    · obtain rfl : bytes = bytes' := Option.some.inj hb
      refine ⟨rfl, hs, ?_⟩
      obtain ⟨c, op, a, o⟩ := acc
      cases op <;> exact hdone
    · simp [afterAttempt] at hn
  | none =>
    obtain ⟨⟨time, hle, hs⟩, hinv, hcont, habs, hmiss, hperm⟩ := hr
    have hshared := hc.not_permissible hperm
    refine ⟨⟨?_, ?_, ?_, ?_⟩, ho, htime, by simp [afterAttempt], fun _ ↦ ⟨rfl, hcont,
      ⟨time, hle, hs⟩, hmiss, hshared⟩⟩
    · exact hinv.transfer rfl rfl fun b c _ _ hu ↦ ⟨acc, n, rfl, ho, hu⟩
    · intro acc' n' heq
      obtain ⟨rfl, -⟩ : acc = acc' ∧ n = n' := by simpa [afterAttempt] using heq
      refine ⟨hal, habs, fun _ st data hst ↦ hshared st data ((hcont _).symm.trans hst),
        fun x hx ↦ ?_⟩
      exact absurd (ho.symm.trans hx) (by simp)
    · simp [afterAttempt]
    · exact fun hn ↦ absurd rfl (hn acc n)

/-- An access that a core starts. -/
theorem Inv.access (h : t.Inv cfg allowed) (happ : t.app = .idle)
    (hway : ∀ c, way c ∈ (cfg.l1 c).scan) (hal : allowed acc.address acc.comp) :
    Outcome (t.access cfg self way acc modeled now)
      (RoundPost cfg allowed self t acc 1 modeled now) (AccessFault cfg allowed acc) :=
  h.round (by simp [happ]) hway hal

/-- The access is tried again after the fill. -/
theorem Inv.retry (h : t.Inv cfg allowed) (happ : t.app = .filled acc n)
    (hway : ∀ c, way c ∈ (cfg.l1 c).scan) :
    Outcome (t.retry cfg self way acc n modeled now)
      (RoundPost cfg allowed self t acc (n + 1) modeled now)
      fun e ↦ (e = .accessNum ∧ n ≠ 1) ∨ AccessFault cfg allowed acc e := by
  refine .require_bind (fun _ ↦ ?_) fun hn ↦ .inl ⟨rfl, by omega⟩
  exact (h.round (by simp [happ]) hway (h.filled acc n happ)).mono_fault fun _ ↦ .inr

/-! ### The miss reaches the L2 cache -/

/-- The messages with which the L2 cache of a tile asks for a line: a shared copy is given up
first. -/
def missSends (home : A → Fin N) (self : Fin N) (held : Option (CState × Block)) (acc : Access A)
    (modeled : Bool) (now : ℕ) : List (Send A N) :=
  (if held.isSome then [toHome home .invRep self acc.address none modeled now] else []) ++
    [toHome home (reqType acc.op) self acc.address none modeled now]

/-- The tile after its miss has reached the L2 cache. -/
structure Requested (cfg : TileConfig A) (allowed : A → L1Kind → Prop) (t : Tile A) (acc : Access A)
    (now : ℕ) (t' : Tile A) : Prop where
  inv : t'.Inv cfg allowed
  app : t'.app = t.app
  outstanding : t'.outstanding = some (acc.address, acc.comp)
  time : t'.outstandingTime = now
  content : ∀ b, t'.content cfg b = if b = acc.address then none else t.content cfg b

/-- The shared L2 line of an upgrade miss is given up; the L1 that missed has dropped it already. -/
theorem CacheInv.giveUp (h : t.CacheInv cfg allowed up) (hal : allowed a comp)
    (habs : t.l1Line cfg comp a = none) {l : L2Line} (hl : t.l2Line cfg a = some l)
    (hs : l.cstate = .shared) (hset : L2Set cfg t a none t') : t'.CacheInv cfg allowed up := by
  refine h.of_lines hset.wf fun b hfits ↦ ?_
  simp only [hset.l1Line, hset.l2Line]
  by_cases hb : b = a
  · subst hb
    rw [hl] at hfits
    simpa using hfits.giveUp hal habs hs
  · simpa [hb] using hfits

/-- The L2 line of an outstanding miss is absent. -/
theorem Requested.of_absent (h : t.Inv cfg allowed) (happ : t.app = .missed acc n)
    (hcaches : t'.CacheInv cfg allowed t.Upgrading) (hl1 : t'.l1 = t.l1)
    (happ₁ : t'.app = t.app) (hout : t'.outstanding = some (acc.address, acc.comp))
    (htime : t'.outstandingTime = now)
    (hcont : ∀ b, t'.content cfg b = if b = acc.address then none else t.content cfg b) :
    Requested cfg allowed t acc now t' := by
  have hmiss := h.missed acc n happ
  have happ' : t'.app = .missed acc n := happ₁.trans happ
  refine ⟨⟨?_, ?_, ?_, ?_⟩, happ₁, hout, htime, hcont⟩
  · refine hcaches.mono_up fun b c l hl hu ↦ ?_
    obtain ⟨acc', n', happ'', -, rfl, -⟩ := hu
    obtain ⟨rfl, -⟩ : acc = acc' ∧ n = n' := by simpa [happ] using happ''
    have hnone := hcont acc.address
    rw [if_pos rfl, content_eq_none_iff, hl] at hnone
    simp at hnone
  · intro acc' n' heq
    obtain ⟨rfl, rfl⟩ : acc = acc' ∧ n = n' := by simpa [happ'] using heq
    refine ⟨hmiss.allowed, ?_, fun hn ↦ absurd (hout.symm.trans hn) (by simp), fun x hx ↦ ?_⟩
    · rw [Tile.l1Line, hl1]
      exact hmiss.absent
    · refine ⟨Option.some.inj (hx.symm.trans hout), ?_⟩
      rw [hcont, if_pos rfl]
  · simp [happ']
  · exact fun hn ↦ absurd happ' (hn acc n)

/-- The request of the tile's own miss reaches the L2 cache; the handler does not fail. -/
theorem Inv.handleMsgFromL1Cache (h : t.Inv cfg allowed) (happ : t.app = .missed acc n)
    (hout : t.outstanding = none) :
    Outcome (t.handleMsgFromL1Cache cfg home self acc.comp (l1Request self acc modeled) now)
      (fun r ↦ Requested cfg allowed t acc now r.1 ∧
        r.2 = missSends home self (t.content cfg acc.address) acc modeled now)
      fun _ ↦ False := by
  have hmiss := h.missed acc n happ
  unfold Tile.handleMsgFromL1Cache
  refine .require_bind (fun _ ↦ ?_) fun hn ↦ hn rfl
  refine .require_bind (fun _ ↦ ?_) fun hn ↦ hn (by simp [hout])
  set t₁ : Tile A := { t with outstanding := some (acc.address, acc.comp), outstandingTime := now }
  have hcaches : t₁.CacheInv cfg allowed t.Upgrading := h.caches.congr rfl rfl
  have hstate : t₁.l2State cfg acc.address = t.l2State cfg acc.address := rfl
  -- without a copy in the L2 only the outstanding miss changes
  have hnone (hc : t.content cfg acc.address = none) : Requested cfg allowed t acc now t₁ := by
    refine .of_absent h happ hcaches rfl rfl rfl rfl fun b ↦ ?_
    split_ifs with hb
    · rw [hb]
      exact hc
    · rfl
  cases hc : t.content cfg acc.address with
  | none =>
    have hinv : t.l2State cfg acc.address = .invalid := by
      simp [l2State, content_eq_none_iff.mp hc]
    by_cases hex : acc.op.exclusive = true
    · simp only [l1Request, reqType, hex, if_true]
      unfold Tile.processExReqFromL1Cache
      rw [hstate, hinv]
      refine .require_bind (fun _ ↦ ?_) fun hn ↦ hn (.inl rfl)
      exact ⟨hnone hc, by simp [missSends, reqType, hex]⟩
    · have htype : reqType acc.op = .shReq := by simp [reqType, hex]
      simp only [l1Request, htype]
      exact ⟨hnone hc, by simp [missSends, htype, processShReqFromL1Cache]⟩
  | some x =>
    obtain ⟨st, data⟩ := x
    obtain ⟨hex, rfl⟩ := hmiss.asking hout st data hc
    have hsh := l2State_eq_of_content hc
    obtain ⟨l, hl, heq⟩ := Option.map_eq_some_iff.mp hc
    simp only [l1Request, reqType, hex, if_true]
    unfold Tile.processExReqFromL1Cache
    rw [hstate, hsh]
    refine .require_bind (fun _ ↦ ?_) fun hn ↦ hn (.inr rfl)
    rw [if_pos rfl]
    refine .bind_mono (hcaches.wf.setL2Line none) (fun _ hn ↦ ?_) fun t₂ h₂ ↦ ?_
    · exact absurd (hl.symm.trans hn) (by simp)
    · refine ⟨.of_absent h happ ?_ ?_ ?_ ?_ ?_ fun b ↦ ?_, by simp [missSends, reqType, hex]⟩
      · exact hcaches.giveUp hmiss.allowed hmiss.absent hl (Prod.mk.inj heq).1 h₂
      · rw [h₂.rest]
      · rw [h₂.rest]
      · rw [h₂.rest]
      · rw [h₂.rest]
      · rw [h₂.content b]
        rfl

/-! ### Replies of the directory -/

/-- The tile after a reply has filled the line of its miss. -/
structure FillPost (cfg : TileConfig A) (allowed : A → L1Kind → Prop) (t : Tile A) (acc : Access A)
    (n : ℕ) (line : L1Line) (evicted : Option (A × CState × Block)) (t' : Tile A) : Prop where
  inv : t'.Inv cfg allowed
  app : t.app = .missed acc n
  app' : t'.app = .filled acc n
  outstanding : t.outstanding = some (acc.address, acc.comp)
  outstanding' : t'.outstanding = none
  time : t'.outstandingTime = t.outstandingTime
  absent : t.content cfg acc.address = none
  l1Line : t'.l1Line cfg acc.comp acc.address = some line
  held : EvictionOf cfg t acc.address evicted
  content : ∀ b, t'.content cfg b = if b = acc.address then some (line.cstate, line.data)
    else if evicted.any fun x ↦ x.1 = b then none else t.content cfg b

/-- The faults of a reply. -/
def RepFault (allowed : A → L1Kind → Prop) (t : Tile A) (m : ShmemMsg A N) (now : ℕ) (e : Fault) :
    Prop :=
  (e = .messageData ∧ m.data = none) ∨
  (e = .outstandingAddress ∧ ∀ comp, t.outstanding ≠ some (m.address, comp)) ∨
  (e = .clearCachedLoc ∧ ¬ Pure allowed) ∨ (e = .outstandingTime ∧ now < t.outstandingTime)

theorem Inv.processRepFromDramDirectory (h : t.Inv cfg allowed) {l1Way : L1Kind → ℕ} {l2Way : ℕ}
    (hway₁ : ∀ c, l1Way c ∈ (cfg.l1 c).scan) (hway₂ : l2Way ∈ cfg.l2.scan) {cstate : CState}
    (hst : cstate = .shared ∨ cstate = .modified) :
    Outcome (t.processRepFromDramDirectory cfg home self l1Way l2Way m cstate modeled now)
      (fun r ↦ ∃ acc n data evicted, m.address = acc.address ∧ m.data = some data ∧
        FillPost cfg allowed t acc n ⟨cstate, data⟩ evicted r.1 ∧
        r.2 = evictionNotice home self modeled now evicted)
      (RepFault allowed t m now) := by
  unfold Tile.processRepFromDramDirectory
  refine .fetch_bind (fun data hdata ↦ ?_) fun hn ↦ .inl ⟨rfl, hn⟩
  by_cases hout : ∃ comp, t.outstanding = some (m.address, comp)
  · obtain ⟨comp, hout⟩ := hout
    cases happ : t.app with
    | missed acc n =>
      have hmiss := h.missed acc n happ
      obtain ⟨heq, habs⟩ := hmiss.waiting _ hout
      obtain ⟨haddr, rfl⟩ := Prod.mk.inj heq
      have hup (b : A) (c : L1Kind) (hu : t.Upgrading b c) : b = m.address := by
        obtain ⟨acc', n', -, hn, -⟩ := hu
        exact absurd (hn.symm.trans hout) (by simp)
      rw [haddr] at hout hup
      rw [haddr]
      refine .bind_mono (h.caches.insertCacheLineInHierarchy hup hway₁ hway₂ hout
        hmiss.allowed hmiss.absent (content_eq_none_iff.mp habs) hst data modeled now)
        (fun e he ↦ .inr (.inr (.inl he))) ?_
      rintro ⟨t₁, sends⟩ ⟨evicted, hfill, hsends⟩
      dsimp only at hfill hsends
      have htime : t₁.outstandingTime = t.outstandingTime := by rw [hfill.rest]
      refine .require_bind (fun _ ↦ ?_) fun hn ↦ ?_
      · have happ₁ : wake t₁.app = .filled acc n := by
          rw [hfill.rest]
          simp [happ, wake]
        refine ⟨acc, n, data, evicted, rfl, hdata, ⟨⟨?_, ?_, ?_, fun _ ↦ rfl⟩, happ, happ₁, hout,
          rfl, htime, habs, hfill.l1Line, hfill.held, hfill.content⟩, hsends⟩
        · exact hfill.caches.transfer rfl rfl fun _ _ _ _ hf ↦ hf.elim
        · simp [happ₁]
        · intro acc' n' heq
          obtain ⟨rfl, -⟩ : acc = acc' ∧ n = n' := by simpa [happ₁] using heq
          exact hmiss.allowed
      · exact .inr (.inr (.inr ⟨rfl, by omega⟩))
    | idle | filled acc n =>
      have hn := h.outstanding (by simp [happ])
      exact absurd (hn.symm.trans hout) (by simp)
  · have hno (comp : L1Kind) : t.outstanding ≠ some (m.address, comp) := fun he ↦ hout ⟨comp, he⟩
    have hfault : t.insertCacheLineInHierarchy cfg home self l1Way l2Way m.address cstate data
        modeled now = .error .outstandingAddress := by
      unfold Tile.insertCacheLineInHierarchy
      cases ho : t.outstanding with
      | none => rfl
      | some x =>
        obtain ⟨b, c⟩ := x
        have hne : m.address ≠ b := fun hb ↦ hno c (by rw [ho, hb])
        simp [fetch, require, hne, bind, Except.bind]
    rw [hfault]
    exact .inr (.inl ⟨rfl, hno⟩)

/-! ### Requests of the directory -/

theorem CacheInv.content_of_l2Line (h : t.CacheInv cfg allowed up) {l : L2Line}
    (hl : t.l2Line cfg a = some l) :
    t.content cfg a = some (l.cstate, l.data) ∧ t.l2State cfg a ≠ .invalid := by
  have hc : t.content cfg a = some (l.cstate, l.data) := by simp [Tile.content, hl]
  refine ⟨hc, ?_⟩
  rw [l2State_eq_of_content hc]
  rcases h.state2 a l hl with hs | hs <;> simp [hs]

/-- The tile after a request of the directory has changed what the L2 cache holds of a line. -/
structure Served (cfg : TileConfig A) (allowed : A → L1Kind → Prop) (t : Tile A) (a : A)
    (x : Option (CState × Block)) (t' : Tile A) : Prop where
  inv : t'.Inv cfg allowed
  app : t'.app = t.app
  outstanding : t'.outstanding = t.outstanding
  time : t'.outstandingTime = t.outstandingTime
  content : ∀ b, t'.content cfg b = if b = a then x else t.content cfg b

section

variable (h : t.Inv cfg allowed)

include h

/-- A request for a line that the L2 does not hold. -/
theorem Served.refl (hc : t.content cfg a = none) :
    Served cfg allowed t a none t := by
  refine ⟨h, rfl, rfl, rfl, fun b ↦ ?_⟩
  split_ifs with hb
  · rw [hb, hc]
  · rfl

/-- A request removes or downgrades lines only. -/
theorem Served.of_caches {st : CState} {data : Block} (hc : t.content cfg a = some (st, data))
    {x : Option (CState × Block)}
    (hx : x = none ∨ st = .modified) (hcaches : t'.CacheInv cfg allowed t.Upgrading)
    (hrest : t' = { t with l1 := t'.l1, l2 := t'.l2 })
    (hl1 : ∀ c b, t.l1Line cfg c b = none → t'.l1Line cfg c b = none)
    (hcont : ∀ b, t'.content cfg b = if b = a then x else t.content cfg b) :
    Served cfg allowed t a x t' := by
  have happ : t'.app = t.app := by rw [hrest]
  have hout : t'.outstanding = t.outstanding := by rw [hrest]
  refine ⟨⟨?_, fun acc n heq ↦ ?_, fun acc n heq ↦ ?_, fun hn ↦ ?_⟩, happ, hout, by rw [hrest], hcont⟩
  · refine hcaches.mono_up fun b c _ _ hu ↦ ?_
    unfold Upgrading at hu ⊢
    rwa [happ, hout]
  · have hmiss := h.missed acc n (happ ▸ heq)
    refine ⟨hmiss.allowed, hl1 _ _ hmiss.absent, fun hn st' data' hst ↦ ?_, fun y hy ↦ ?_⟩
    · rw [hcont] at hst
      split_ifs at hst with hb
      · subst hb
        have hsh := (hmiss.asking (hout ▸ hn) st data hc).2
        rcases hx with rfl | rfl
        · simp at hst
        · simp at hsh
      · exact hmiss.asking (hout ▸ hn) st' data' hst
    · obtain ⟨heq, hnone⟩ := hmiss.waiting y (hout ▸ hy)
      refine ⟨heq, ?_⟩
      rw [hcont]
      split_ifs with hb
      · subst hb
        exact absurd (hnone.symm.trans hc) (by simp)
      · exact hnone
  · exact h.filled acc n (happ ▸ heq)
  · rw [hout]
    exact h.outstanding fun acc n ↦ happ ▸ hn acc n

/-- A request that invalidates a line: nothing happens if the line is absent, and otherwise the line
must be in the state that the request expects. -/
theorem Inv.invalidate (sender : Fin N) (now : ℕ) (type : MsgType) (expected : CState)
    (data : Block → Option Block) (cost : L2Line → ℕ) :
    Outcome (if t.l2State cfg m.address = .invalid then
        return (t, [])
      else do
        let line ← fetch (t.l2Line cfg m.address) .lineNotCached
        require (line.cstate = expected) .cacheState
        let t ← t.invalidateCacheLineInL1 cfg line.cachedLoc m.address
        let t ← t.setL2Line cfg m.address none
        return (t, [replyTo sender type m (data line.data) (now + cost line)]) :
        Except Fault (Tile A × List (Send A N)))
      (fun r ↦ Served cfg allowed t m.address none r.1 ∧
        (t.content cfg m.address = none ∧ r.2 = [] ∨
          ∃ d time, now ≤ time ∧ t.content cfg m.address = some (expected, d) ∧
            r.2 = [replyTo sender type m (data d) time]))
      fun e ↦ e = .cacheState ∧ ∃ st d, t.content cfg m.address = some (st, d) ∧ st ≠ expected := by
  cases hl : t.l2Line cfg m.address with
  | none =>
    have hc : t.content cfg m.address = none := content_eq_none_iff.mpr hl
    rw [if_pos (by simp [l2State, hl])]
    exact ⟨.refl h hc, .inl ⟨hc, rfl⟩⟩
  | some l =>
    obtain ⟨hc, hne⟩ := h.caches.content_of_l2Line hl
    rw [if_neg hne]
    refine .require_bind (fun hs ↦ ?_) fun hs ↦ ⟨rfl, _, _, hc, hs⟩
    refine (h.caches.remove hl fun t ↦ (t, [replyTo sender type m (data l.data)
      (now + cost l)])).mono ?_ fun _ hf ↦ hf.elim
    rintro r ⟨t₁, rfl, hinv, hrest, hl1, hl2⟩
    refine ⟨.of_caches h hc (.inl rfl) hinv hrest (fun c b hb ↦ ?_) fun b ↦ ?_,
      .inr ⟨l.data, _, Nat.le_add_right _ _, by rw [hc, hs], rfl⟩⟩
    · rw [hl1, hb, ite_self]
    · unfold Tile.content
      rw [hl2]
      split_ifs <;> rfl

theorem Inv.processInvReqFromDramDirectory :
    Outcome (t.processInvReqFromDramDirectory cfg sender m now)
      (fun r ↦ Served cfg allowed t m.address none r.1 ∧
        (t.content cfg m.address = none ∧ r.2 = [] ∨
          ∃ d time, now ≤ time ∧ t.content cfg m.address = some (.shared, d) ∧
            r.2 = [replyTo sender .invRep m none time]))
      fun e ↦ e = .cacheState ∧ ∃ st d, t.content cfg m.address = some (st, d) ∧ st ≠ .shared := by
  have hspec := h.invalidate (m := m) sender now .invRep .shared (fun _ ↦ none)
    fun l ↦ cfg.l2Cost .tags + locCost cfg l.cachedLoc
  simpa only [Tile.processInvReqFromDramDirectory, Nat.add_assoc] using hspec

theorem Inv.processFlushReqFromDramDirectory :
    Outcome (t.processFlushReqFromDramDirectory cfg sender m now)
      (fun r ↦ Served cfg allowed t m.address none r.1 ∧
        (t.content cfg m.address = none ∧ r.2 = [] ∨
          ∃ d time, now ≤ time ∧ t.content cfg m.address = some (.modified, d) ∧
            r.2 = [replyTo sender .flushRep m (some d) time]))
      fun e ↦ e = .cacheState ∧ ∃ st d, t.content cfg m.address = some (st, d) ∧ st ≠ .modified := by
  have hspec := h.invalidate (m := m) sender now .flushRep .modified some
    fun l ↦ cfg.l2Cost .dataAndTags + locCost cfg l.cachedLoc
  simpa only [Tile.processFlushReqFromDramDirectory, Nat.add_assoc] using hspec

theorem Inv.processWbReqFromDramDirectory :
    Outcome (t.processWbReqFromDramDirectory cfg sender m now)
      (fun r ↦ (Served cfg allowed t m.address none r.1 ∧ t.content cfg m.address = none ∧ r.2 = []) ∨
        ∃ d time, now ≤ time ∧ t.content cfg m.address = some (.modified, d) ∧
          Served cfg allowed t m.address (some (.shared, d)) r.1 ∧
          r.2 = [replyTo sender .wbRep m (some d) time])
      fun e ↦ e = .cacheState ∧
        ((∃ st d, t.content cfg m.address = some (st, d) ∧ st ≠ .modified) ∨ ¬ Pure allowed) := by
  unfold Tile.processWbReqFromDramDirectory
  cases hl : t.l2Line cfg m.address with
  | none =>
    have hc : t.content cfg m.address = none := content_eq_none_iff.mpr hl
    rw [if_pos (by simp [l2State, hl])]
    exact .inl ⟨.refl h hc, hc, rfl⟩
  | some l =>
    obtain ⟨hc, hne⟩ := h.caches.content_of_l2Line hl
    rw [if_neg hne]
    refine .require_bind (fun hm ↦ ?_) fun hm ↦ ⟨rfl, .inl ⟨_, _, hc, hm⟩⟩
    refine .bind_mono (h.caches.wf.setCacheLineStateInL1 l.cachedLoc .shared) (fun e he ↦ ?_) ?_
    · obtain ⟨rfl, c, hloc, hinv⟩ := he
      refine ⟨rfl, .inr fun hp ↦ ?_⟩
      obtain ⟨-, hin | hup⟩ := h.caches.located hp c _ l hl hloc
      · obtain ⟨x, hx⟩ := Option.isSome_iff_exists.mp hin
        rcases h.caches.state1 _ _ x hx with hs | hs <;> simp [l1State, hx, hs] at hinv
      · simp [hm] at hup
    · rintro t₁ ⟨hwf₁, hrest₁, hl1⟩
      have hl2 (b : A) : t₁.l2Line cfg b = t.l2Line cfg b := by rw [hrest₁]; rfl
      refine .bind_mono (hwf₁.setL2Line _) (fun _ hn ↦ ?_) fun t₂ h₂ ↦ ?_
      · exact absurd ((hl2 _).symm.trans hn) (by simp [hl])
      · have hl1' (c : L1Kind) (b : A) : t₂.l1Line cfg c b =
            if l.cachedLoc = some c ∧ b = m.address then
              (t.l1Line cfg c b).map fun l ↦ { l with cstate := .shared }
            else t.l1Line cfg c b := by
          rw [h₂.l1Line]
          exact hl1 c b
        refine .inr ⟨l.data, _, ?_, by rw [hc, hm], .of_caches h hc (.inr hm)
          (h.caches.downgrade h₂.wf hl hl1' fun b ↦ ?_) ?_ (fun c b hb ↦ ?_) fun b ↦ ?_, rfl⟩
        · omega
        · rw [h₂.l2Line, hl2]
        · rw [h₂.rest, hrest₁]
        · rw [hl1', hb]
          split_ifs <;> rfl
        · unfold Tile.content
          rw [h₂.l2Line, hl2]
          split_ifs <;> rfl

end

end CarbonSim.Msi.Tile
