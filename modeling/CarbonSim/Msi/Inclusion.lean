import CarbonSim.Msi.Tile

/-!
# Inclusion of the L1 caches in the L2 cache

What each operation of the cache controllers does to the lines of a tile, and the invariant of a
tile. A modified L1 line is always backed by a modified L2 line that records its location. If no line
is accessed through both L1 caches (`Pure`), every L1 line is, and an L2 line records a location only
if the L1 holds the line or has just dropped it for an upgrade miss.
-/

namespace CarbonSim.Msi

open Option

/-- No line is accessed through both L1 caches. -/
def Pure {A : Type} (allowed : A → L1Kind → Prop) : Prop :=
  ∀ a c c', allowed a c → allowed a c' → c = c'

namespace Tile

variable {A : Type} [DecidableEq A] {cfg : TileConfig A} {t t' : Tile A} {comp : L1Kind} {a : A}
  {up' : A → L1Kind → Prop}

/-! ### Effects on the lines of a tile -/

/-- The stores of a tile are well formed. -/
structure WF (cfg : TileConfig A) (t : Tile A) : Prop where
  l1 : ∀ c, (t.l1 c).WF (cfg.l1 c)
  l2 : t.l2.WF cfg.l2

/-- The tile with one L1 line replaced. -/
structure L1Set (cfg : TileConfig A) (t : Tile A) (comp : L1Kind) (a : A) (x : Option L1Line)
    (t' : Tile A) : Prop where
  wf : t'.WF cfg
  l1Line : ∀ c b, t'.l1Line cfg c b = if c = comp ∧ b = a then x else t.l1Line cfg c b
  rest : t' = { t with l1 := t'.l1 }

/-- The tile with one L2 line replaced. -/
structure L2Set (cfg : TileConfig A) (t : Tile A) (a : A) (x : Option L2Line) (t' : Tile A) :
    Prop where
  wf : t'.WF cfg
  l2Line : ∀ b, t'.l2Line cfg b = if b = a then x else t.l2Line cfg b
  rest : t' = { t with l2 := t'.l2 }

theorem L1Set.l2Line {x : Option L1Line} (h : L1Set cfg t comp a x t') (b : A) :
    t'.l2Line cfg b = t.l2Line cfg b := by
  rw [h.rest]
  rfl

theorem L2Set.l1Line {x : Option L2Line} (h : L2Set cfg t a x t') (c : L1Kind) (b : A) :
    t'.l1Line cfg c b = t.l1Line cfg c b := by
  rw [h.rest]
  rfl

omit [DecidableEq A] in
theorem WF.setL1 (h : t.WF cfg) {s : SetAssoc A L1Line} (hs : s.WF (cfg.l1 comp)) :
    (t.setL1 comp s).WF cfg := by
  refine ⟨fun c ↦ ?_, h.l2⟩
  by_cases hc : c = comp
  · subst hc
    simpa [Tile.setL1] using hs
  · simpa [Tile.setL1, hc] using h.l1 c

theorem l1Line_setL1 (t : Tile A) (comp : L1Kind) (s : SetAssoc A L1Line) (c : L1Kind) (b : A) :
    (t.setL1 comp s).l1Line cfg c b = if c = comp then s.get? (cfg.l1 comp) b else t.l1Line cfg c b := by
  unfold Tile.l1Line Tile.setL1
  by_cases hc : c = comp
  · subst hc
    simp
  · simp [hc]

theorem WF.setL1Line (h : t.WF cfg) (x : Option L1Line) :
    Outcome (t.setL1Line cfg comp a x) (L1Set cfg t comp a x) fun _ ↦ t.l1Line cfg comp a = none := by
  refine .fetch_bind (fun s hs ↦ ?_) fun hs ↦ SetAssoc.assign_eq_none_iff.mp hs
  have hset := (h.l1 comp).assign hs
  refine ⟨h.setL1 hset.wf, fun c b ↦ ?_, rfl⟩
  rw [l1Line_setL1, hset.get?]
  by_cases hc : c = comp
  · subst hc
    by_cases hb : b = a <;> simp [hb, Tile.l1Line]
  · simp [hc]

theorem WF.setL2Line (h : t.WF cfg) (x : Option L2Line) :
    Outcome (t.setL2Line cfg a x) (L2Set cfg t a x) fun _ ↦ t.l2Line cfg a = none := by
  refine .fetch_bind (fun s hs ↦ ?_) fun hs ↦ SetAssoc.assign_eq_none_iff.mp hs
  have hset := h.l2.assign hs
  exact ⟨⟨h.l1, hset.wf⟩, hset.get?, rfl⟩

theorem WF.invalidateL1 (h : t.WF cfg) :
    Outcome (t.invalidateL1 cfg comp a) (L1Set cfg t comp a none) fun _ ↦ False := by
  unfold Tile.invalidateL1
  split_ifs with hsome
  · refine (h.setL1Line none).mono_fault fun _ hnone ↦ ?_
    simp [hnone] at hsome
  · have hnone : t.l1Line cfg comp a = none := by simpa using hsome
    refine ⟨h, fun c b ↦ ?_, rfl⟩
    split_ifs with hcb
    · rw [hcb.1, hcb.2, hnone]
    · rfl

theorem WF.setCacheLineState (h : t.WF cfg) {cstate : CState} :
    Outcome (t.setCacheLineState cfg comp a cstate)
      (L1Set cfg t comp a ((t.l1Line cfg comp a).map fun l ↦ { l with cstate }))
      fun e ↦ e = .cacheState ∧ t.l1State cfg comp a = .invalid := by
  refine .require_bind (fun hne ↦ ?_) fun he ↦ ⟨rfl, by simpa using he⟩
  refine (h.setL1Line _).mono_fault fun _ hnone ↦ ?_
  simp [l1State, hnone] at hne

/-- A line has been put into an L1; the line evicted has lost its location in the L2. -/
structure InsertedL1 (cfg : TileConfig A) (t : Tile A) (comp : L1Kind) (a : A) (line : L1Line)
    (evicted : Option A) (t' : Tile A) : Prop where
  wf : t'.WF cfg
  held : ∀ b, evicted = some b → b ≠ a ∧ (t.l1Line cfg comp b).isSome ∧
    (t.l2Line cfg b).bind L2Line.cachedLoc = some comp
  l1Line : ∀ c b, t'.l1Line cfg c b = if c = comp ∧ b = a then some line
    else if c = comp ∧ evicted = some b then none else t.l1Line cfg c b
  l2Line : ∀ b, t'.l2Line cfg b =
    if evicted = some b then (t.l2Line cfg b).map fun l ↦ { l with cachedLoc := none }
    else t.l2Line cfg b
  rest : t' = { t with l1 := t'.l1, l2 := t'.l2 }

theorem WF.insertCacheLineInL1 (h : t.WF cfg) {way : ℕ} {cstate : CState} {data : Block}
    (hway : way ∈ (cfg.l1 comp).scan) (ha : t.l1Line cfg comp a = none) :
    Outcome (t.insertCacheLineInL1 cfg way comp a cstate data)
      (fun t' ↦ ∃ evicted, InsertedL1 cfg t comp a ⟨cstate, data⟩ evicted t')
      fun e ↦ e = .clearCachedLoc ∧ ∃ b, b ≠ a ∧ (t.l1Line cfg comp b).isSome ∧
        (t.l2Line cfg b).bind L2Line.cachedLoc ≠ some comp := by
  unfold Tile.insertCacheLineInL1 Tile.insertL1
  refine .bind (m := fun r ↦ ∃ s : SetAssoc A L1Line, ∃ x : Option (A × L1Line),
      r = (x.map Prod.fst, t.setL1 comp s) ∧
      SetAssoc.Inserted (cfg.l1 comp) (t.l1 comp) a ⟨cstate, data⟩ x s) ?_ ?_
  · refine .require_bind (fun hw ↦ ?_) fun hn ↦ absurd hway hn
    exact ⟨_, _, rfl, (h.l1 comp).insertAt hw ha⟩
  · rintro r ⟨s, x, rfl, hins⟩
    have hwf := h.setL1 hins.wf
    have hl1 (c : L1Kind) (b : A) : (t.setL1 comp s).l1Line cfg c b =
        if c = comp ∧ b = a then some ⟨cstate, data⟩
        else if c = comp ∧ x.map Prod.fst = some b then none else t.l1Line cfg c b := by
      rw [l1Line_setL1, hins.get? b]
      by_cases hc : c = comp
      · subst hc
        cases x with
        | none => by_cases hb : b = a <;> simp [hb, Tile.l1Line]
        | some y => by_cases hb : b = a <;> by_cases hy : y.1 = b <;> simp [hb, hy, Tile.l1Line]
      · simp [hc]
    cases x with
    | none =>
      refine ⟨none, hwf, by simp, fun c b ↦ ?_, by simp [Tile.l2Line, Tile.setL1], rfl⟩
      simpa using hl1 c b
    | some y =>
      obtain ⟨b, l⟩ := y
      obtain ⟨hba, hheld⟩ := hins.held b l rfl
      have hsome : (t.l1Line cfg comp b).isSome := by
        simp [Tile.l1Line, hheld]
      refine .require_bind (fun hloc ↦ ?_) fun hloc ↦ ⟨rfl, b, hba, hsome, hloc⟩
      change (t.l2Line cfg b).bind L2Line.cachedLoc = some comp at hloc
      refine (hwf.setL2Line _).mono (fun t' ht' ↦ ?_) fun _ hnone ↦ ?_
      · refine ⟨some b, ht'.wf, ?_, fun c b' ↦ ?_, fun b' ↦ ?_, ?_⟩
        · intro b' hb'
          obtain rfl : b = b' := by simpa using hb'
          exact ⟨hba, hsome, hloc⟩
        · rw [ht'.l1Line]
          exact hl1 c b'
        · rw [ht'.l2Line b']
          by_cases hb' : b' = b
          · subst hb'
            simp [Tile.l2Line, Tile.setL1]
          · simp [hb', Ne.symm hb', Tile.l2Line, Tile.setL1]
        · rw [ht'.rest]
          rfl
      · change t.l2Line cfg b = none at hnone
        simp [hnone] at hloc

/-! ### The invariant of the caches -/

/-- What the L2 cache holds of a line, apart from its location. -/
def content (cfg : TileConfig A) (t : Tile A) (a : A) : Option (CState × Block) :=
  (t.l2Line cfg a).map fun l ↦ (l.cstate, l.data)

/-- The L2 line of an L1 line has the same state and data, and records the L1. -/
def Backed (cfg : TileConfig A) (t : Tile A) (c : L1Kind) (a : A) (l : L1Line) : Prop :=
  t.l2Line cfg a = some ⟨l.cstate, some c, l.data⟩

/-- The invariant of the caches of a tile; `up` are the lines and L1 caches of an upgrade miss that
has not reached the L2. -/
structure CacheInv (cfg : TileConfig A) (allowed up : A → L1Kind → Prop) (t : Tile A) : Prop where
  wf : t.WF cfg
  state1 : ∀ c a l, t.l1Line cfg c a = some l → l.cstate = .shared ∨ l.cstate = .modified
  state2 : ∀ a l, t.l2Line cfg a = some l → l.cstate = .shared ∨ l.cstate = .modified
  modified : ∀ c a l, t.l1Line cfg c a = some l → l.cstate = .modified → t.Backed cfg c a l
  included : Pure allowed → ∀ c a l, t.l1Line cfg c a = some l → allowed a c ∧ t.Backed cfg c a l
  located : Pure allowed → ∀ c a l, t.l2Line cfg a = some l → l.cachedLoc = some c →
    allowed a c ∧ ((t.l1Line cfg c a).isSome ∨ l.cstate = .shared ∧ up a c)

variable {allowed up : A → L1Kind → Prop}

/-- The invariant of the caches for one line: what an L1 holds is backed, unless it is shared and some
line is accessed through both L1 caches. -/
structure Fits (allowed up : A → L1Kind → Prop) (a : A) (l1 : L1Kind → Option L1Line)
    (l2 : Option L2Line) : Prop where
  state : ∀ y, l2 = some y → y.cstate = .shared ∨ y.cstate = .modified
  held : ∀ c x, l1 c = some x → x.cstate = .shared ∧ ¬ Pure allowed ∨
    l2 = some ⟨x.cstate, some c, x.data⟩ ∧ (Pure allowed → allowed a c)
  located : Pure allowed → ∀ c y, l2 = some y → y.cachedLoc = some c →
    allowed a c ∧ ((l1 c).isSome ∨ y.cstate = .shared ∧ up a c)

/-- The invariant is about each line by itself. -/
theorem cacheInv_iff : t.CacheInv cfg allowed up ↔
    t.WF cfg ∧ ∀ a, Fits allowed up a (t.l1Line cfg · a) (t.l2Line cfg a) := by
  constructor
  · intro h
    refine ⟨h.wf, fun a ↦ ⟨h.state2 a, fun c x hx ↦ ?_, fun hp c ↦ h.located hp c a⟩⟩
    by_cases hp : Pure allowed
    · obtain ⟨hal, hb⟩ := h.included hp c a x hx
      exact .inr ⟨hb, fun _ ↦ hal⟩
    · rcases h.state1 c a x hx with hs | hm
      · exact .inl ⟨hs, hp⟩
      · exact .inr ⟨h.modified c a x hx hm, fun hpure ↦ absurd hpure hp⟩
  · rintro ⟨hwf, h⟩
    refine ⟨hwf, fun c a l hl ↦ ?_, fun a ↦ (h a).state, fun c a l hl hm ↦ ?_, fun hp c a l hl ↦ ?_,
      fun hp c a ↦ (h a).located hp c⟩
    · rcases (h a).held c l hl with hs | hb
      · exact .inl hs.1
      · exact (h a).state _ hb.1
    · rcases (h a).held c l hl with hs | hb
      · exact nomatch hs.1.symm.trans hm
      · exact hb.1
    · rcases (h a).held c l hl with hs | hb
      · exact absurd hp hs.2
      · exact ⟨hb.2 hp, hb.1⟩

theorem CacheInv.of_lines (h : t.CacheInv cfg allowed up) (hwf : t'.WF cfg)
    (hlines : ∀ b, Fits allowed up b (t.l1Line cfg · b) (t.l2Line cfg b) →
      Fits allowed up' b (t'.l1Line cfg · b) (t'.l2Line cfg b)) : t'.CacheInv cfg allowed up' :=
  cacheInv_iff.mpr ⟨hwf, fun b ↦ hlines b ((cacheInv_iff.mp h).2 b)⟩

namespace Fits

variable {l1 : L1Kind → Option L1Line} {l2 : Option L2Line} {x l : L1Line} {y : L2Line} {c : L1Kind}

omit [DecidableEq A]

/-- A line of an L1 that the L2 does not record. -/
theorem other (h : Fits allowed up a l1 l2) (hx : l1 c = some x)
    (hloc : l2.bind L2Line.cachedLoc ≠ some c) : x.cstate = .shared ∧ ¬ Pure allowed := by
  refine (h.held c x hx).resolve_right ?_
  rintro ⟨rfl, -⟩
  exact hloc rfl

theorem mono (h : Fits allowed up a l1 l2)
    (hup : ∀ c y, l2 = some y → up a c → up' a c) : Fits allowed up' a l1 l2 where
  state := h.state
  held := h.held
  located hp c y hy hloc := by
    obtain ⟨hal, hin | hu⟩ := h.located hp c y hy hloc
    · exact ⟨hal, .inl hin⟩
    · exact ⟨hal, .inr ⟨hu.1, hup c y hy hu.2⟩⟩

/-- An L1 line that the L1 may not use for an operation, while the L2 may not either, is dropped. -/
theorem drop (h : Fits allowed (fun _ _ ↦ False) a l1 l2) (comp : L1Kind) {op : MemOp}
    (hop : ∀ y, l2 = some y → op.permissible y.cstate = false) :
    Fits allowed (fun b c ↦ b = a ∧ c = comp ∧ op.exclusive) a
      (fun c ↦ if c = comp then none else l1 c) l2 := by
  refine ⟨h.state, fun c x hx ↦ ?_, fun hp c y hy hloc ↦ ?_⟩
  · split_ifs at hx
    exact h.held c x hx
  · obtain ⟨hal, hin | hup⟩ := h.located hp c y hy hloc
    · refine ⟨hal, ?_⟩
      split_ifs with hc
      · -- the L2 may not use the line either, so it is shared and to be written
        have hop' := hop y hy
        rcases h.state y hy with hs | hs
        · refine .inr ⟨hs, rfl, hc, ?_⟩
          by_contra hex
          simp [MemOp.permissible, hex, hs, CState.readable] at hop'
        · by_cases hex : op.exclusive = true <;>
            simp [MemOp.permissible, hex, hs, CState.readable, CState.writable] at hop'
      · exact .inl hin
    · exact absurd hup.2 id

section

variable (h : Fits allowed up a l1 l2)

include h

/-- A line that no L1 is recorded to hold is put into an L1. -/
theorem fill (hal : allowed a comp) (hst : l.cstate = .shared ∨ l.cstate = .modified)
    (hnone : l2.bind L2Line.cachedLoc = none) (up' : A → L1Kind → Prop) :
    Fits allowed up' a (fun c ↦ if c = comp then some l else l1 c)
      (some ⟨l.cstate, some comp, l.data⟩) := by
  refine ⟨fun y hy ↦ ?_, fun c x hx ↦ ?_, fun _ c y hy hloc ↦ ?_⟩
  · obtain rfl := some.inj hy
    exact hst
  · split_ifs at hx with hc
    · obtain rfl := some.inj hx
      subst hc
      exact .inr ⟨rfl, fun _ ↦ hal⟩
    · exact .inl (h.other hx (hnone ▸ nofun))
  · obtain rfl := some.inj hy
    obtain rfl : comp = c := some.inj hloc
    exact ⟨hal, .inl (by simp)⟩

/-- The L1 that the L2 records loses the line. -/
theorem forget (hloc : l2.bind L2Line.cachedLoc = some comp) :
    Fits allowed up a (fun c ↦ if c = comp then none else l1 c)
      (l2.map fun l ↦ { l with cachedLoc := none }) := by
  refine ⟨fun y hy ↦ ?_, fun c x hx ↦ ?_, fun _ c y hy hc ↦ ?_⟩
  · obtain ⟨z, hz, rfl⟩ := map_eq_some_iff.mp hy
    exact h.state z hz
  · split_ifs at hx with hc
    exact .inl (h.other hx fun heq ↦ hc (some.inj (heq.symm.trans hloc)))
  · obtain ⟨z, -, rfl⟩ := map_eq_some_iff.mp hy
    cases hc

end

section

variable (h : Fits allowed up a l1 (some y))

include h

theorem evict :
    Fits allowed up a (fun c ↦ if y.cachedLoc = some c then none else l1 c) none := by
  refine ⟨nofun, fun c x hx ↦ ?_, nofun⟩
  split_ifs at hx with hc
  exact .inl (h.other hx hc)

/-- A shared L2 line disappears; the L1 through which it is accessed has dropped it already. -/
theorem giveUp (hal : allowed a comp) (habs : l1 comp = none) (hs : y.cstate = .shared) :
    Fits allowed up a l1 none := by
  refine ⟨nofun, fun c x hx ↦ .inl ?_, nofun⟩
  rcases h.held c x hx with hold | ⟨hb, hal'⟩
  · exact hold
  · obtain rfl := some.inj hb
    refine ⟨hs, fun hp ↦ ?_⟩
    obtain rfl := hp _ _ _ hal (hal' hp)
    exact nomatch habs.symm.trans hx

theorem downgrade :
    Fits allowed up a (fun c ↦ if y.cachedLoc = some c
      then (l1 c).map fun l ↦ { l with cstate := .shared } else l1 c)
      (some { y with cstate := .shared }) := by
  refine ⟨fun z hz ↦ ?_, fun c x hx ↦ ?_, fun hp c z hz hloc ↦ ?_⟩
  · obtain rfl := some.inj hz
    exact .inl rfl
  · split_ifs at hx with hc
    · obtain ⟨z, hz, rfl⟩ := map_eq_some_iff.mp hx
      rcases h.held c z hz with hs | ⟨hb, hal⟩
      · exact .inl ⟨rfl, hs.2⟩
      · obtain rfl := some.inj hb
        exact .inr ⟨rfl, hal⟩
    · exact .inl (h.other hx hc)
  · obtain rfl := some.inj hz
    obtain ⟨hal, hin | hup⟩ := h.located hp c y rfl hloc
    · exact ⟨hal, .inl (by split_ifs <;> simp [hin])⟩
    · exact ⟨hal, .inr ⟨rfl, hup.2⟩⟩

theorem store (hy : y = ⟨.modified, some comp, l.data⟩) (hl : l1 comp = some l)
    (hm : l.cstate = .modified) (data : Block) :
    Fits allowed up a (fun c ↦ if c = comp then some { l with data } else l1 c)
      (some ⟨.modified, some comp, data⟩) := by
  have hal : Pure allowed → allowed a comp := fun hp ↦
    ((h.held comp l hl).resolve_left fun hs ↦ hs.2 hp).2 hp
  refine ⟨fun z hz ↦ ?_, fun c x hx ↦ ?_, fun hp c z hz hloc ↦ ?_⟩
  · obtain rfl := some.inj hz
    exact .inr rfl
  · split_ifs at hx with hc
    · obtain rfl := some.inj hx
      exact .inr ⟨by rw [hm, hc], hc ▸ hal⟩
    · refine .inl (h.other hx fun heq ↦ hc ?_)
      rw [hy] at heq
      exact (some.inj heq).symm
  · obtain rfl := some.inj hz
    obtain rfl : comp = c := some.inj hloc
    exact ⟨hal hp, .inl (by simp)⟩

end

end Fits

theorem CacheInv.start : (start : Tile A).CacheInv cfg allowed up := by
  refine cacheInv_iff.mpr ⟨⟨fun c ↦ .empty _, .empty _⟩, fun a ↦ ?_⟩
  simp only [Tile.l1Line, Tile.l2Line, Tile.start, SetAssoc.get?_empty]
  constructor <;> simp

/-- A change of anything but the caches. -/
theorem CacheInv.congr (h : t.CacheInv cfg allowed up) (h1 : t'.l1 = t.l1) (h2 : t'.l2 = t.l2) :
    t'.CacheInv cfg allowed up := by
  refine h.of_lines ⟨h1 ▸ h.wf.l1, h2 ▸ h.wf.l2⟩ fun a hfits ↦ ?_
  simpa only [Tile.l1Line, Tile.l2Line, h1, h2] using hfits

theorem CacheInv.drop (h : t.CacheInv cfg allowed fun _ _ ↦ False) {op : MemOp}
    (hset : L1Set cfg t comp a none t') (hop : op.permissible (t.l2State cfg a) = false) :
    t'.CacheInv cfg allowed fun b c ↦ b = a ∧ c = comp ∧ op.exclusive := by
  refine h.of_lines hset.wf fun b hfits ↦ ?_
  simp only [hset.l1Line, hset.l2Line]
  by_cases hb : b = a
  · subst hb
    simpa using hfits.drop comp fun y hy ↦ by simpa [l2State, hy] using hop
  · simpa [hb] using hfits.mono fun _ _ _ hup ↦ absurd hup id

section

variable (h : t.CacheInv cfg allowed up) (hwf : t'.WF cfg)

include h hwf

/-- A line that no L1 is recorded to hold is put into an L1 and its location is recorded. -/
theorem CacheInv.fill (hup : ∀ b c, up b c → b = a) (hal : allowed a comp) {l : L1Line}
    (hst : l.cstate = .shared ∨ l.cstate = .modified)
    (hnone : (t.l2Line cfg a).bind L2Line.cachedLoc = none) (evicted : Option A)
    (hev : ∀ b, evicted = some b → b ≠ a ∧ (t.l2Line cfg b).bind L2Line.cachedLoc = some comp)
    (hl1 : ∀ c b, t'.l1Line cfg c b = if c = comp ∧ b = a then some l
      else if c = comp ∧ evicted = some b then none else t.l1Line cfg c b)
    (hl2 : ∀ b, t'.l2Line cfg b = if b = a then some ⟨l.cstate, some comp, l.data⟩
      else if evicted = some b then (t.l2Line cfg b).map fun l ↦ { l with cachedLoc := none }
      else t.l2Line cfg b) :
    t'.CacheInv cfg allowed fun _ _ ↦ False := by
  refine h.of_lines hwf fun b hfits ↦ ?_
  simp only [hl1, hl2]
  by_cases hb : b = a
  · subst hb
    have hne : evicted ≠ some b := fun he ↦ (hev b he).1 rfl
    simpa [hne] using hfits.fill hal hst hnone fun _ _ ↦ False
  · replace hfits : Fits allowed (fun _ _ ↦ False) b _ _ :=
      hfits.mono fun c _ _ hu ↦ hb (hup b c hu)
    by_cases he : evicted = some b
    · simpa [hb, he] using hfits.forget (hev b he).2
    · simpa [hb, he] using hfits

/-- An L2 line disappears together with the L1 line it records. -/
theorem CacheInv.evict {x : L2Line} (hx : t.l2Line cfg a = some x) (hl1 : ∀ c b, t'.l1Line cfg c b =
      if x.cachedLoc = some c ∧ b = a then none else t.l1Line cfg c b)
    (hl2 : ∀ b, t'.l2Line cfg b = if b = a then none else t.l2Line cfg b) :
    t'.CacheInv cfg allowed up := by
  refine h.of_lines hwf fun b hfits ↦ ?_
  simp only [hl1, hl2]
  by_cases hb : b = a
  · subst hb
    rw [hx] at hfits
    simpa using hfits.evict
  · simpa [hb] using hfits

/-- A modified line becomes shared in both caches. -/
theorem CacheInv.downgrade {x : L2Line} (hx : t.l2Line cfg a = some x)
    (hl1 : ∀ c b, t'.l1Line cfg c b = if x.cachedLoc = some c ∧ b = a
      then (t.l1Line cfg c b).map fun l ↦ { l with cstate := .shared } else t.l1Line cfg c b)
    (hl2 : ∀ b, t'.l2Line cfg b = if b = a then some { x with cstate := .shared }
      else t.l2Line cfg b) :
    t'.CacheInv cfg allowed up := by
  refine h.of_lines hwf fun b hfits ↦ ?_
  simp only [hl1, hl2]
  by_cases hb : b = a
  · subst hb
    rw [hx] at hfits
    simpa using hfits.downgrade
  · simpa [hb] using hfits

/-- A store goes to the L1 line and to the L2 line behind it. -/
theorem CacheInv.store {l : L1Line} (hl : t.l1Line cfg comp a = some l) (hm : l.cstate = .modified)
    (data : Block)
    (hl1 : ∀ c b, t'.l1Line cfg c b =
      if c = comp ∧ b = a then some { l with data } else t.l1Line cfg c b)
    (hl2 : ∀ b, t'.l2Line cfg b =
      if b = a then some ⟨.modified, some comp, data⟩ else t.l2Line cfg b) :
    t'.CacheInv cfg allowed up := by
  refine h.of_lines hwf fun b hfits ↦ ?_
  simp only [hl1, hl2]
  by_cases hb : b = a
  · subst hb
    have hback := h.modified comp b l hl hm
    rw [Backed, hm] at hback
    rw [hback] at hfits
    simpa using hfits.store rfl hl hm data
  · simpa [hb] using hfits

end

end Tile

end CarbonSim.Msi
