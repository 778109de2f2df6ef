import CarbonSim.Cache.ByteStore

/-!
# The LRU policy and the order of use

The LRU policy keeps a number of eight bits for each way. Here these numbers are compared with what
the policy is named after: the list of the uses of ways, the last one first. A load or a store uses
the way in which the line is found, and an insertion uses the way that is replaced.
-/

namespace CarbonSim.Cache

open ReplacementPolicy (lru touch)

variable {p : CacheParams} {c : Cache} {bits : ℕ → ℕ → ℕ} {uses : List (ℕ × ℕ)}

/-- The set and the way in which the tag of an address is found. -/
def found (p : CacheParams) (c : Cache) (address : ℕ) : Option (ℕ × ℕ) :=
  ((c.sets (p.compute address)).find p.associativity (p.getTag address)).map (p.compute address, ·)

/-- The set and the way that an operation uses. -/
def used (p : CacheParams) (c : Cache) : Op → Option (ℕ × ℕ)
  | .load address _ | .store address _ => found p c address
  | .insert address _ _ _ =>
    let s := p.compute address
    (c.policy.getReplacementWay p.associativity (c.sets s).info s).toOption.map fun r ↦ (s, r.1)
  | .setInfo _ _ | .enable _ => none

/-- The caches with the LRU policy that operations lead to, and the uses on the way there. -/
inductive UseRun (p : CacheParams) : Cache → List (ℕ × ℕ) → Prop
  | create : UseRun p (create .createLru) []
  | step {c c' : Cache} {uses : List (ℕ × ℕ)} {op : Op} {r : Result} (hrun : UseRun p c uses)
      (hstep : perform p c op = .ok (r, c')) : UseRun p c' ((used p c op).toList ++ uses)

/-- The way `i` of a set was used after the way `j`. Ways that were never used are in the order of
their numbers. -/
def MoreRecent (uses : List (ℕ × ℕ)) (s i j : ℕ) : Prop :=
  uses.idxOf (s, i) < uses.idxOf (s, j) ∨ uses.idxOf (s, i) = uses.idxOf (s, j) ∧ i < j

/-- The values of a policy increase from the most recent use to the oldest. -/
def Ranked (n : ℕ) (bits : ℕ → ℕ → ℕ) (uses : List (ℕ × ℕ)) : Prop :=
  ∀ s, ∀ i < n, ∀ j < n, bits s i < bits s j ↔ MoreRecent uses s i j

/-! ### One operation -/

/-- The policy has been told of the use, and the way is one of the set. -/
def Touched (p : CacheParams) (bits : ℕ → ℕ → ℕ) (use : Option (ℕ × ℕ)) (c' : Cache) : Prop :=
  c'.policy = use.elim (.lru bits) (fun u ↦ (lru bits).update u.1 u.2) ∧
    ∀ u ∈ use, u.2 < p.associativity

theorem getSet_yields (address : ℕ) : Yields (getSet p address) (· = p.compute address) :=
  .check fun _ ↦ rfl

theorem replacement_lru (info : ℕ → CacheLineInfo) (s : ℕ) :
    Yields ((lru bits).getReplacementWay p.associativity info s) (·.2 = .lru bits) :=
  .check fun _ ↦ rfl

/-- A change of the set and of the policy at the way where an address is found. -/
theorem touched_put (hpolicy : c.policy = .lru bits) {address way : ℕ} (set : CacheSet)
    (hfind : (c.sets (p.compute address)).find p.associativity (p.getTag address) = some way) :
    Touched p bits (found p c address)
      (c.put (p.compute address) set (c.policy.update (p.compute address) way)) := by
  rw [found, hfind, hpolicy]
  refine ⟨rfl, fun u hu ↦ ?_⟩
  obtain rfl := Option.mem_some_iff.mp hu
  exact List.mem_range.mp (List.mem_reverse.mp (List.mem_of_find?_eq_some hfind))

/-- An operation tells the policy of the way that it uses, and of nothing else. -/
theorem perform_touched (hpolicy : c.policy = .lru bits) (op : Op) :
    Yields (perform p c op) fun r ↦ Touched p bits (used p c op) r.2 := by
  cases op with
  | load address n =>
    refine Outcome.bind (m := fun r ↦ Touched p bits (found p c address) r.2) ?_ fun r hr ↦ hr
    refine Outcome.bind (getSet_yields address) fun s hs ↦ Yields.lookup fun way hfind ↦ ?_
    subst hs
    exact .check fun _ ↦ touched_put hpolicy _ hfind
  | store address bytes =>
    refine Outcome.bind (m := Touched p bits (found p c address)) ?_ fun r hr ↦ hr
    refine Outcome.bind (getSet_yields address) fun s hs ↦ Yields.lookup fun way hfind ↦ ?_
    subst hs
    exact .check fun _ ↦ touched_put hpolicy _ hfind
  | setInfo address info =>
    refine .bind (m := Touched p bits none) ?_ fun r hr ↦ hr
    exact Yields.skip fun s ↦ Yields.lookup fun way _ ↦ ⟨hpolicy, nofun⟩
  | insert address info fillBuf writeback =>
    refine Outcome.bind (m := fun r ↦ Touched p bits (used p c (.insert address info none false)) r.2)
      ?_ fun r hr ↦ hr
    refine Outcome.bind (getSet_yields address) fun s hs ↦ Yields.after fun r hr ↦ ?_
    subst hs
    refine .check fun hway ↦ .check fun _ ↦ .check fun _ ↦ ?_
    have hlru : r.2 = .lru bits := by
      rw [hpolicy] at hr
      exact (replacement_lru _ _).of_eq_ok hr
    rw [used, hr]
    refine ⟨congrArg (ReplacementPolicy.update _ _) hlru, fun u hu ↦ ?_⟩
    obtain rfl := Option.mem_some_iff.mp hu
    exact hway
  | enable on => exact ⟨hpolicy, nofun⟩

/-! ### The order of use -/

/-- Of two ways the one that is touched comes first; the others keep their order. -/
def Promoted (way i j : ℕ) (before : Prop) : Prop := j ≠ way ∧ (i = way ∨ before)

theorem touch_lt_touch {n : ℕ} (hsound : (lru bits).Sound n) (s : ℕ)
    {way i j : ℕ} (hway : way < n) (hj : j < n) :
    touch (bits s) way i < touch (bits s) way j ↔ Promoted way i j (bits s i < bits s j) := by
  obtain ⟨hn, hperm⟩ := hsound
  obtain ⟨hlt, hinj⟩ := hperm s
  have hbound := hlt way hway
  have hj' := hinj j hj way hway
  unfold touch Promoted
  by_cases hiw : i = way
  · split_ifs <;> omega
  · split_ifs <;> omega

theorem moreRecent_cons (uses : List (ℕ × ℕ)) (s way i j : ℕ) :
    MoreRecent ((s, way) :: uses) s i j ↔ Promoted way i j (MoreRecent uses s i j) := by
  have hself : ((s, way) :: uses).idxOf (s, way) = 0 := List.idxOf_cons_self
  have hother {k : ℕ} (hk : k ≠ way) :
      ((s, way) :: uses).idxOf (s, k) = uses.idxOf (s, k) + 1 :=
    List.idxOf_cons_ne _ fun heq ↦ hk (congrArg Prod.snd heq).symm
  unfold MoreRecent Promoted
  by_cases hi : i = way
  · subst hi
    by_cases hj : j = i
    · subst hj
      simp
    · simp [hself, hother hj, hj]
  · by_cases hj : j = way
    · subst hj
      simp [hself, hother hi]
    · simp [hother hi, hother hj, hi, hj]

/-- The order stays right when the policy is told of a use. -/
theorem Ranked.update (h : Ranked p.associativity bits uses)
    (hsound : (lru bits).Sound p.associativity) (s : ℕ) {way : ℕ} (hway : way < p.associativity) :
    Ranked p.associativity (Function.update bits s (touch (bits s) way)) ((s, way) :: uses) := by
  intro s' i hi j hj
  by_cases hs : s' = s
  · subst hs
    rw [Function.update_self, touch_lt_touch hsound s' hway hj, moreRecent_cons, h s' i hi j hj]
  · have hne (k : ℕ) : (s, way) ≠ (s', k) := fun heq ↦ hs (congrArg Prod.fst heq).symm
    rw [Function.update_of_ne hs, h s' i hi j hj, MoreRecent, MoreRecent,
      List.idxOf_cons_ne _ (hne i), List.idxOf_cons_ne _ (hne j)]
    omega

/-- A run keeps the policy, a permutation in each set and the order of use. -/
theorem UseRun.ranked (hn : p.associativity ≤ 2 ^ 8) (h : UseRun p c uses) :
    ∃ bits, c.policy = .lru bits ∧ (lru bits).Sound p.associativity ∧
      Ranked p.associativity bits uses := by
  induction h with
  | create =>
    refine ⟨_, rfl, ReplacementPolicy.sound_createLru hn, fun s i hi j hj ↦ ?_⟩
    have hmod {k : ℕ} (hk : k < p.associativity) : k % 2 ^ 8 = k := Nat.mod_eq_of_lt (by omega)
    simp only [hmod hi, hmod hj]
    simp [MoreRecent]
  | @step c c' uses op r _ hstep ih =>
    obtain ⟨bits, hpolicy, hsound, hranked⟩ := ih
    obtain ⟨hnew, hway⟩ := (perform_touched hpolicy op).of_eq_ok hstep
    cases huse : used p c op with
    | none =>
      rw [huse] at hnew
      exact ⟨bits, hnew, hsound, hranked⟩
    | some use =>
      rw [huse] at hnew hway
      have hlt := hway use rfl
      exact ⟨_, hnew, hsound.update hlt, hranked.update hsound use.1 hlt⟩

/-! ### The victim -/

/-- Whatever is known of the ways, the victim is an invalid way or, if there is none, a way that was
not used after any other. -/
theorem victim_oldest {n : ℕ} (hn : 0 < n) (hsound : (lru bits).Sound n)
    (hranked : Ranked n bits uses) (info : ℕ → CacheLineInfo) (s : ℕ) :
    ∃ way < n, (lru bits).getReplacementWay n info s = .ok (way, .lru bits) ∧
      ((info way).isValid = false ∨ (∀ i < n, (info i).isValid = true) ∧
        ∀ i < n, uses.idxOf (s, i) ≤ uses.idxOf (s, way)) := by
  obtain ⟨hlt, hvictim⟩ := hsound.lruWay_spec hn info s
  refine ⟨_, hlt, ?_, hvictim.imp_right fun ⟨hvalid, hlargest⟩ ↦ ⟨hvalid, fun i hi ↦ ?_⟩⟩
  · simp [ReplacementPolicy.getReplacementWay, require, hlt]
  · -- no value is larger than the one of the victim
    have hbound := (hsound.2 s).1 i hi
    by_contra hyounger
    have := (hranked s _ hlt i hi).mpr (.inl (Nat.lt_of_not_le hyounger))
    omega

/-- For every run the values of the LRU policy rank the ways of each set by their last use, and a
victim is always found: an invalid way, or the way that was used longest ago. -/
theorem lru_replaces_oldest (p : CacheParams) (hpos : 0 < p.associativity)
    (hn : p.associativity ≤ 2 ^ 8) (c : Cache) (uses : List (ℕ × ℕ)) (h : UseRun p c uses) :
    ∃ bits, c.policy = .lru bits ∧ ∀ s,
      Set.BijOn (bits s) (Set.Iio p.associativity) (Set.Iio p.associativity) ∧
      (∀ i < p.associativity, ∀ j < p.associativity, bits s i < bits s j ↔ MoreRecent uses s i j) ∧
      ∃ way < p.associativity,
        c.policy.getReplacementWay p.associativity (c.sets s).info s = .ok (way, c.policy) ∧
        (((c.sets s).info way).isValid = false ∨
          (∀ i < p.associativity, ((c.sets s).info i).isValid = true) ∧
            ∀ i < p.associativity, uses.idxOf (s, i) ≤ uses.idxOf (s, way)) := by
  obtain ⟨bits, hpolicy, hsound, hranked⟩ := h.ranked hn
  refine ⟨bits, hpolicy, fun s ↦ ⟨hsound.bijOn s, hranked s, ?_⟩⟩
  rw [hpolicy]
  exact victim_oldest hpos hsound hranked _ s

theorem UseRun.after (h : UseRun p c uses) (op : Op) (hok : (perform p c op).toBool = true) :
    UseRun p (after p c op) ((used p c op).toList ++ uses) := by
  cases hperform : perform p c op with
  | error e =>
    rw [hperform] at hok
    cases hok
  | ok r =>
    rw [Cache.after, hperform]
    exact h.step hperform

/-- The first of two lines of a set is loaded after both were inserted. -/
theorem lru_replaces_oldest_byteLines :
    ∃ c uses, UseRun byteLines c uses ∧ uses = [(511, 0), (511, 1), (511, 0)] ∧
      ∃ bits, c.policy = .lru bits ∧ bits 511 0 < bits 511 1 := by
  have hrun := ((UseRun.create.after (.insert 511 ⟨511, .shared⟩ (some [1]) false)
    (by decide +kernel)).after (.insert 1023 ⟨1023, .shared⟩ (some [2]) false)
    (by decide +kernel)).after (p := byteLines) (.load 511 1) (by decide +kernel)
  obtain ⟨bits, hpolicy, hset⟩ := lru_replaces_oldest byteLines (by decide) (by decide) _ _ hrun
  refine ⟨_, _, hrun, by decide +kernel, bits, hpolicy, ?_⟩
  exact ((hset 511).2.1 0 (by decide) 1 (by decide)).mpr (.inl (by decide +kernel))

end CarbonSim.Cache
