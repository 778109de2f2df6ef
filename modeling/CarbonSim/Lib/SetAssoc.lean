import Mathlib.Data.List.Basic

/-!
# Set-associative stores

A store keeps values under keys in the ways of numbered sets. A key may only stand in the set its
geometry assigns to it, and is looked for in the ways of that set in the order in which they are
scanned. `SetAssoc.get?` is the lookup; for a well-formed store every operation is determined by
what it does to `get?`.
-/

namespace CarbonSim

/-- Which set a key belongs to, and the ways of a set in the order in which they are searched. -/
structure Geometry (K : Type) where
  index : K → ℕ
  scan : List ℕ

/-- What stands in each way of each set. -/
structure SetAssoc (K β : Type) where
  slot : ℕ → ℕ → Option (K × β)

namespace SetAssoc

open Option

variable {K β : Type}

/-- The store with nothing in it. -/
def empty : SetAssoc K β := ⟨fun _ _ ↦ none⟩

variable (c : SetAssoc K β)

/-- The store with one way overwritten. -/
def setSlot (s w : ℕ) (x : Option (K × β)) : SetAssoc K β :=
  ⟨Function.update c.slot s (Function.update (c.slot s) w x)⟩

theorem setSlot_self (s w : ℕ) (x : Option (K × β)) :
    (c.setSlot s w x).slot s w = x := by
  simp [setSlot]

theorem setSlot_of_ne {s w s' w' : ℕ} (x : Option (K × β))
    (h : ¬ (s' = s ∧ w' = w)) : (c.setSlot s w x).slot s' w' = c.slot s' w' := by
  by_cases hs : s' = s
  · subst hs
    have hw : w' ≠ w := fun hw ↦ h ⟨rfl, hw⟩
    simp [setSlot, hw]
  · simp [setSlot, hs]

variable [DecidableEq K] (g : Geometry K)

/-- The first way scanned that holds the key. -/
def findWay (k : K) : Option ℕ :=
  g.scan.find? fun w ↦ (c.slot (g.index k) w).any fun x ↦ x.1 = k

/-- The value held under a key. -/
def get? (k : K) : Option β :=
  (c.findWay g k).bind fun w ↦ (c.slot (g.index k) w).map Prod.snd

/-- The store with the value of a key that it holds replaced, or dropped. -/
def assign (k : K) (x : Option β) : Option (SetAssoc K β) :=
  (c.findWay g k).map fun w ↦ c.setSlot (g.index k) w (x.map fun v ↦ (k, v))

/-- Put a key into a way of its set; what stood there is returned. -/
def insertAt (w : ℕ) (k : K) (v : β) : Option (K × β) × SetAssoc K β :=
  (c.slot (g.index k) w, c.setSlot (g.index k) w (some (k, v)))

/-- The first way scanned of a key's set with nothing in it. -/
def freeWay (k : K) : Option ℕ :=
  g.scan.find? fun w ↦ (c.slot (g.index k) w).isNone

/-- Keys stand in their own set, and nowhere twice. -/
structure WF (c : SetAssoc K β) : Prop where
  index : ∀ {s w k v}, c.slot s w = some (k, v) → g.index k = s
  scan : ∀ {s w k v}, c.slot s w = some (k, v) → w ∈ g.scan
  unique : ∀ {s w w' k v v'}, c.slot s w = some (k, v) → c.slot s w' = some (k, v') → w = w'

omit [DecidableEq K] in
theorem WF.empty : (empty : SetAssoc K β).WF g :=
  ⟨fun h ↦ by simp [SetAssoc.empty] at h, fun h ↦ by simp [SetAssoc.empty] at h,
    fun h ↦ by simp [SetAssoc.empty] at h⟩

variable {g} {c : SetAssoc K β} {k : K} {x : Option β} {v : β} {w : ℕ}

@[simp] theorem get?_empty (k : K) : (empty : SetAssoc K β).get? g k = none := by
  simp [get?, empty, findWay]

theorem exists_of_findWay (h : c.findWay g k = some w) :
    w ∈ g.scan ∧ ∃ v, c.slot (g.index k) w = some (k, v) := by
  refine ⟨List.mem_of_find?_eq_some h, ?_⟩
  have hany := List.find?_some h
  simp only [any_eq_true, decide_eq_true_eq] at hany
  obtain ⟨⟨k', v⟩, hslot, rfl⟩ := hany
  exact ⟨v, hslot⟩

theorem WF.findWay_eq (h : c.WF g) (hslot : c.slot (g.index k) w = some (k, v)) :
    c.findWay g k = some w := by
  cases hf : c.findWay g k with
  | none =>
    have := List.find?_eq_none.mp hf w (h.scan hslot)
    simp [hslot] at this
  | some w' =>
    obtain ⟨-, v', hslot'⟩ := exists_of_findWay hf
    rw [h.unique hslot hslot']

/-- A lookup finds exactly what stands in the key's set. -/
theorem WF.get?_eq_some_iff (h : c.WF g) :
    c.get? g k = some v ↔ ∃ w, c.slot (g.index k) w = some (k, v) := by
  constructor
  · intro hget
    obtain ⟨w, hw, hv⟩ := bind_eq_some_iff.mp hget
    obtain ⟨-, v', hslot⟩ := exists_of_findWay hw
    obtain rfl : v' = v := by simpa [hslot] using hv
    exact ⟨w, hslot⟩
  · rintro ⟨w, hslot⟩
    simp [get?, h.findWay_eq hslot, hslot]

theorem WF.get?_of_slot (h : c.WF g) {s w : ℕ} (hslot : c.slot s w = some (k, v)) :
    c.get? g k = some v := by
  obtain rfl := h.index hslot
  exact h.get?_eq_some_iff.mpr ⟨w, hslot⟩

theorem WF.get?_eq_none_iff (h : c.WF g) :
    c.get? g k = none ↔ ∀ w v, c.slot (g.index k) w ≠ some (k, v) := by
  rw [eq_none_iff_forall_ne_some]
  constructor
  · intro hget w v hslot
    exact hget v (h.get?_of_slot hslot)
  · intro hslot v hget
    obtain ⟨w, hw⟩ := h.get?_eq_some_iff.mp hget
    exact hslot w v hw

theorem findWay_isSome_iff : (c.findWay g k).isSome ↔ (c.get? g k).isSome := by
  constructor
  · intro hf
    obtain ⟨w, hw⟩ := isSome_iff_exists.mp hf
    obtain ⟨-, v, hslot⟩ := exists_of_findWay hw
    simp [get?, hw, hslot]
  · intro hget
    obtain ⟨v, hv⟩ := isSome_iff_exists.mp hget
    obtain ⟨w, hw, -⟩ := bind_eq_some_iff.mp hv
    simp [hw]

omit [DecidableEq K] in
/-- Overwriting a way keeps a store well formed if the key written there is nowhere else. -/
theorem WF.setSlot (h : c.WF g) {s w : ℕ} {x : Option (K × β)}
    (hx : ∀ k v, x = some (k, v) → g.index k = s ∧ w ∈ g.scan ∧
      ∀ w' v', c.slot s w' = some (k, v') → w' = w) : (c.setSlot s w x).WF g where
  index := by
    intro s' w' k v hslot
    by_cases hsw : s' = s ∧ w' = w
    · obtain ⟨rfl, rfl⟩ := hsw
      rw [setSlot_self] at hslot
      exact (hx k v hslot).1
    · rw [setSlot_of_ne c x hsw] at hslot
      exact h.index hslot
  scan := by
    intro s' w' k v hslot
    by_cases hsw : s' = s ∧ w' = w
    · obtain ⟨rfl, rfl⟩ := hsw
      rw [setSlot_self] at hslot
      exact (hx k v hslot).2.1
    · rw [setSlot_of_ne c x hsw] at hslot
      exact h.scan hslot
  unique := by
    intro s' w₁ w₂ k v₁ v₂ h₁ h₂
    by_cases hs : s' = s
    · subst hs
      by_cases hw₁ : w₁ = w <;> by_cases hw₂ : w₂ = w
      · rw [hw₁, hw₂]
      · subst hw₁
        rw [setSlot_self] at h₁
        rw [setSlot_of_ne c x fun hsw ↦ hw₂ hsw.2] at h₂
        exact ((hx k v₁ h₁).2.2 w₂ v₂ h₂).symm
      · subst hw₂
        rw [setSlot_self] at h₂
        rw [setSlot_of_ne c x fun hsw ↦ hw₁ hsw.2] at h₁
        exact (hx k v₂ h₂).2.2 w₁ v₁ h₁
      · rw [setSlot_of_ne c x fun hsw ↦ hw₁ hsw.2] at h₁
        rw [setSlot_of_ne c x fun hsw ↦ hw₂ hsw.2] at h₂
        exact h.unique h₁ h₂
    · rw [setSlot_of_ne c x fun hsw ↦ hs hsw.1] at h₁ h₂
      exact h.unique h₁ h₂

/-- What an assignment to a key that is held does. -/
structure Assigned (g : Geometry K) (c : SetAssoc K β) (k : K) (x : Option β)
    (c' : SetAssoc K β) : Prop where
  wf : c'.WF g
  get? : ∀ j, c'.get? g j = if j = k then x else c.get? g j

theorem WF.assign (h : c.WF g) {c' : SetAssoc K β} (hc : c.assign g k x = some c') :
    Assigned g c k x c' := by
  obtain ⟨w, hw, rfl⟩ := map_eq_some_iff.mp hc
  obtain ⟨hscan, v, hslot⟩ := exists_of_findWay hw
  have hwf : (c.setSlot (g.index k) w (x.map fun v ↦ (k, v))).WF g := by
    refine h.setSlot fun k' v' hx ↦ ?_
    obtain ⟨u, -, hu⟩ := map_eq_some_iff.mp hx
    obtain ⟨rfl, rfl⟩ : k = k' ∧ u = v' := by simpa using hu
    exact ⟨rfl, hscan, fun w' v'' hslot' ↦ h.unique hslot' hslot⟩
  refine ⟨hwf, fun j ↦ ?_⟩
  ext u
  rw [hwf.get?_eq_some_iff]
  split_ifs with hj
  · subst hj
    constructor
    · rintro ⟨w', hslot'⟩
      by_cases hw' : w' = w
      · subst hw'
        rw [setSlot_self] at hslot'
        obtain ⟨y, hy, hyu⟩ := map_eq_some_iff.mp hslot'
        obtain rfl : y = u := by simpa using hyu
        exact hy
      · rw [setSlot_of_ne _ _ fun hsw ↦ hw' hsw.2] at hslot'
        exact absurd (h.unique hslot' hslot) hw'
    · intro hx
      exact ⟨w, by rw [setSlot_self, hx]; rfl⟩
  · rw [h.get?_eq_some_iff]
    constructor
    · rintro ⟨w', hslot'⟩
      refine ⟨w', ?_⟩
      by_cases hsw : g.index j = g.index k ∧ w' = w
      · rw [hsw.1, hsw.2, setSlot_self] at hslot'
        obtain ⟨y, -, hy⟩ := map_eq_some_iff.mp hslot'
        have hkj : k = j := (Prod.mk.injEq .. ▸ hy).1
        exact absurd hkj.symm hj
      · rwa [setSlot_of_ne _ _ hsw] at hslot'
    · rintro ⟨w', hslot'⟩
      refine ⟨w', ?_⟩
      rw [setSlot_of_ne]
      · exact hslot'
      · rintro ⟨hi, rfl⟩
        rw [hi, hslot] at hslot'
        have hkj : k = j := by
          have := some.inj hslot'
          exact congrArg Prod.fst this
        exact hj hkj.symm

theorem assign_isSome_iff : (c.assign g k x).isSome ↔ (c.get? g k).isSome := by
  rw [← findWay_isSome_iff]
  simp [SetAssoc.assign]

theorem assign_eq_none_iff : c.assign g k x = none ↔ c.get? g k = none := by
  rw [← not_isSome_iff_eq_none, ← not_isSome_iff_eq_none, assign_isSome_iff]

/-- What an insertion of a key that is not held does. -/
structure Inserted (g : Geometry K) (c : SetAssoc K β) (k : K) (v : β) (evicted : Option (K × β))
    (c' : SetAssoc K β) : Prop where
  wf : c'.WF g
  held : ∀ j u, evicted = some (j, u) → j ≠ k ∧ c.get? g j = some u
  get? : ∀ j, c'.get? g j =
    if j = k then some v else if evicted.any fun x ↦ x.1 = j then none else c.get? g j

theorem WF.insertAt (h : c.WF g) (hw : w ∈ g.scan) (hk : c.get? g k = none) :
    Inserted g c k v (c.insertAt g w k v).1 (c.insertAt g w k v).2 := by
  have habs := h.get?_eq_none_iff.mp hk
  have hwf : (c.setSlot (g.index k) w (some (k, v))).WF g := by
    refine h.setSlot fun k' v' hx ↦ ?_
    obtain ⟨rfl, rfl⟩ : k = k' ∧ v = v' := by simpa using hx
    exact ⟨rfl, hw, fun w' v'' hslot' ↦ absurd hslot' (habs w' v'')⟩
  refine ⟨hwf, fun j u hj ↦ ⟨?_, h.get?_of_slot hj⟩, fun j ↦ ?_⟩
  · rintro rfl
    exact habs w u hj
  · change (c.setSlot (g.index k) w (some (k, v))).get? g j = _
    split_ifs with hjk hev
    · subst hjk
      exact hwf.get?_of_slot (setSlot_self ..)
    · simp only [any_eq_true] at hev
      obtain ⟨⟨j', u⟩, hslot, hj'⟩ := hev
      obtain rfl : j' = j := by simpa using hj'
      rw [hwf.get?_eq_none_iff]
      intro w' u' hslot'
      by_cases hsw : g.index j' = g.index k ∧ w' = w
      · rw [hsw.1, hsw.2, setSlot_self] at hslot'
        exact hjk (congrArg Prod.fst (some.inj hslot')).symm
      · rw [setSlot_of_ne _ _ hsw] at hslot'
        have hi := h.index hslot
        rw [hi] at hslot'
        exact hsw ⟨hi, h.unique hslot' hslot⟩
    · ext u
      rw [hwf.get?_eq_some_iff, h.get?_eq_some_iff]
      constructor
      · rintro ⟨w', hslot'⟩
        refine ⟨w', ?_⟩
        by_cases hsw : g.index j = g.index k ∧ w' = w
        · rw [hsw.1, hsw.2, setSlot_self] at hslot'
          exact absurd (congrArg Prod.fst (some.inj hslot')).symm hjk
        · rwa [setSlot_of_ne _ _ hsw] at hslot'
      · rintro ⟨w', hslot'⟩
        refine ⟨w', ?_⟩
        rw [setSlot_of_ne]
        · exact hslot'
        · rintro ⟨hi, rfl⟩
          rw [hi] at hslot'
          exact hev (by simp [SetAssoc.insertAt, hslot'])

end SetAssoc

end CarbonSim
