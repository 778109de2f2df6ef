import CarbonSim.Directory.SharerSet
import CarbonSim.Lib.SetAssoc

/-!
# Directory entries and the directory cache

`DirectoryEntry` with its owner, state and random number generator, and `DirectoryCache`: the entries
of the sets, and the list of entries that have been replaced but whose line is still to be recalled.
A pointer to an entry is modelled by its address: `entry` reads the entry and `putEntry` writes it
back where it stands.
-/

namespace CarbonSim.Directory

open Option Prod SetAssoc

/-- `DirectoryState::Type`. -/
inductive DState
  | uncached
  | shared
  | owned
  | exclusive
  | modified
  deriving DecidableEq, Repr

/-- `DirectoryEntry`, apart from its address and the utilization counters. -/
structure Entry where
  sharers : Sharers
  owner : ℤ
  dstate : DState
  seed : ℕ

namespace Entry

def create (scheme : Scheme) (maxHwSharers maxNumSharers : ℕ) : Entry :=
  ⟨Sharers.create scheme maxHwSharers maxNumSharers, invalidTileId, .uncached, 1⟩

def setOwner (e : Entry) (ownerId : ℤ) : Except Fault Entry :=
  if ownerId = invalidTileId then return { e with owner := ownerId }
  else do
    let present ← e.sharers.hasSharer ownerId
    require (present = true) .ownerNotSharer
    return { e with owner := ownerId }

def addSharer (e : Entry) (sharerId : ℤ) : Except Fault (Bool × Entry) := do
  let (added, sharers) ← e.sharers.addSharer sharerId
  return (added, { e with sharers })

def removeSharer (e : Entry) (sharerId : ℤ) (replyExpected : Bool) : Except Fault Entry := do
  let sharers ← e.sharers.removeSharer sharerId replyExpected
  return { e with sharers }

/-- The next state of `Random`. -/
def nextSeed (seed : ℕ) : ℕ := (seed * 1103515245 + 12345) % 2 ^ 32

def getOneSharer (e : Entry) : Except Fault (ℤ × Entry) := do
  let sharer ← e.sharers.oneSharer fun limit ↦ nextSeed e.seed / 65536 % limit
  return (sharer, if sharer = invalidTileId then e else { e with seed := nextSeed e.seed })

end Entry

/-- `DirectoryCache`: the sets, and `_replaced_directory_entry_list`. -/
structure DirectoryCache (A : Type) where
  entries : SetAssoc A Entry
  replaced : List (A × Entry)

namespace DirectoryCache

variable {A : Type} [DecidableEq A] (g : Geometry A) (fresh : Entry)

def empty : DirectoryCache A := ⟨SetAssoc.empty, []⟩

variable (c : DirectoryCache A)

/-- The entry of an address, and the cache: an address without an entry gets a free one of its set;
only a full set is followed by a search in the replaced list. -/
def getDirectoryEntry (a : A) : Option Entry × DirectoryCache A :=
  match c.entries.get? g a with
  | some e => (some e, c)
  | none =>
    match c.entries.freeWay g a with
    | some w => (some fresh, { c with entries := (c.entries.insertAt g w a fresh).2 })
    | none => (c.replaced.lookup a, c)

/-- The list with the first value of a key overwritten. -/
def setFirst (a : A) (e : Entry) : List (A × Entry) → List (A × Entry)
  | [] => []
  | x :: xs => if x.1 = a then (a, e) :: xs else x :: setFirst a e xs

/-- Write an entry back through its pointer. -/
def putEntry (a : A) (e : Entry) : DirectoryCache A :=
  match c.entries.assign g a (some e) with
  | some entries => { c with entries }
  | none => { c with replaced := setFirst a e c.replaced }

/-- The entries of the set of an address. -/
def getReplacementCandidates (a : A) : List (A × Entry) :=
  g.scan.filterMap fun w ↦ c.entries.slot (g.index a) w

/-- The entry of `replacedAddress` moves to the replaced list and a new one takes its place. -/
def replaceDirectoryEntry (replacedAddress a : A) :
    Except Fault (DirectoryCache A) := do
  let w ← fetch (c.entries.findWay g replacedAddress) .noEntryToReplace
  let (old, entries) :=
    (c.entries.slot (g.index replacedAddress) w,
      c.entries.setSlot (g.index replacedAddress) w (some (a, fresh)))
  return { entries, replaced := c.replaced ++ old.toList }

def invalidateDirectoryEntry (a : A) : Except Fault (DirectoryCache A) := do
  require (a ∈ c.replaced.map fst) .notReplaced
  return { c with replaced := c.replaced.eraseP fun x ↦ x.1 = a }

/-! ### The cache as a map -/

/-- The entry of an address, in its set or replaced. -/
def entry (a : A) : Option Entry :=
  (c.entries.get? g a).or (c.replaced.lookup a)

/-- Each address has one entry at most, and a replaced one belongs to a set that is full. -/
structure WF (c : DirectoryCache A) : Prop where
  entries : c.entries.WF g
  nodup : (c.replaced.map fst).Nodup
  apart : ∀ a ∈ c.replaced.map fst, c.entries.get? g a = none
  full : ∀ a ∈ c.replaced.map fst, c.entries.freeWay g a = none

theorem WF.empty : (empty : DirectoryCache A).WF g :=
  ⟨.empty g, by simp [DirectoryCache.empty], by simp [DirectoryCache.empty],
    by simp [DirectoryCache.empty]⟩

variable {g fresh} {c : DirectoryCache A} {a : A} {e : Entry} {l : List (A × Entry)}

theorem lookup_cons_eq (x : A × Entry) (xs : List (A × Entry)) (b : A) :
    (x :: xs).lookup b = if b = x.1 then some x.2 else xs.lookup b := by
  obtain ⟨k, v⟩ := x
  by_cases hb : b = k
  · simp [hb]
  · have hbk : (b == k) = false := by simpa using hb
    simp [List.lookup_cons, hbk, hb]

theorem lookup_isSome_iff : (l.lookup a).isSome ↔ a ∈ l.map fst := by
  induction l with
  | nil => simp
  | cons x xs ih =>
    rw [lookup_cons_eq, List.map_cons, List.mem_cons]
    split_ifs with hx
    · simp [hx]
    · simp [hx]

theorem lookup_eq_none_iff : l.lookup a = none ↔ a ∉ l.map fst := by
  rw [← lookup_isSome_iff, not_isSome_iff_eq_none]

theorem mem_of_lookup (h : l.lookup a = some e) : (a, e) ∈ l := by
  induction l with
  | nil => cases h
  | cons x xs ih =>
    rw [lookup_cons_eq] at h
    split_ifs at h with hx
    · rw [hx, ← some.inj h]
      exact List.mem_cons_self
    · exact List.mem_cons_of_mem x (ih h)

theorem lookup_of_mem (hl : (l.map fst).Nodup) (h : (a, e) ∈ l) : l.lookup a = some e := by
  induction l with
  | nil => cases h
  | cons x xs ih =>
    obtain ⟨hx, hxs⟩ := List.nodup_cons.mp hl
    rw [lookup_cons_eq]
    rcases List.mem_cons.mp h with rfl | h
    · exact if_pos rfl
    · rw [if_neg, ih hxs h]
      rintro rfl
      exact hx (List.mem_map.mpr ⟨_, h, rfl⟩)

theorem setFirst_keys (l : List (A × Entry)) :
    (setFirst a e l).map fst = l.map fst := by
  induction l with
  | nil => rfl
  | cons x xs ih =>
    unfold setFirst
    split_ifs with hx
    · simp [hx]
    · simp [ih]

theorem lookup_setFirst (h : a ∈ l.map fst) (b : A) :
    (setFirst a e l).lookup b = if b = a then some e else l.lookup b := by
  induction l with
  | nil => simp at h
  | cons x xs ih =>
    unfold setFirst
    split_ifs with hx hb
    · simp [hb]
    · simp [lookup_cons_eq, hx, hb]
    all_goals
      have hmem : a ∈ xs.map fst := by
        rcases List.mem_cons.mp h with h | h
        · exact absurd h.symm hx
        · exact h
      rw [lookup_cons_eq, ih hmem]
    · subst_vars
      simp [Ne.symm hx]
    · simp [lookup_cons_eq, *]

theorem lookup_eraseP (hl : (l.map fst).Nodup) (b : A) :
    (l.eraseP fun x ↦ x.1 = a).lookup b = if b = a then none else l.lookup b := by
  induction l with
  | nil => simp
  | cons x xs ih =>
    obtain ⟨hx, hxs⟩ := List.nodup_cons.mp hl
    by_cases hxa : x.1 = a
    · subst hxa
      rw [List.eraseP_cons_of_pos (by simp), lookup_cons_eq]
      split_ifs with hb
      · exact lookup_eq_none_iff.mpr (hb ▸ hx)
      · rfl
    · rw [List.eraseP_cons_of_neg (by simpa using hxa), lookup_cons_eq, lookup_cons_eq, ih hxs]
      by_cases hb : b = a
      · subst hb
        simp [Ne.symm hxa]
      · simp [hb]

omit [DecidableEq A] in
/-- Whether a set is full depends on which slots are in use. -/
theorem freeWay_congr {c c' : SetAssoc A Entry}
    (h : ∀ s w, (c.slot s w).isNone = (c'.slot s w).isNone) (a : A) :
    c.freeWay g a = c'.freeWay g a := by
  unfold freeWay
  simp only [h]

omit [DecidableEq A] in
theorem freeWay_insertAt {c : SetAssoc A Entry} {w : ℕ} {b : A} (h : c.freeWay g b = none) :
    (c.insertAt g w a e).2.freeWay g b = none := by
  unfold freeWay at h ⊢
  rw [List.find?_eq_none] at h ⊢
  intro w' hw'
  by_cases hsw : g.index b = g.index a ∧ w' = w
  · simp [insertAt, hsw.1, hsw.2, setSlot_self]
  · simpa [insertAt, setSlot_of_ne _ _ hsw] using h w' hw'

theorem freeWay_assign {c c' : SetAssoc A Entry} {b : A}
    (h : c.assign g a (some e) = some c') : c'.freeWay g b = c.freeWay g b := by
  obtain ⟨w, hw, rfl⟩ := map_eq_some_iff.mp h
  obtain ⟨-, v, hslot⟩ := exists_of_findWay hw
  refine freeWay_congr (fun s w' ↦ ?_) b
  by_cases hsw : s = g.index a ∧ w' = w
  · rw [hsw.1, hsw.2, setSlot_self, hslot]
    rfl
  · rw [setSlot_of_ne _ _ hsw]

/-! ### What the operations do to the map -/

/-- The cache `c'` maps `a` to `x` and is otherwise as `c`. -/
structure Updated (g : Geometry A) (c : DirectoryCache A) (a : A) (x : Option Entry)
    (c' : DirectoryCache A) : Prop where
  wf : c'.WF g
  entry : ∀ b, c'.entry g b = if b = a then x else c.entry g b

/-- A lookup that finds the entry changes nothing. -/
theorem WF.getDirectoryEntry_of_some (h : c.WF g) (he : c.entry g a = some e) :
    c.getDirectoryEntry g fresh a = (some e, c) := by
  unfold DirectoryCache.getDirectoryEntry
  unfold DirectoryCache.entry at he
  cases hget : c.entries.get? g a with
  | some e' =>
    rw [hget] at he
    obtain rfl : e' = e := by simpa using he
    rfl
  | none =>
    rw [hget, none_or] at he
    have hmem : a ∈ c.replaced.map fst := by
      rw [← lookup_isSome_iff, he]
      rfl
    simp [h.full a hmem, he]

/-- A lookup of an address without an entry claims a free one, or fails. -/
theorem WF.getDirectoryEntry_of_none (fresh : Entry) (h : c.WF g) (he : c.entry g a = none) :
    (∃ c', c.getDirectoryEntry g fresh a = (some fresh, c') ∧ Updated g c a (some fresh) c' ∧
        c'.replaced = c.replaced) ∨
      (c.getDirectoryEntry g fresh a = (none, c) ∧ c.entries.freeWay g a = none) := by
  obtain ⟨hget, hlook⟩ : c.entries.get? g a = none ∧ c.replaced.lookup a = none := by
    simpa [DirectoryCache.entry] using he
  unfold DirectoryCache.getDirectoryEntry
  cases hfree : c.entries.freeWay g a with
  | none => exact .inr ⟨by simp [hget, hlook], rfl⟩
  | some w =>
    refine .inl ⟨{ c with entries := (c.entries.insertAt g w a fresh).2 }, by simp [hget],
      ⟨⟨?_, h.nodup, fun b hb ↦ ?_, fun b hb ↦ ?_⟩, fun b ↦ ?_⟩,
      rfl⟩
    all_goals have hins := h.entries.insertAt (v := fresh) (List.mem_of_find?_eq_some hfree) hget
    · exact hins.wf
    · have hba : b ≠ a := by
        rintro rfl
        exact lookup_eq_none_iff.mp hlook hb
      rw [hins.get? b, if_neg hba, h.apart b hb]
      simp
    · exact freeWay_insertAt (h.full b hb)
    · have hev : (c.entries.insertAt g w a fresh).1 = none := by
        simpa [insertAt] using List.find?_some hfree
      have hget' := hins.get? b
      rw [hev] at hget'
      change ((c.entries.insertAt g w a fresh).2.get? g b).or _ = _
      rw [hget']
      split_ifs with hb
      · rfl
      · simp at *
      · rfl

/-- Writing an entry back. -/
theorem WF.putEntry (h : c.WF g) {old : Entry} (he : c.entry g a = some old) (e : Entry) :
    Updated g c a (some e) (c.putEntry g a e) ∧
      (c.putEntry g a e).replaced.map fst = c.replaced.map fst ∧
      ∀ b, (c.putEntry g a e).entries.freeWay g b = c.entries.freeWay g b := by
  unfold DirectoryCache.putEntry
  cases has : c.entries.assign g a (some e) with
  | some entries =>
    have hset := h.entries.assign has
    refine ⟨⟨⟨hset.wf, h.nodup, fun b hb ↦ ?_, fun b hb ↦ ?_⟩, fun b ↦ ?_⟩, rfl,
      fun b ↦ freeWay_assign has⟩
    · have hba : b ≠ a := by
        rintro rfl
        have hnone := assign_eq_none_iff (x := some e) |>.mpr (h.apart b hb)
        simp [has] at hnone
      rw [hset.get? b, if_neg hba, h.apart b hb]
    · rw [freeWay_assign has]
      exact h.full b hb
    · change (entries.get? g b).or _ = _
      rw [hset.get? b]
      split_ifs with hb
      · rfl
      · rfl
  | none =>
    have hget := assign_eq_none_iff.mp has
    have hmem : a ∈ c.replaced.map fst := by
      rw [← lookup_isSome_iff]
      simp only [DirectoryCache.entry, hget, none_or] at he
      simp [he]
    have hkeys : (setFirst a e c.replaced).map fst = c.replaced.map fst :=
      setFirst_keys _
    refine ⟨⟨⟨h.entries, ?_, fun b hb ↦ ?_, fun b hb ↦ ?_⟩, fun b ↦ ?_⟩, hkeys, fun b ↦ rfl⟩
    · rw [hkeys]
      exact h.nodup
    · rw [hkeys] at hb
      exact h.apart b hb
    · rw [hkeys] at hb
      exact h.full b hb
    · change (c.entries.get? g b).or ((setFirst a e c.replaced).lookup b) = _
      rw [lookup_setFirst hmem]
      split_ifs with hb
      · rw [hb, hget]
        rfl
      · rfl

theorem WF.mem_getReplacementCandidates (h : c.WF g) {v : A}
    (hv : (v, e) ∈ c.getReplacementCandidates g a) :
    g.index v = g.index a ∧ c.entries.get? g v = some e := by
  obtain ⟨w, -, hslot⟩ := List.mem_filterMap.mp hv
  exact ⟨h.entries.index hslot, h.entries.get?_of_slot hslot⟩

/-- A victim of the set of an address without an entry is moved to the replaced list. -/
theorem WF.replaceDirectoryEntry (fresh : Entry) (h : c.WF g) (he : c.entry g a = none)
    (hfull : c.entries.freeWay g a = none) {v : A} (hindex : g.index v = g.index a)
    (hv : c.entries.get? g v = some e) :
    ∃ c', c.replaceDirectoryEntry g fresh v a = .ok c' ∧ Updated g c a (some fresh) c' ∧
      c'.replaced.map fst = c.replaced.map fst ++ [v] := by
  obtain ⟨hget, hlook⟩ : c.entries.get? g a = none ∧ c.replaced.lookup a = none := by
    simpa [DirectoryCache.entry] using he
  obtain ⟨w, hw⟩ := h.entries.get?_eq_some_iff.mp hv
  have hway := h.entries.findWay_eq hw
  have hins := h.entries.insertAt (v := fresh) (h.entries.scan hw) hget
  simp only [insertAt, ← hindex] at hins
  rw [hw] at hins
  have hva : v ≠ a := (hins.held v e rfl).1
  have hvr : v ∉ c.replaced.map fst := fun hmem ↦ by
    have := h.apart v hmem
    simp [hv] at this
  have hfree (b : A) (hb : c.entries.freeWay g b = none) :
      (c.entries.setSlot (g.index v) w (some (a, fresh))).freeWay g b = none := by
    have := freeWay_insertAt (a := a) (e := fresh) (w := w) hb
    simpa [insertAt, ← hindex] using this
  refine ⟨_, by simp only [DirectoryCache.replaceDirectoryEntry, hway]; rfl, ⟨⟨hins.wf, ?_, ?_, ?_⟩,
    fun b ↦ ?_⟩, ?_⟩
  · simp only [hw, toList_some, List.map_append, List.map_cons, List.map_nil]
    exact List.nodup_append.mpr ⟨h.nodup, List.nodup_singleton _, by
      intro x hx y hy heq
      rw [List.mem_singleton.mp hy] at heq
      exact hvr (heq ▸ hx)⟩
  · intro b hb
    simp only [hw, toList_some, List.map_append, List.map_cons, List.map_nil,
      List.mem_append, List.mem_singleton] at hb
    rw [hins.get? b]
    rcases hb with hb | rfl
    · have hba : b ≠ a := by
        rintro rfl
        exact lookup_eq_none_iff.mp hlook hb
      simp [hba, h.apart b hb]
    · simp [hva]
  · intro b hb
    simp only [hw, toList_some, List.map_append, List.map_cons, List.map_nil,
      List.mem_append, List.mem_singleton] at hb
    rcases hb with hb | rfl
    · exact hfree b (h.full b hb)
    · refine hfree b ?_
      unfold freeWay at hfull ⊢
      rwa [hindex]
  · change ((c.entries.setSlot _ _ _).get? g b).or ((c.replaced ++ _).lookup b) = _
    rw [hins.get? b, hw]
    split_ifs with hb hbv
    · rfl
    · obtain rfl : v = b := by simpa using hbv
      simp [List.lookup_append, lookup_eq_none_iff.mpr hvr, DirectoryCache.entry, hv]
    · have hvb : (b == v) = false := by
        have : v ≠ b := by simpa using hbv
        simpa using this.symm
      simp [DirectoryCache.entry, List.lookup_append, List.lookup_cons, hvb]
  · simp [hw]

/-- A replaced entry is deleted. -/
theorem WF.invalidateDirectoryEntry (h : c.WF g) (ha : a ∈ c.replaced.map fst) :
    ∃ c', c.invalidateDirectoryEntry a = .ok c' ∧ Updated g c a none c' ∧
      c'.replaced.map fst = (c.replaced.map fst).erase a ∧ c'.entries = c.entries := by
  have hkeys : (c.replaced.eraseP fun x ↦ x.1 = a).map fst
      = (c.replaced.map fst).erase a := by
    rw [List.erase_eq_eraseP, List.eraseP_map]
    congr 1
    simp [Function.comp_def, beq_eq_decide, eq_comm]
  refine ⟨{ c with replaced := c.replaced.eraseP fun x ↦ x.1 = a },
    by simp only [DirectoryCache.invalidateDirectoryEntry, require, ha, if_true]; rfl,
    ⟨⟨h.entries, ?_, fun b hb ↦ ?_, fun b hb ↦ ?_⟩, fun b ↦ ?_⟩, hkeys, rfl⟩
  · rw [hkeys]
    exact h.nodup.erase a
  · rw [hkeys] at hb
    exact h.apart b (List.mem_of_mem_erase hb)
  · rw [hkeys] at hb
    exact h.full b (List.mem_of_mem_erase hb)
  · change (c.entries.get? g b).or ((c.replaced.eraseP _).lookup b) = _
    rw [lookup_eraseP h.nodup]
    split_ifs with hb
    · rw [hb, h.apart a ha]
      rfl
    · rfl

end DirectoryCache

end CarbonSim.Directory
