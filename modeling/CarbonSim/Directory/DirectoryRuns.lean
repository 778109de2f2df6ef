import CarbonSim.Directory.DirectoryCache
import CarbonSim.Lib.Runs

/-!
# Runs of the directory cache

A controller looks up entries, changes them, replaces one when a lookup found no room, and deletes a
replaced one. A lookup gives away a free way of the set before it searches the replaced entries: this
would give an address a second entry, but a set keeps no free way once an entry of it was replaced.
So along every such run each line has one entry at most, and keeps it until it is deleted.

The set of an address is computed by a loop over fields of its bits. If there is only one set, these
fields are empty and the loop does not end (`setIndexLoop_zero`); with more sets it always finds one
of them (`setIndexLoop_found`).
-/

namespace CarbonSim.Directory

open Option

/-- The parameters of a directory, which has a set and a way. -/
structure Dimensions where
  totalEntries : ℕ
  associativity : ℕ
  cacheLineSize : ℕ
  numDirectories : ℕ
  ways : 0 < associativity
  sets : associativity ≤ totalEntries

/-- An address of a line is not `INVALID_ADDRESS`. -/
abbrev LineAddress := { a : BitVec 64 // a ≠ BitVec.allOnes 64 }

/-- What stops an operation. -/
inductive DirectoryFault
  | cache (fault : Fault)
  /-- The loop of `computeSetIndex` does not end. -/
  | endless
  /-- An entry behind the last one. -/
  | outOfRange
  deriving DecidableEq

/-- Bits `low` up to, but not including, `high`. -/
def getBits (x high low : ℕ) : ℕ := (x >>> low) &&& ((1 <<< (high - low)) - 1)

/-- The loop of `computeSetIndex`, for a number of rounds. -/
def setIndexLoop (logNumSets address : ℕ) : ℕ → ℕ → ℕ → Option ℕ
  | 0, _, _ => none
  | rounds + 1, i, set =>
    if i + logNumSets ≤ 64 then
      setIndexLoop logNumSets address rounds (i + logNumSets)
        (set ^^^ getBits address (i + logNumSets) i)
    else some set

namespace Dimensions

variable (d : Dimensions)

def numSets : ℕ := d.totalEntries / d.associativity

/-- `floorLog2`. -/
def logNumSets : ℕ := d.numSets.log2

/-- The lowest bit that the set depends on: `_log_cache_line_size + _log_num_directories`. -/
def firstBit : ℕ :=
  d.cacheLineSize.log2 + if d.numDirectories ≤ 1 then 0 else (d.numDirectories - 1).log2 + 1

/-- `computeSetIndex`. With fields of at least one bit the loop ends within 65 rounds
(`setIndexLoop_isSome`), without it never does (`setIndexLoop_zero`). -/
def computeSetIndex (a : LineAddress) : Option ℕ :=
  (setIndexLoop d.logNumSets a.1.toNat 65 d.firstBit 0).map (· % 2 ^ 32)

def geometry : Geometry LineAddress :=
  ⟨fun a ↦ (d.computeSetIndex a).getD 0, List.range d.associativity⟩

/-- The set of an address is found, and its ways are in the directory. -/
def locate (a : LineAddress) : Except DirectoryFault Unit := do
  let set ← fetch (d.computeSetIndex a) .endless
  require (set * d.associativity + d.associativity ≤ d.totalEntries) .outOfRange

end Dimensions

/-! ### The set of an address -/

theorem getBits_lt (x i n : ℕ) : getBits x (i + n) i < 2 ^ n := by
  rw [getBits, Nat.add_sub_cancel_left, Nat.one_shiftLeft]
  exact Nat.lt_of_le_of_lt Nat.and_le_right (Nat.sub_one_lt (Nat.two_pow_pos n).ne')

theorem setIndexLoop_lt {n address rounds i set r : ℕ} (hset : set < 2 ^ n)
    (h : setIndexLoop n address rounds i set = some r) : r < 2 ^ n := by
  induction rounds generalizing i set with
  | zero => cases h
  | succ rounds ih =>
    rw [setIndexLoop] at h
    split_ifs at h with hi
    · exact ih (Nat.xor_lt_two_pow hset (getBits_lt address i n)) h
    · rw [← some.inj h]
      exact hset

/-- With fields of at least one bit the loop ends. -/
theorem setIndexLoop_isSome {n : ℕ} (hn : 0 < n) (address rounds i set : ℕ)
    (hrounds : 64 < i + rounds + 1) : ∃ r, setIndexLoop n address (rounds + 1) i set = some r := by
  induction rounds generalizing i set with
  | zero =>
    rw [setIndexLoop, if_neg (by omega)]
    exact ⟨set, rfl⟩
  | succ rounds ih =>
    rw [setIndexLoop]
    split_ifs with hi
    · exact ih _ _ (by omega)
    · exact ⟨set, rfl⟩

/-- Without fields the loop never ends. -/
theorem setIndexLoop_zero {i : ℕ} (hi : i ≤ 64) (address rounds set : ℕ) :
    setIndexLoop 0 address rounds i set = none := by
  induction rounds generalizing set with
  | zero => rfl
  | succ rounds ih =>
    rw [setIndexLoop, Nat.add_zero, if_pos hi]
    exact ih _

variable {d : Dimensions} {a : LineAddress}

/-- With more than one set the loop finds one of them. -/
theorem setIndexLoop_found (hsets : 1 < d.numSets) (address : ℕ) :
    ∃ r, setIndexLoop d.logNumSets address 65 d.firstBit 0 = some r ∧ r % 2 ^ 32 < d.numSets := by
  have hlog : 0 < d.logNumSets := by
    by_contra hzero
    have hlt : d.numSets < 2 ^ (d.logNumSets + 1) := Nat.lt_log2_self
    rw [Nat.eq_zero_of_not_pos hzero] at hlt
    omega
  obtain ⟨r, hr⟩ := setIndexLoop_isSome hlog address 64 d.firstBit 0 (by omega)
  have hr' := setIndexLoop_lt (Nat.two_pow_pos _) hr
  have hpow : 2 ^ d.logNumSets ≤ d.numSets := Nat.log2_self_le (by omega)
  exact ⟨r, hr, Nat.lt_of_le_of_lt (Nat.mod_le _ _) (Nat.lt_of_lt_of_le hr' hpow)⟩

theorem logNumSets_one (hsets : d.numSets = 1) : d.logNumSets = 0 := by
  rw [Dimensions.logNumSets, hsets]
  rfl

theorem locate_ne_cache {fault : DirectoryFault} (h : d.locate a = .error fault) (f : Fault) :
    fault ≠ .cache f := by
  rintro rfl
  rw [Dimensions.locate] at h
  cases hset : d.computeSetIndex a with
  | none =>
    rw [hset] at h
    cases h
  | some set =>
    rw [hset] at h
    replace h : require (set * d.associativity + d.associativity ≤ d.totalEntries)
      DirectoryFault.outOfRange = .error (.cache f) := h
    rw [require] at h
    split_ifs at h
    cases h

/-- The loop ends with one of the sets exactly if there is more than one of them, or if no bits of the
address are left for the fields. -/
theorem setIndex_found_iff (d : Dimensions) (address : BitVec 64) :
    (∃ rounds set, setIndexLoop d.logNumSets address.toNat rounds d.firstBit 0 = some set ∧
      set % 2 ^ 32 < d.numSets) ↔ 1 < d.numSets ∨ 64 < d.firstBit := by
  have hpos : 0 < d.numSets := Nat.div_pos d.sets d.ways
  constructor
  · rintro ⟨rounds, set, h, -⟩
    by_contra hnot
    rw [logNumSets_one (by omega), setIndexLoop_zero (by omega)] at h
    cases h
  · rintro (hsets | hbit)
    · exact ⟨65, setIndexLoop_found hsets _⟩
    · refine ⟨1, 0, ?_, hpos⟩
      rw [setIndexLoop, if_neg (by omega)]

/-- In a directory of 16 entries in one set, the loop ends for no address. -/
theorem setIndex_fully_associative : ∃ d : Dimensions, d.numSets = 1 ∧
    ∀ (address : BitVec 64) (rounds : ℕ),
      setIndexLoop d.logNumSets address.toNat rounds d.firstBit 0 = none := by
  refine ⟨⟨16, 16, 64, 4, by decide, by decide⟩, rfl, fun address rounds ↦ ?_⟩
  exact setIndexLoop_zero (by decide) _ rounds 0

/-! ### The operations of a controller -/

/-- What a controller does. It changes an entry through the pointer that a lookup returned. -/
inductive DirectoryOp
  | lookup (a : LineAddress)
  | update (a : LineAddress) (e : Entry)
  | replace (replacedAddress a : LineAddress)
  | invalidate (a : LineAddress)

namespace DirectoryOp

/-- The operation changes or deletes the entry of the address. -/
def Touches (a : LineAddress) : DirectoryOp → Prop
  | .update b _ => b = a
  | .invalidate b => b = a
  | _ => False

end DirectoryOp

namespace DirectoryCache

variable (d : Dimensions) (fresh : Entry) (c : DirectoryCache LineAddress)

/-- `getDirectoryEntry`. -/
def lookup (a : LineAddress) :
    Except DirectoryFault (Option Entry × DirectoryCache LineAddress) := do
  d.locate a
  return c.getDirectoryEntry d.geometry fresh a

def apply :
    DirectoryOp → Except DirectoryFault (DirectoryCache LineAddress)
  | .lookup a => do
    let (_, c) ← c.lookup d fresh a
    return c
  | .update a e => .ok (c.putEntry d.geometry a e)
  | .replace replacedAddress a => do
    d.locate replacedAddress
    (c.replaceDirectoryEntry d.geometry fresh replacedAddress a).mapError .cache
  | .invalidate a => (c.invalidateDirectoryEntry a).mapError .cache

/-- An entry of the address stands in a way of a set, or among the replaced ones. -/
def Holds (a : LineAddress) (e : Entry) : Prop :=
  (∃ s w, c.entries.slot s w = some (a, e)) ∨ (a, e) ∈ c.replaced

/-- The discipline: entries are changed while they are held, an entry is replaced only if a lookup
returns `NULL` and only by a candidate of the set, and only a replaced entry is deleted. -/
def Disciplined :
    DirectoryOp → Prop
  | .lookup _ => True
  | .update a _ => ∃ e, c.Holds a e
  | .replace replacedAddress a => (∃ c', c.lookup d fresh a = .ok (none, c')) ∧
      ∃ e, (replacedAddress, e) ∈ c.getReplacementCandidates d.geometry a
  | .invalidate a => a ∈ c.replaced.map Prod.fst

/-- No line has two entries. -/
structure Single (c : DirectoryCache LineAddress) : Prop where
  ways : ∀ {s w s' w' a e e'}, c.entries.slot s w = some (a, e) →
    c.entries.slot s' w' = some (a, e') → s = s' ∧ w = w'
  replaced : (c.replaced.map Prod.fst).Nodup
  apart : ∀ {s w a e}, c.entries.slot s w = some (a, e) → a ∉ c.replaced.map Prod.fst

/-- The cache is well formed, and the sets of its entries can be found again. -/
structure Tracks (d : Dimensions) (c : DirectoryCache LineAddress) : Prop where
  wf : c.WF d.geometry
  found : ∀ {a e}, c.entry d.geometry a = some e → d.locate a = .ok ()

variable {d fresh c} {e : Entry} {c' : DirectoryCache LineAddress}

theorem Tracks.single (h : Tracks d c) : Single c where
  ways := by
    intro s w s' w' a e e' hslot hslot'
    have hindex := h.wf.entries.index hslot
    have hindex' := h.wf.entries.index hslot'
    obtain rfl : s = s' := hindex.symm.trans hindex'
    exact ⟨rfl, h.wf.entries.unique hslot hslot'⟩
  replaced := h.wf.nodup
  apart := by
    intro s w a e hslot hmem
    have hnone := h.wf.apart a hmem
    rw [h.wf.entries.get?_of_slot hslot] at hnone
    cases hnone

/-- The cache as a map gives the entries that it holds. -/
theorem Tracks.entry_eq_some_iff (h : Tracks d c) :
    c.entry d.geometry a = some e ↔ c.Holds a e := by
  unfold DirectoryCache.entry Holds
  constructor
  · intro he
    cases hget : c.entries.get? d.geometry a with
    | some e' =>
      rw [hget, some_or] at he
      rw [some.inj he] at hget
      obtain ⟨w, hslot⟩ := h.wf.entries.get?_eq_some_iff.mp hget
      exact .inl ⟨_, w, hslot⟩
    | none =>
      rw [hget, none_or] at he
      exact .inr (mem_of_lookup he)
  · rintro (⟨s, w, hslot⟩ | hmem)
    · rw [h.wf.entries.get?_of_slot hslot, some_or]
    · rw [h.wf.apart a (List.mem_map.mpr ⟨_, hmem, rfl⟩), none_or]
      exact lookup_of_mem h.wf.nodup hmem

/-- A lookup of an address that has an entry returns it. -/
theorem Tracks.lookup_of_holds (h : Tracks d c) (hheld : c.Holds a e) :
    c.lookup d fresh a = .ok (some e, c) := by
  have he := h.entry_eq_some_iff.mpr hheld
  rw [DirectoryCache.lookup, h.found he, h.wf.getDirectoryEntry_of_some he]
  rfl

/-- If a lookup returns `NULL`, the address has no entry and its set no free way. -/
theorem Tracks.of_lookup_eq_none (h : Tracks d c) (hnull : c.lookup d fresh a = .ok (none, c')) :
    d.locate a = .ok () ∧ c.entry d.geometry a = none ∧ c.entries.freeWay d.geometry a = none := by
  obtain ⟨u, hlocate, hnull⟩ := Outcome.bind_eq_ok hnull
  replace hnull : c.getDirectoryEntry d.geometry fresh a = (none, c') := Except.ok.inj hnull
  cases he : c.entry d.geometry a with
  | some e =>
    rw [h.wf.getDirectoryEntry_of_some he] at hnull
    exact nomatch (Prod.mk.inj hnull).1
  | none =>
    rcases h.wf.getDirectoryEntry_of_none fresh he with ⟨c'', hclaim, -⟩ | ⟨-, hfull⟩
    · rw [hclaim] at hnull
      exact nomatch (Prod.mk.inj hnull).1
    · exact ⟨hlocate, rfl, hfull⟩

/-- What an operation may do: it maps one address anew, which is found and which had no entry unless
the operation touches it. -/
structure Stepped (d : Dimensions) (c : DirectoryCache LineAddress) (op : DirectoryOp)
    (c' : DirectoryCache LineAddress) : Prop where
  tracks : Tracks d c'
  kept : ∀ {a e}, c.entry d.geometry a = some e → ¬ op.Touches a → c'.entry d.geometry a = some e

theorem Tracks.stepped_of_updated (h : Tracks d c) {x : Option Entry} {op : DirectoryOp}
    (hupdated : Updated d.geometry c a x c') (hfound : x ≠ none → d.locate a = .ok ())
    (htouches : op.Touches a ∨ c.entry d.geometry a = none) : Stepped d c op c' where
  tracks := by
    refine ⟨hupdated.wf, fun {b e} hb ↦ ?_⟩
    rw [hupdated.entry] at hb
    split_ifs at hb with hba
    · rw [hba]
      exact hfound (by rw [hb]; exact some_ne_none e)
    · exact h.found hb
  kept := by
    intro b e hb hnot
    rw [hupdated.entry, if_neg]
    · exact hb
    · rintro rfl
      rcases htouches with htouches | hnone
      · exact hnot htouches
      · rw [hnone] at hb
        cases hb

/-- An operation of a controller that keeps the discipline does not reach the errors, and is a
step. -/
theorem Tracks.apply (h : Tracks d c) {op : DirectoryOp} (hop : Disciplined d fresh c op) :
    Outcome (c.apply d fresh op) (Stepped d c op) fun fault ↦ ∀ f, fault ≠ .cache f := by
  cases op with
  | lookup a =>
    rw [DirectoryCache.apply, DirectoryCache.lookup]
    cases hlocate : d.locate a with
    | error fault => exact fun f ↦ locate_ne_cache hlocate f
    | ok u =>
      cases he : c.entry d.geometry a with
      | some e =>
        rw [h.wf.getDirectoryEntry_of_some he]
        exact ⟨h, fun hb _ ↦ hb⟩
      | none =>
        rcases h.wf.getDirectoryEntry_of_none fresh he with ⟨c', hclaim, hupdated, -⟩ | ⟨hnull, -⟩
        · rw [hclaim]
          exact h.stepped_of_updated hupdated (fun _ ↦ hlocate) (.inr he)
        · rw [hnull]
          exact ⟨h, fun hb _ ↦ hb⟩
  | update a e =>
    obtain ⟨old, hold⟩ := hop
    have he := h.entry_eq_some_iff.mpr hold
    exact h.stepped_of_updated (h.wf.putEntry he e).1 (fun _ ↦ h.found he) (.inl rfl)
  | replace v a =>
    obtain ⟨⟨c', hnull⟩, e, hv⟩ := hop
    obtain ⟨hlocate, he, hfull⟩ := h.of_lookup_eq_none hnull
    obtain ⟨hindex, hget⟩ := h.wf.mem_getReplacementCandidates hv
    obtain ⟨c'', hreplace, hupdated, -⟩ := h.wf.replaceDirectoryEntry fresh he hfull hindex hget
    have hheld : c.entry d.geometry v = some e := by
      rw [DirectoryCache.entry, hget, some_or]
    rw [DirectoryCache.apply, h.found hheld, hreplace]
    exact h.stepped_of_updated hupdated (fun _ ↦ hlocate) (.inr he)
  | invalidate a =>
    obtain ⟨c', hinvalidate, hupdated, -⟩ := h.wf.invalidateDirectoryEntry hop
    rw [DirectoryCache.apply, hinvalidate]
    exact h.stepped_of_updated hupdated (fun hne ↦ absurd rfl hne) (.inl rfl)

/-- An entry that is changed is held as it was written. -/
theorem Tracks.holds_update (h : Tracks d c) (hop : Disciplined d fresh c (.update a e)) :
    (c.putEntry d.geometry a e).Holds a e := by
  have hstepped : Stepped d c (.update a e) (c.putEntry d.geometry a e) := h.apply hop
  obtain ⟨old, hold⟩ := hop
  have hupdated := (h.wf.putEntry (h.entry_eq_some_iff.mpr hold) e).1
  refine hstepped.tracks.entry_eq_some_iff.mp ?_
  rw [hupdated.entry, if_pos rfl]

/-! ### Runs -/

/-- The operations of a controller, from some cache on. -/
def machine (d : Dimensions) (fresh : Entry) (c : DirectoryCache LineAddress) :
    Machine (DirectoryCache LineAddress) DirectoryOp DirectoryFault :=
  ⟨c, DirectoryCache.apply d fresh⟩

theorem Tracks.empty (d : Dimensions) : Tracks d DirectoryCache.empty where
  wf := WF.empty d.geometry
  found := by
    intro a e he
    simp [DirectoryCache.entry, DirectoryCache.empty] at he

theorem Tracks.reached {start : DirectoryCache LineAddress} (h : Tracks d start)
    (hc : (machine d fresh start).Reached (Disciplined d fresh) c) : Tracks d c := by
  refine hc.invariant h fun s op s' hs hop hstep ↦ ?_
  have hstepped := hs.apply hop
  rw [show s.apply d fresh op = .ok s' from hstep] at hstepped
  exact hstepped.tracks

/-- An entry stays as it is while no operation touches it. -/
theorem Tracks.kept (h : Tracks d c) (hheld : c.Holds a e)
    (hc : (machine d fresh c).Reached (fun s op ↦ Disciplined d fresh s op ∧ ¬ op.Touches a) c') :
    Tracks d c' ∧ c'.Holds a e := by
  refine @Machine.Reached.invariant _ _ _ _ _ c' (fun s ↦ Tracks d s ∧ s.Holds a e) hc ⟨h, hheld⟩ ?_
  rintro s op s' ⟨hs, hheld⟩ ⟨hop, htouches⟩ hstep
  have hstepped := hs.apply hop
  rw [show s.apply d fresh op = .ok s' from hstep] at hstepped
  have hkept := hstepped.kept (hs.entry_eq_some_iff.mpr hheld) htouches
  exact ⟨hstepped.tracks, hstepped.tracks.entry_eq_some_iff.mp hkept⟩

end DirectoryCache

open DirectoryCache in
/-- Along every run of a controller that keeps the discipline no line has two entries; a lookup of an
address with an entry returns this entry, as the last change left it; a change is kept; and the errors
of replacement and invalidation are not reached. -/
theorem directory_keeps_entries (d : Dimensions) (fresh : Entry) {c : DirectoryCache LineAddress}
    (hc : (machine d fresh DirectoryCache.empty).Reached (Disciplined d fresh) c) :
    Single c ∧ (∀ a e c', c.Holds a e →
        (machine d fresh c).Reached (fun s op ↦ Disciplined d fresh s op ∧ ¬ op.Touches a) c' →
        c'.Holds a e ∧ c'.lookup d fresh a = .ok (some e, c')) ∧
      (∀ a e, Disciplined d fresh c (.update a e) →
        ∃ c', c.apply d fresh (.update a e) = .ok c' ∧ c'.Holds a e) ∧
      ∀ op, Disciplined d fresh c op → ∀ fault, c.apply d fresh op ≠ .error (.cache fault) := by
  have h := (Tracks.empty d).reached hc
  refine ⟨h.single, fun a e c' hheld hc' ↦ ?_, fun a e hop ↦ ⟨_, rfl, h.holds_update hop⟩,
    fun op hop fault herror ↦ ?_⟩
  · obtain ⟨h', hheld'⟩ := h.kept hheld hc'
    exact ⟨hheld', h'.lookup_of_holds hheld'⟩
  · have hstepped := h.apply hop
    rw [herror] at hstepped
    exact hstepped fault rfl

/-- Two sets of one way. -/
def twoSets : Dimensions := ⟨2, 1, 64, 1, by decide, by decide⟩

open DirectoryCache in
/-- Two lines of the same set: the second one replaces the first, which keeps its entry among the
replaced ones. -/
theorem directory_keeps_entries_replaced : ∃ c : DirectoryCache LineAddress,
    (machine twoSets (.create .fullMap 4 4) DirectoryCache.empty).Reached
      (Disciplined twoSets (.create .fullMap 4 4)) c ∧
    c.replaced = [(⟨0, by decide⟩, .create .fullMap 4 4)] ∧
    c.lookup twoSets (.create .fullMap 4 4) ⟨0, by decide⟩ = .ok (some (.create .fullMap 4 4), c) := by
  let c := (DirectoryCache.empty.getDirectoryEntry twoSets.geometry (.create .fullMap 4 4)
    ⟨0, by decide⟩).2
  have hlookup : (machine twoSets (.create .fullMap 4 4) DirectoryCache.empty).Reached
      (Disciplined twoSets (.create .fullMap 4 4)) c :=
    .step (e := .lookup ⟨0, by decide⟩) .start trivial rfl
  have hmeets : Disciplined twoSets (.create .fullMap 4 4) c
      (.replace ⟨0, by decide⟩ ⟨192, by decide⟩) :=
    ⟨⟨c, rfl⟩, .create .fullMap 4 4, List.mem_cons_self⟩
  have hreplace := hlookup.step hmeets rfl
  refine ⟨_, hreplace, rfl, ?_⟩
  exact ((directory_keeps_entries twoSets _ hreplace).2.1 _ _ _ (.inr List.mem_cons_self) .start).2

end CarbonSim.Directory
