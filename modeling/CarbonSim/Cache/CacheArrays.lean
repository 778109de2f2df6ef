import CarbonSim.Cache.CacheState
import CarbonSim.Lib.Outcome
import Mathlib.Order.Interval.Finset.Nat

/-!
# The cache

`Cache` with its sets, the information kept for each way, the data array of a set and the two
replacement policies. Tags, addresses and sizes are numbers with the widths of the source: `IntPtr`
has 64 bits, `UInt32` has 32, the bits of the LRU policy have 8. The event counters and the tracking
of miss types do not influence what a cache holds and are left out.
-/

namespace CarbonSim

open Function

/-- The assertions of `Cache`, `CacheSet` and the replacement policies. -/
inductive CacheFault
  /-- `Cache::getSet`: no such set. -/
  | setRange
  /-- `Cache::accessCacheLine`, `Cache::setCacheLineInfo`: `Address(%#lx)`. -/
  | lineMissing (address : ℕ)
  /-- `CacheSet::read_line`, `CacheSet::write_line`: `offset + bytes <= _line_size`. -/
  | lineRange
  /-- `LRUReplacementPolicy::getReplacementWay`: `Error Finding LRU bits`. -/
  | lruBits
  /-- `CacheSet::insert`: `index < _associativity`. -/
  | wayRange
  /-- `Cache::insertCacheLine`: `*evicted_address != INVALID_ADDRESS`. -/
  | evictedAddress
  /-- `Cache::insertCacheLine`: the state of the evicted line. -/
  | evictedState
  deriving DecidableEq, Repr

/-- `CacheLineInfo`. -/
structure CacheLineInfo where
  tag : ℕ
  cstate : CState
  deriving DecidableEq, Repr

namespace CacheLineInfo

/-- `(IntPtr) ~0`. -/
def invalidTag : ℕ := 2 ^ 64 - 1

/-- A new `CacheLineInfo`, and one after `invalidate`. -/
def invalid : CacheLineInfo := ⟨invalidTag, .invalid⟩

def isValid (info : CacheLineInfo) : Bool := info.tag ≠ invalidTag

end CacheLineInfo

/-- `CacheReplacementPolicy`: the state of the two policies, for each set. -/
inductive ReplacementPolicy
  | roundRobin (replacementIndex : ℕ → ℕ)
  | lru (lruBits : ℕ → ℕ → ℕ)

namespace ReplacementPolicy

/-- The constructor of `RoundRobinReplacementPolicy`. -/
def createRoundRobin (associativity : ℕ) : ReplacementPolicy :=
  .roundRobin fun _ ↦ associativity - 1

/-- The constructor of `LRUReplacementPolicy`. -/
def createLru : ReplacementPolicy := .lru fun _ way ↦ way % 2 ^ 8

/-- The loop of `LRUReplacementPolicy::getReplacementWay` over the ways that are left. -/
def lruWay (associativity : ℕ) (info : ℕ → CacheLineInfo) (bits : ℕ → ℕ) : List ℕ → ℕ → ℕ
  | [], way => way
  | i :: rest, way =>
    if !(info i).isValid then i
    else lruWay associativity info bits rest (if bits i = associativity - 1 then i else way)

/-- `getReplacementWay`: the way, and the policy after it. -/
def getReplacementWay (associativity : ℕ) (info : ℕ → CacheLineInfo) (setNum : ℕ) :
    ReplacementPolicy → Except CacheFault (ℕ × ReplacementPolicy)
  | .roundRobin index =>
    let curr := index setNum
    let next := if curr = 0 then associativity - 1 else curr - 1
    .ok (curr, .roundRobin (update index setNum next))
  | .lru bits => do
    let way := lruWay associativity info (bits setNum) (List.range associativity) associativity
    require (way < associativity) .lruBits
    return (way, .lru bits)

/-- The bits of a set after an access. -/
def touch (bits : ℕ → ℕ) (accessed : ℕ) : ℕ → ℕ := fun i ↦
  if i = accessed then 0 else if bits i < bits accessed then (bits i + 1) % 2 ^ 8 else bits i

/-- `update`. -/
def update (setNum accessed : ℕ) : ReplacementPolicy → ReplacementPolicy
  | .roundRobin index => .roundRobin index
  | .lru bits => .lru (Function.update bits setNum (touch (bits setNum) accessed))

end ReplacementPolicy

/-- `CacheSet`: what is known of each way, and the lines of all ways in one array. -/
structure CacheSet where
  info : ℕ → CacheLineInfo
  lines : ℕ → UInt8

namespace CacheSet

/-- A new set. -/
def create : CacheSet := ⟨fun _ ↦ .invalid, fun _ ↦ 0⟩

/-- `memcpy` out of the data array. -/
def copyOut (set : CacheSet) (start length : ℕ) : List UInt8 :=
  (List.range length).map fun i ↦ set.lines (start + i)

/-- `memcpy` into the data array. -/
def copyIn (set : CacheSet) (start : ℕ) (bytes : List UInt8) : CacheSet :=
  { set with lines := fun i ↦ if start ≤ i then bytes.getD (i - start) (set.lines i)
      else set.lines i }

def setInfo (set : CacheSet) (way : ℕ) (info : CacheLineInfo) : CacheSet :=
  { set with info := update set.info way info }

/-- `CacheSet::find`: from the last way to the first. -/
def find (set : CacheSet) (associativity tag : ℕ) : Option ℕ :=
  (List.range associativity).reverse.find? fun index ↦ (set.info index).tag = tag

end CacheSet

/-- The hash functions of the caches: `CacheHashFn`, and `L2CacheHashFn` of the shared L2 cache with
the logarithms of the number of application tiles and of the size of a stack. -/
inductive HashFn
  | cache
  | sharedL2 (logNumApplicationTiles logStackSize : ℕ)
  deriving DecidableEq, Repr

/-- The parameters of a cache: `cacheSize` in kilobytes, the associativity, the line size and the
hash function. -/
structure CacheParams where
  cacheSize : ℕ
  associativity : ℕ
  lineSize : ℕ
  hashFn : HashFn

namespace CacheParams

variable (p : CacheParams)

def numSets : ℕ := p.cacheSize * 1024 % 2 ^ 32 / (p.associativity * p.lineSize % 2 ^ 32)

/-- `floorLog2(_line_size)`. -/
def logLineSize : ℕ := Nat.log2 p.lineSize

def getTag (address : ℕ) : ℕ := address >>> p.logLineSize

def getLineOffset (address : ℕ) : ℕ := address &&& (p.lineSize - 1)

def getAddressFromTag (tag : ℕ) : ℕ := (tag <<< p.logLineSize) % 2 ^ 64

/-- `CacheHashFn::compute` and `L2CacheHashFn::compute`. -/
def compute (address : ℕ) : ℕ :=
  match p.hashFn with
  | .cache => (address >>> p.logLineSize) &&& ((p.numSets + 2 ^ 32 - 1) % 2 ^ 32)
  | .sharedL2 logTiles logStack =>
    let logNumSets := Nat.log2 p.numSets
    let numTileIdBits := if logTiles ≤ logNumSets then logTiles else logNumSets
    let tileIdBits := (address >>> logStack) &&& (2 ^ numTileIdBits - 1)
    let numSubBlockBits := logNumSets - numTileIdBits
    let subBlockId := (address >>> (p.logLineSize + logTiles)) &&& (2 ^ numSubBlockBits - 1)
    let superBlockId :=
      (address >>> (p.logLineSize + logTiles + numSubBlockBits)) &&& (2 ^ numTileIdBits - 1)
    ((tileIdBits ^^^ superBlockId) <<< numSubBlockBits) + subBlockId

/-- The geometries: a power of two for the line size, and at least one set and one way, with a size
that a `UInt32` can hold. A stack of the shared L2 cache has at least the size of a line. -/
structure Valid : Prop where
  lineSize : ∃ k < 32, p.lineSize = 2 ^ k
  associativity : 0 < p.associativity
  fits : p.associativity * p.lineSize < 2 ^ 32
  numSets : 0 < p.numSets
  stack : ∀ logTiles logStack, p.hashFn = .sharedL2 logTiles logStack → p.logLineSize ≤ logStack

end CacheParams

/-- `Cache`. -/
structure Cache where
  enabled : Bool
  policy : ReplacementPolicy
  sets : ℕ → CacheSet

/-- What `insertCacheLine` leaves in its output arguments; `writeback` is the contents of
`writeback_buf` if there was one and a line was written to it. -/
structure Insertion where
  eviction : Bool
  evictedAddress : ℕ
  evictedInfo : CacheLineInfo
  writeback : Option (List UInt8)
  deriving DecidableEq, Repr

namespace Cache

variable (p : CacheParams)

/-- A new cache. -/
def create (policy : ReplacementPolicy) : Cache := ⟨false, policy, fun _ ↦ .create⟩

/-- `Cache::getSet`: the number of the set. -/
def getSet (address : ℕ) : Except CacheFault ℕ := do
  require (p.compute address < p.numSets) .setRange
  return p.compute address

/-- The cache after a change of one set and of the policy. -/
def put (c : Cache) (setNum : ℕ) (set : CacheSet) (policy : ReplacementPolicy) : Cache :=
  { c with sets := update c.sets setNum set, policy := policy }

/-- `Cache::accessCacheLine` with `LOAD`. -/
def load (c : Cache) (address numBytes : ℕ) : Except CacheFault (List UInt8 × Cache) := do
  let s ← getSet p address
  let set := c.sets s
  let way ← fetch (set.find p.associativity (p.getTag address)) (.lineMissing address)
  require (p.getLineOffset address + numBytes ≤ p.lineSize) .lineRange
  let bytes := set.copyOut (way * p.lineSize + p.getLineOffset address) numBytes
  return (bytes, c.put s set (c.policy.update s way))

/-- `Cache::accessCacheLine` with `STORE`. -/
def store (c : Cache) (address : ℕ) (bytes : List UInt8) : Except CacheFault Cache := do
  let s ← getSet p address
  let set := c.sets s
  let way ← fetch (set.find p.associativity (p.getTag address)) (.lineMissing address)
  require (p.getLineOffset address + bytes.length ≤ p.lineSize) .lineRange
  let set := set.copyIn (way * p.lineSize + p.getLineOffset address) bytes
  return c.put s set (c.policy.update s way)

/-- `CacheSet::insert`, with the way that the policy has chosen. -/
def insertAt (set : CacheSet) (index : ℕ) (inserted : CacheLineInfo) (fillBuf : Option (List UInt8))
    (writeback : Bool) : Bool × CacheLineInfo × Option (List UInt8) × CacheSet :=
  let eviction := (set.info index).isValid
  let evictedInfo := if eviction then set.info index else .invalid
  let written := if eviction && writeback then
    some (set.copyOut (index * p.lineSize) p.lineSize) else none
  let set := set.setInfo index inserted
  let set := match fillBuf with
    | some bytes => set.copyIn (index * p.lineSize) bytes
    | none => set
  (eviction, evictedInfo, written, set)

/-- `Cache::insertCacheLine`. The callers pass a new `CacheLineInfo` for the evicted line; `fillBuf`
is `none` and `writeback` is false where they pass `NULL`. -/
def insertCacheLine (c : Cache) (address : ℕ) (inserted : CacheLineInfo)
    (fillBuf : Option (List UInt8)) (writeback : Bool) :
    Except CacheFault (Insertion × Cache) := do
  let s ← getSet p address
  let (index, policy) ← c.policy.getReplacementWay p.associativity (c.sets s).info s
  require (index < p.associativity) .wayRange
  let (eviction, evictedInfo, written, set) :=
    insertAt p (c.sets s) index inserted fillBuf writeback
  let evictedAddress := p.getAddressFromTag evictedInfo.tag
  require (eviction = true → evictedAddress ≠ CacheLineInfo.invalidTag) .evictedAddress
  require (c.enabled = true → (eviction = true ↔ evictedInfo.cstate ≠ .invalid)) .evictedState
  return (⟨eviction, evictedAddress, evictedInfo, written⟩, c.put s set (policy.update s index))

/-- `Cache::getCacheLineInfo`. -/
def getCacheLineInfo (c : Cache) (address : ℕ) : Except CacheFault (Option CacheLineInfo) := do
  let s ← getSet p address
  return ((c.sets s).find p.associativity (p.getTag address)).map (c.sets s).info

/-- `Cache::setCacheLineInfo`. -/
def setCacheLineInfo (c : Cache) (address : ℕ) (updated : CacheLineInfo) :
    Except CacheFault Cache := do
  let s ← getSet p address
  let set := c.sets s
  let way ← fetch (set.find p.associativity (p.getTag address)) (.lineMissing address)
  return c.put s (set.setInfo way updated) c.policy

end Cache

namespace CacheParams

variable {p : CacheParams}

theorem Valid.lineSize_eq (hp : p.Valid) : p.lineSize = 2 ^ p.logLineSize := by
  obtain ⟨k, -, hk⟩ := hp.lineSize
  rw [logLineSize, hk, Nat.log2_two_pow]

theorem numSets_lt (p : CacheParams) : p.numSets < 2 ^ 32 :=
  (Nat.div_le_self _ _).trans_lt (Nat.mod_lt _ (Nat.two_pow_pos 32))

@[simp] theorem getTag_shiftLeft (p : CacheParams) (tag : ℕ) :
    p.getTag (tag <<< p.logLineSize) = tag :=
  Nat.shiftLeft_shiftRight _ _

/-- The set of an address depends on its tag only. -/
theorem Valid.compute_congr (hp : p.Valid) {a b : ℕ} (h : p.getTag a = p.getTag b) :
    p.compute a = p.compute b := by
  have hshift : ∀ n, p.logLineSize ≤ n → a >>> n = b >>> n := by
    intro n hn
    obtain ⟨k, rfl⟩ := Nat.exists_eq_add_of_le hn
    rw [Nat.shiftRight_add, Nat.shiftRight_add]
    exact congrArg (· >>> k) h
  unfold compute
  cases hhash : p.hashFn with
  | cache => simp only [hshift _ le_rfl]
  | sharedL2 logTiles logStack =>
    simp only [hshift _ (hp.stack _ _ hhash), hshift _ (Nat.le_add_right p.logLineSize logTiles),
      hshift _ (Nat.le_add_right_of_le (Nat.le_add_right p.logLineSize logTiles))]

/-- Every address has a set. -/
theorem Valid.compute_lt (hp : p.Valid) (address : ℕ) : p.compute address < p.numSets := by
  have hsets := p.numSets_lt
  have hpos := hp.numSets
  unfold compute
  cases p.hashFn with
  | cache =>
    have hmask : (p.numSets + 2 ^ 32 - 1) % 2 ^ 32 = p.numSets - 1 := by omega
    have hle := Nat.and_le_right (n := address >>> p.logLineSize) (m := p.numSets - 1)
    simp only [hmask]
    omega
  | sharedL2 logTiles logStack =>
    simp only
    generalize hbits : (if logTiles ≤ Nat.log2 p.numSets then logTiles else Nat.log2 p.numSets) = t
    have ht : t ≤ Nat.log2 p.numSets := by
      rw [← hbits]
      split <;> omega
    simp only [Nat.and_two_pow_sub_one_eq_mod, Nat.shiftLeft_eq]
    have hxor : (address >>> logStack % 2 ^ t) ^^^
        (address >>> (p.logLineSize + logTiles + (Nat.log2 p.numSets - t)) % 2 ^ t) < 2 ^ t :=
      Nat.xor_lt_two_pow (Nat.mod_lt _ (Nat.two_pow_pos t)) (Nat.mod_lt _ (Nat.two_pow_pos t))
    have hsub : address >>> (p.logLineSize + logTiles) % 2 ^ (Nat.log2 p.numSets - t) <
        2 ^ (Nat.log2 p.numSets - t) := Nat.mod_lt _ (Nat.two_pow_pos _)
    calc _ < (2 ^ t - 1) * 2 ^ (Nat.log2 p.numSets - t) + 2 ^ (Nat.log2 p.numSets - t) :=
          Nat.add_lt_add_of_le_of_lt (Nat.mul_le_mul_right _ (by omega)) hsub
      _ = 2 ^ t * 2 ^ (Nat.log2 p.numSets - t) := by
          rw [← Nat.succ_mul, Nat.succ_eq_add_one, Nat.sub_add_cancel (Nat.two_pow_pos t)]
      _ = 2 ^ Nat.log2 p.numSets := by rw [← Nat.pow_add, Nat.add_sub_cancel' ht]
      _ ≤ p.numSets := Nat.log2_self_le hpos.ne'

end CacheParams

namespace ReplacementPolicy

/-- A state in which the policy always finds a way: the index of each set is a way, or the bits of
each set are a permutation of the ways, of which eight bits can tell 256 apart. -/
def Sound (associativity : ℕ) : ReplacementPolicy → Prop
  | .roundRobin index => ∀ s, index s < associativity
  | .lru bits => associativity ≤ 2 ^ 8 ∧ ∀ s, (∀ i < associativity, bits s i < associativity) ∧
      ∀ i < associativity, ∀ j < associativity, bits s i = bits s j → i = j

variable {n : ℕ}

theorem sound_createRoundRobin (hn : 0 < n) : (createRoundRobin n).Sound n :=
  fun _ ↦ Nat.sub_lt hn Nat.one_pos

theorem sound_createLru (hn : n ≤ 2 ^ 8) : createLru.Sound n := by
  have hmod : ∀ i < n, i % 2 ^ 8 = i := fun i hi ↦ Nat.mod_eq_of_lt (by omega)
  refine ⟨hn, fun s ↦ ⟨fun i hi ↦ (Nat.mod_le _ _).trans_lt hi, fun i hi j hj h ↦ ?_⟩⟩
  calc i = i % 2 ^ 8 := (hmod i hi).symm
    _ = j % 2 ^ 8 := h
    _ = j := hmod j hj

/-- The values of a set are a permutation of the numbers below the associativity. -/
theorem Sound.bijOn {bits : ℕ → ℕ → ℕ} (h : (lru bits).Sound n) (s : ℕ) :
    Set.BijOn (bits s) (Set.Iio n) (Set.Iio n) := by
  have hmaps : Set.MapsTo (bits s) (Set.Iio n) (Set.Iio n) := (h.2 s).1
  have hinj : Set.InjOn (bits s) (Set.Iio n) := fun i hi j hj ↦ (h.2 s).2 i hi j hj
  have hsurj := Finset.surjOn_of_injOn_of_card_le (s := Finset.range n) (t := Finset.range n) (bits s)
  rw [Finset.coe_range] at hsurj
  exact ⟨hmaps, hinj, hsurj hmaps hinj le_rfl⟩

/-- The first invalid way is chosen, and without one the last way with the largest value. -/
theorem lruWay_cases (info : ℕ → CacheLineInfo) (bits : ℕ → ℕ) (ways : List ℕ) (way : ℕ) :
    (∃ i ∈ ways, (info i).isValid = false ∧ lruWay n info bits ways way = i) ∨
      (∀ i ∈ ways, (info i).isValid = true) ∧
        ((∃ i ∈ ways, bits i = n - 1 ∧ lruWay n info bits ways way = i) ∨
          (∀ i ∈ ways, bits i ≠ n - 1) ∧ lruWay n info bits ways way = way) := by
  induction ways generalizing way with
  | nil => simp [lruWay]
  | cons i rest ih =>
    rw [lruWay]
    cases hvalid : (info i).isValid with
    | false => exact .inl ⟨i, List.mem_cons_self, hvalid, if_pos rfl⟩
    | true =>
      by_cases hbits : bits i = n - 1 <;> grind

/-- An invalid way is found if there is one, and otherwise the way with the largest value. -/
theorem Sound.lruWay_spec {bits : ℕ → ℕ → ℕ} (h : (lru bits).Sound n) (hn : 0 < n)
    (info : ℕ → CacheLineInfo) (s : ℕ) :
    let way := lruWay n info (bits s) (List.range n) n
    way < n ∧ ((info way).isValid = false ∨
      (∀ i < n, (info i).isValid = true) ∧ bits s way = n - 1) := by
  intro way
  obtain ⟨i, hi, hold⟩ := (h.bijOn s).surjOn (Nat.sub_lt hn Nat.one_pos : n - 1 ∈ Set.Iio n)
  rcases lruWay_cases (n := n) info (bits s) (List.range n) n with
    ⟨j, hj, hinvalid, heq⟩ | ⟨hvalid, ⟨j, hj, hbits, heq⟩ | ⟨hnone, -⟩⟩
  · obtain rfl : way = j := heq
    exact ⟨List.mem_range.mp hj, .inl hinvalid⟩
  · obtain rfl : way = j := heq
    exact ⟨List.mem_range.mp hj, .inr ⟨fun k hk ↦ hvalid k (List.mem_range.mpr hk), hbits⟩⟩
  · exact absurd hold (hnone i (List.mem_range.mpr hi))

/-- A sound policy finds a way and stays sound; another one may fail. -/
theorem getReplacementWay_outcome (policy : ReplacementPolicy) (info : ℕ → CacheLineInfo)
    (s : ℕ) (hn : 0 < n) :
    Outcome (policy.getReplacementWay n info s)
      (fun r ↦ policy.Sound n → r.1 < n ∧ r.2.Sound n) (fun _ ↦ ¬ policy.Sound n) := by
  cases policy with
  | roundRobin index =>
    intro hsound
    refine ⟨hsound s, fun s' ↦ ?_⟩
    by_cases hs : s' = s
    · subst hs
      have hindex := hsound s'
      rw [update_self]
      split <;> omega
    · rw [update_of_ne hs]
      exact hsound s'
  | lru bits =>
    refine .require_bind (fun hway hsound ↦ ⟨hway, hsound⟩) fun hway hsound ↦ hway ?_
    exact (hsound.lruWay_spec hn info s).1

/-- Touching a way permutes the bits of its set. -/
theorem Sound.update {policy : ReplacementPolicy} {s way : ℕ} (h : policy.Sound n)
    (hway : way < n) : (policy.update s way).Sound n := by
  cases policy with
  | roundRobin index => exact h
  | lru bits =>
    have hn := h.1
    refine ⟨hn, fun s' ↦ ?_⟩
    by_cases hs : s' = s
    · subst hs
      obtain ⟨hlt, hinj⟩ := h.2 s'
      -- a value that grows stays at most the one of the way that is touched
      have hmod : ∀ i < n, bits s' i < bits s' way → (bits s' i + 1) % 2 ^ 8 = bits s' i + 1 := by
        intro i hi hle
        have := hlt way hway
        exact Nat.mod_eq_of_lt (by omega)
      rw [Function.update_self]
      constructor
      · intro i hi
        have h₁ := hlt i hi
        have h₂ := hlt way hway
        unfold touch
        split_ifs <;> omega
      · intro i hi j hj heq
        have h₁ := hmod i hi
        have h₂ := hmod j hj
        have h₃ := hinj i hi way hway
        have h₄ := hinj j hj way hway
        have h₅ := hinj i hi j hj
        unfold touch at heq
        split_ifs at heq <;> omega
    · rw [update_of_ne hs]
      exact h.2 s'

end ReplacementPolicy

end CarbonSim
