import CarbonSim.Cache.CacheArrays
import CarbonSim.Lib.SetAssoc
import Mathlib.Data.List.Find

/-!
# The cache as a store of lines

`Cache.contents` is what a cache holds, as a map from tags to lines. The sets, ways and data arrays
of the cache refine the set-associative store `Cache.held`, whose lookups are this map, and every
operation of the cache is determined by what it does to the map: `Cache.Behaves`.
-/

namespace CarbonSim

open Option SetAssoc

open Function (update update_self update_of_ne update_apply update_eq_self)
open CacheLineInfo (invalidTag isValid)

/-- A line that a cache holds. -/
structure Line where
  cstate : CState
  block : Block

namespace Cache

variable (p : CacheParams) {way offset : ℕ}

/-- The set of a tag, and the ways in the order of `CacheSet::find`. -/
def geometry : Geometry ℕ :=
  ⟨fun tag ↦ p.compute (tag <<< p.logLineSize), (List.range p.associativity).reverse⟩

/-- The bytes of a way. -/
def block (set : CacheSet) (way : ℕ) : Block := fun i ↦
  if i < p.lineSize then set.lines (way * p.lineSize + i) else 0

/-- What a way of a set holds. -/
def slot (set : CacheSet) (way : ℕ) : Option (ℕ × Line) :=
  if way < p.associativity ∧ (set.info way).isValid then
    some ((set.info way).tag, ⟨(set.info way).cstate, block p set way⟩)
  else none

/-- The set-associative store that a cache implements. -/
def held (c : Cache) : SetAssoc ℕ Line := ⟨fun s ↦ slot p (c.sets s)⟩

/-- The line held under a tag. -/
def contents (c : Cache) (tag : ℕ) : Option Line := (held p c).get? (geometry p) tag

variable {p} {fillBuf : Option (List UInt8)} {tag : ℕ} {c : Cache} {info : CacheLineInfo}
  {bytes : List UInt8} {address : ℕ} {writeback : Bool} {line : Line}

theorem mem_scan : way ∈ (geometry p).scan ↔ way < p.associativity := by
  simp [geometry]

/-! ### The data array -/

/-- The lines of different ways do not overlap. -/
theorem line_ne {w w' i j : ℕ} (hw : w' ≠ w) (hi : i < p.lineSize) (hj : j < p.lineSize) :
    w' * p.lineSize + i ≠ w * p.lineSize + j := by
  intro heq
  have hdiv := congrArg (· / p.lineSize) heq
  have hpos : 0 < p.lineSize := by omega
  simp only [Nat.mul_add_div hpos, Nat.mul_comm _ p.lineSize, Nat.div_eq_of_lt hi,
    Nat.div_eq_of_lt hj] at hdiv
  exact hw (by simpa using hdiv)

theorem block_copyIn_self (set : CacheSet)
    (h : offset + bytes.length ≤ p.lineSize) :
    block p (set.copyIn (way * p.lineSize + offset) bytes) way =
      (block p set way).write offset bytes := by
  funext i
  simp only [block, CacheSet.copyIn, Block.write]
  by_cases hi : i < p.lineSize
  · have hsub : way * p.lineSize + i - (way * p.lineSize + offset) = i - offset := by omega
    simp only [if_pos hi, Nat.add_le_add_iff_left, hsub]
  · have hlen : bytes.length ≤ i - offset := by omega
    simp [hi, List.getElem?_eq_none hlen]

theorem block_copyIn_of_ne (set : CacheSet) {way' : ℕ} (hway : way' ≠ way)
    (h : offset + bytes.length ≤ p.lineSize) :
    block p (set.copyIn (way * p.lineSize + offset) bytes) way' = block p set way' := by
  funext i
  simp only [block, CacheSet.copyIn]
  by_cases hi : i < p.lineSize
  · split_ifs with hle
    · have hlen : bytes.length ≤ way' * p.lineSize + i - (way * p.lineSize + offset) := by
        by_contra hlt
        have hj : way' * p.lineSize + i - way * p.lineSize < p.lineSize := by omega
        exact line_ne hway hi hj (by omega)
      simp [List.getElem?_eq_none hlen]
    · rfl
  · rw [if_neg hi, if_neg hi]

theorem copyOut_eq (set : CacheSet) {n : ℕ} (h : offset + n ≤ p.lineSize) :
    set.copyOut (way * p.lineSize + offset) n = (block p set way).read offset n := by
  unfold CacheSet.copyOut Block.read
  apply List.map_congr_left
  intro i hi
  have hlt : offset + i < p.lineSize := by
    have := List.mem_range.mp hi
    omega
  rw [block, if_pos hlt, Nat.add_assoc]

/-! ### Sets and ways -/

theorem getSet_eq (hp : p.Valid) (address : ℕ) :
    getSet p address = .ok ((geometry p).index (p.getTag address)) := by
  have hindex : (geometry p).index (p.getTag address) = p.compute address :=
    hp.compute_congr (p.getTag_shiftLeft _)
  rw [getSet, require, if_pos (hp.compute_lt address), hindex]
  rfl

/-- A valid tag is looked for as in the store. -/
theorem find_eq (c : Cache) (htag : tag ≠ invalidTag) :
    (c.sets ((geometry p).index tag)).find p.associativity tag =
      (held p c).findWay (geometry p) tag := by
  unfold CacheSet.find findWay
  apply List.find?_congr
  intro way hway
  have hlt := mem_scan.mp hway
  simp only [held, slot, hlt, true_and]
  by_cases heq : ((c.sets ((geometry p).index tag)).info way).tag = tag
  · simp [isValid, heq, htag]
  · by_cases hvalid : ((c.sets ((geometry p).index tag)).info way).isValid
    all_goals simp [hvalid, heq]

/-- A change of one way of a set. -/
theorem held_put (c : Cache) (way : ℕ) {s : ℕ} {set : CacheSet} {policy : ReplacementPolicy}
    (hinfo : ∀ way' ≠ way, set.info way' = (c.sets s).info way')
    (hblock : ∀ way' ≠ way, block p set way' = block p (c.sets s) way') :
    held p (c.put s set policy) = (held p c).setSlot s way (slot p set way) := by
  unfold held setSlot put
  congr 1
  funext s'
  by_cases hs : s' = s
  · subst hs
    simp only [update_self]
    funext way'
    by_cases hway : way' = way
    · subst hway
      rw [update_self]
    · rw [update_of_ne hway]
      simp only [slot, hinfo way' hway, hblock way' hway]
  · simp only [update_of_ne hs]

theorem contents_of_findWay {tag : ℕ} (h : (held p c).findWay (geometry p) tag = some way) :
    way < p.associativity ∧ ((c.sets ((geometry p).index tag)).info way).tag = tag ∧
      contents p c tag = some ⟨((c.sets ((geometry p).index tag)).info way).cstate,
        block p (c.sets ((geometry p).index tag)) way⟩ := by
  obtain ⟨hscan, line, hslot⟩ := exists_of_findWay h
  have hcontents : contents p c tag = some line := by
    simp only [contents, get?, h, bind_some, hslot, map_some]
  simp only [held, slot] at hslot
  split_ifs at hslot with hway
  have hpair := some.inj hslot
  refine ⟨hway.1, congrArg Prod.fst hpair, ?_⟩
  have hline : _ = line := congrArg Prod.snd hpair
  rw [hcontents, ← hline]

theorem contents_eq_none (h : (held p c).findWay (geometry p) tag = none) :
    contents p c tag = none := by
  simp only [contents, get?, h, bind_none]

/-! ### The operations -/

/-- A load reads the line, and changes nothing that is held. -/
theorem load_outcome (hp : p.Valid) (c : Cache) {address n : ℕ}
    (htag : p.getTag address ≠ invalidTag) :
    Outcome (c.load p address n)
      (fun r ↦ held p r.2 = held p c ∧ ∃ line, contents p c (p.getTag address) = some line ∧
        r.1 = line.block.read (p.getLineOffset address) n ∧
        (c.policy.Sound p.associativity → r.2.policy.Sound p.associativity))
      (fun _ ↦ contents p c (p.getTag address) = none ∨
        p.lineSize < p.getLineOffset address + n) := by
  rw [load, getSet_eq hp]
  show Outcome (fetch _ _ >>= _) _ _
  rw [find_eq c htag]
  refine .fetch_bind (fun way hway ↦ ?_) fun hnone ↦ .inl (contents_eq_none hnone)
  refine .require_bind (fun hrange ↦ ⟨?_, ?_⟩) fun hrange ↦ .inr (Nat.lt_of_not_le hrange)
  · unfold held put
    simp only [update_eq_self]
  · obtain ⟨hlt, -, hcontents⟩ := contents_of_findWay hway
    exact ⟨_, hcontents, copyOut_eq _ hrange, fun h ↦ h.update hlt⟩

/-- A store assigns the line with the bytes written. -/
theorem store_outcome (hp : p.Valid) (c : Cache) (htag : p.getTag address ≠ invalidTag) :
    Outcome (c.store p address bytes)
      (fun c' ↦ ∃ line, contents p c (p.getTag address) = some line ∧
        (held p c).assign (geometry p) (p.getTag address)
          (some ⟨line.cstate, line.block.write (p.getLineOffset address) bytes⟩) =
          some (held p c') ∧
        (c.policy.Sound p.associativity → c'.policy.Sound p.associativity))
      (fun _ ↦ contents p c (p.getTag address) = none ∨
        p.lineSize < p.getLineOffset address + bytes.length) := by
  rw [store, getSet_eq hp]
  show Outcome (fetch _ _ >>= _) _ _
  rw [find_eq c htag]
  refine .fetch_bind (fun way hway ↦ ?_) fun hnone ↦ .inl (contents_eq_none hnone)
  refine .require_bind (fun hrange ↦ ?_) fun hrange ↦ .inr (Nat.lt_of_not_le hrange)
  obtain ⟨hlt, htag', hcontents⟩ := contents_of_findWay hway
  refine ⟨_, hcontents, ?_, fun h ↦ h.update hlt⟩
  rw [assign, hway, map_some, held_put c way]
  rotate_left
  · exact fun _ _ ↦ rfl
  · exact fun way' hne ↦ block_copyIn_of_ne _ hne hrange
  congr 2
  have hvalid : ((c.sets ((geometry p).index (p.getTag address))).info way).isValid := by
    simp [isValid, htag', htag]
  simp only [slot, CacheSet.copyIn, hlt, hvalid, and_self, if_true, htag', map_some]
  rw [← block_copyIn_self _ hrange]
  rfl

/-- `setCacheLineInfo` assigns the new state, or drops the line. -/
theorem setCacheLineInfo_outcome (hp : p.Valid) (c : Cache) (htag : p.getTag address ≠ invalidTag)
    (hinfo : info.isValid → info.tag = p.getTag address) :
    Outcome (c.setCacheLineInfo p address info)
      (fun c' ↦ ∃ line, contents p c (p.getTag address) = some line ∧
        (held p c).assign (geometry p) (p.getTag address)
          (if info.isValid then some ⟨info.cstate, line.block⟩ else none) = some (held p c') ∧
        c'.policy = c.policy)
      (fun _ ↦ contents p c (p.getTag address) = none) := by
  rw [setCacheLineInfo, getSet_eq hp]
  show Outcome (fetch _ _ >>= _) _ _
  rw [find_eq c htag]
  refine .fetch_bind (fun way hway ↦ ?_) fun hnone ↦ contents_eq_none hnone
  obtain ⟨hlt, htag', hcontents⟩ := contents_of_findWay hway
  refine ⟨_, hcontents, ?_, rfl⟩
  rw [assign, hway, map_some, held_put c way]
  rotate_left
  · exact fun way' hne ↦ update_of_ne hne _ _
  · exact fun _ _ ↦ rfl
  congr 2
  simp only [slot, CacheSet.setInfo, update_self, hlt, true_and]
  by_cases hvalid : info.isValid
  · simp only [hvalid, if_true, map_some, hinfo hvalid]
    rfl
  · simp [hvalid]

/-- The contents of a line after an insertion; without a buffer the bytes of the way stay. -/
def filled (fillBuf : Option (List UInt8)) (old : Block) : Block :=
  match fillBuf with
  | some bytes => Block.zero.write 0 bytes
  | none => old

/-- What an insertion tells its caller about the line it has evicted. -/
def Reports (p : CacheParams) (evicted : Option (ℕ × Line)) (writeback : Bool) (r : Insertion) :
    Prop :=
  match evicted with
  | none => r.eviction = false ∧ r.writeback = none
  | some (tag, line) => r.eviction = true ∧ r.evictedAddress = p.getAddressFromTag tag ∧
      r.evictedInfo = ⟨tag, line.cstate⟩ ∧
      r.writeback = if writeback then some (line.block.read 0 p.lineSize) else none

/-- The set after `CacheSet::insert`: another line in the way chosen. -/
def inserted (p : CacheParams) (set : CacheSet) (index : ℕ) (info : CacheLineInfo)
    (fillBuf : Option (List UInt8)) : CacheSet :=
  (insertAt p set index info fillBuf false).2.2.2

theorem inserted_info (set : CacheSet) (index : ℕ) (info : CacheLineInfo)
    (fillBuf : Option (List UInt8)) :
    (inserted p set index info fillBuf).info = update set.info index info := by
  cases fillBuf <;> rfl

theorem block_inserted_of_ne (set : CacheSet) {index : ℕ} (info : CacheLineInfo)
    (hne : way ≠ index) (hfill : ∀ bytes, fillBuf = some bytes → bytes.length = p.lineSize) :
    block p (inserted p set index info fillBuf) way = block p set way := by
  cases fillBuf with
  | none => rfl
  | some bytes =>
    have hrange : 0 + bytes.length ≤ p.lineSize := by rw [Nat.zero_add, hfill bytes rfl]
    exact block_copyIn_of_ne (set.setInfo index info) hne hrange

theorem block_inserted_self (set : CacheSet) (index : ℕ) (info : CacheLineInfo)
    (hfill : ∀ bytes, fillBuf = some bytes → bytes.length = p.lineSize) :
    block p (inserted p set index info fillBuf) index = filled fillBuf (block p set index) := by
  cases fillBuf with
  | none => rfl
  | some bytes =>
    have hlen := hfill bytes rfl
    have hrange : 0 + bytes.length ≤ p.lineSize := by rw [Nat.zero_add, hlen]
    have hcopy : block p ((set.setInfo index info).copyIn (index * p.lineSize + 0) bytes) index =
        (block p (set.setInfo index info) index).write 0 bytes := block_copyIn_self _ hrange
    refine .trans hcopy (funext fun i ↦ ?_)
    show Block.write _ 0 bytes i = Block.write Block.zero 0 bytes i
    rw [Block.write_apply, Block.write_apply]
    by_cases hi : i < p.lineSize
    · have hbound : 0 ≤ i ∧ i - 0 < bytes.length := ⟨Nat.zero_le i, by omega⟩
      rw [dif_pos hbound, dif_pos hbound]
    · have hbound : ¬ (0 ≤ i ∧ i - 0 < bytes.length) := fun h ↦ hi (by omega)
      rw [dif_neg hbound, dif_neg hbound, block, if_neg hi]
      rfl

/-- The reasons for which an insertion may fail. -/
def Hindered (p : CacheParams) (c : Cache) : Prop :=
  ¬ c.policy.Sound p.associativity ∨ ∃ s way tag line, (held p c).slot s way = some (tag, line) ∧
      (p.getAddressFromTag tag = invalidTag ∨ (c.enabled = true ∧ line.cstate = .invalid))

/-- An insertion puts the line into some way of its set, and reports what stood there. -/
theorem insertCacheLine_outcome (hp : p.Valid) (c : Cache) (htag : info.tag = p.getTag address)
    (hvalid : info.isValid) (hfill : ∀ bytes, fillBuf = some bytes → bytes.length = p.lineSize) :
    Outcome (c.insertCacheLine p address info fillBuf writeback)
      (fun r ↦ ∃ way ∈ (geometry p).scan,
        let line : Line :=
          ⟨info.cstate, filled fillBuf (block p (c.sets ((geometry p).index info.tag)) way)⟩
        let result := (held p c).insertAt (geometry p) way info.tag line
        held p r.2 = result.2 ∧ Reports p result.1 writeback r.1 ∧
          (c.policy.Sound p.associativity → r.2.policy.Sound p.associativity))
      (fun _ ↦ Hindered p c) := by
  rw [insertCacheLine, getSet_eq hp, ← htag]
  set s := (geometry p).index info.tag with hs
  show Outcome (ReplacementPolicy.getReplacementWay _ _ _ _ >>= _) _ _
  refine .bind_mono (ReplacementPolicy.getReplacementWay_outcome c.policy (c.sets s).info s
    hp.associativity) (fun _ h ↦ .inl h) ?_
  rintro ⟨index, policy⟩ hsound
  refine .require_bind (fun hindex ↦ ?_) fun hindex ↦ .inl fun h ↦ hindex (hsound h).1
  have hslot : (held p c).slot s index = slot p (c.sets s) index := rfl
  refine .require_bind (fun _ ↦ .require_bind (fun _ ↦ ?_) fun hstate ↦ ?_) fun haddress ↦ ?_
  · refine ⟨index, mem_scan.mpr hindex, ?_, ?_, fun h ↦ (hsound h).2.update hindex⟩
    · show held p (c.put s (inserted p (c.sets s) index info fillBuf) _) =
        (held p c).setSlot s index (some (info.tag, _))
      rw [held_put c index]
      · congr 1
        rw [slot, inserted_info, update_self, if_pos ⟨hindex, hvalid⟩,
          block_inserted_self _ _ _ hfill]
      · intro way hne
        rw [inserted_info, update_of_ne hne]
      · exact fun way hne ↦ block_inserted_of_ne _ _ hne hfill
    · show Reports p (slot p (c.sets s) index) writeback _
      by_cases hold : ((c.sets s).info index).isValid
      · rw [slot, if_pos ⟨hindex, hold⟩]
        have hread : (c.sets s).copyOut (index * p.lineSize + 0) p.lineSize =
            (block p (c.sets s) index).read 0 p.lineSize :=
          copyOut_eq _ (Nat.le_of_eq (Nat.zero_add _))
        refine ⟨hold, ?_, ?_, ?_⟩
        · simp only [hold, if_true]
        · simp only [hold, if_true]
        · simp only [hold, Bool.true_and, ← hread, Nat.add_zero]
      · rw [slot, if_neg fun h ↦ hold h.2]
        exact ⟨by simpa [insertAt] using hold, by simp [hold]⟩
  · -- the state of the evicted line contradicts its tag
    by_cases hold : ((c.sets s).info index).isValid
    · refine .inr ⟨s, index, _, _, hslot.trans (if_pos ⟨hindex, hold⟩), .inr ?_⟩
      simpa [insertAt, hold] using hstate
    · simp [hold, CacheLineInfo.invalid] at hstate
  · by_cases hold : ((c.sets s).info index).isValid
    · refine .inr ⟨s, index, _, _, hslot.trans (if_pos ⟨hindex, hold⟩), .inl ?_⟩
      simpa [insertAt, hold] using haddress
    · simp [hold] at haddress

/-! ### Runs -/

/-- The operations on a cache. -/
inductive Op
  | load (address numBytes : ℕ)
  | store (address : ℕ) (bytes : List UInt8)
  | setInfo (address : ℕ) (info : CacheLineInfo)
  | insert (address : ℕ) (info : CacheLineInfo) (fillBuf : Option (List UInt8)) (writeback : Bool)
  | enable (on : Bool)
  deriving DecidableEq, Repr

/-- What an operation returns. -/
inductive Result
  | done
  | loaded (bytes : List UInt8)
  | inserted (r : Insertion)
  deriving DecidableEq, Repr

/-- One operation. -/
def perform (p : CacheParams) (c : Cache) : Op → Except CacheFault (Result × Cache)
  | .load address numBytes => do
    let (bytes, c) ← c.load p address numBytes
    return (.loaded bytes, c)
  | .store address bytes => do
    let c ← c.store p address bytes
    return (.done, c)
  | .setInfo address info => do
    let c ← c.setCacheLineInfo p address info
    return (.done, c)
  | .insert address info fillBuf writeback => do
    let (r, c) ← c.insertCacheLine p address info fillBuf writeback
    return (.inserted r, c)
  | .enable on => .ok (.done, { c with enabled := on })

/-- How the controllers use a cache: accesses stay in a line, an insertion is of a line that is not
present, and a change of the state keeps the tag or invalidates the line. The address `~0` with
lines of one byte is left out, as its tag is the one of an invalid way. -/
def Proper (p : CacheParams) (c : Cache) : Op → Prop
  | .load address n => p.getTag address ≠ invalidTag ∧
      p.getLineOffset address + n ≤ p.lineSize
  | .store address bytes => p.getTag address ≠ invalidTag ∧
      p.getLineOffset address + bytes.length ≤ p.lineSize
  | .setInfo address info => p.getTag address ≠ invalidTag ∧
      (info.tag = p.getTag address ∨ info = .invalid)
  | .insert address info fillBuf _ => address < 2 ^ 64 ∧
      p.getTag address ≠ invalidTag ∧ info.tag = p.getTag address ∧
      (∀ bytes, fillBuf = some bytes → bytes.length = p.lineSize) ∧
      contents p c (p.getTag address) = none
  | .enable _ => True

/-- What the operations do to the lines held. An insertion goes to one way of the set of the
address; without a buffer the line has the bytes that stand in that way. -/
def Behaves (p : CacheParams) (c : Cache) (op : Op) (r : Result) (c' : Cache) : Prop :=
  let lines := contents p c
  let lines' := contents p c'
  match op, r with
  | .load address n, .loaded bytes => lines' = lines ∧
      ∃ line, lines (p.getTag address) = some line ∧
        bytes = line.block.read (p.getLineOffset address) n
  | .store address bytes, .done =>
      ∃ line, lines (p.getTag address) = some line ∧ lines' = update lines (p.getTag address)
          (some ⟨line.cstate, line.block.write (p.getLineOffset address) bytes⟩)
  | .setInfo address info, .done =>
      ∃ line, lines (p.getTag address) = some line ∧ lines' = update lines (p.getTag address)
          (if info.isValid then some ⟨info.cstate, line.block⟩ else none)
  | .insert address info fillBuf writeback, .inserted r =>
      ∃ way, (c'.sets (p.compute address)).info way = info ∧
        let line : Line := ⟨info.cstate, filled fillBuf (block p (c.sets (p.compute address)) way)⟩
        (r.eviction = false ∧ lines' = update lines (p.getTag address) (some line)) ∨
        (r.eviction = true ∧ ∃ evicted, p.getTag r.evictedAddress ≠ p.getTag address ∧
          p.getLineOffset r.evictedAddress = 0 ∧
          lines (p.getTag r.evictedAddress) = some evicted ∧
          r.evictedInfo = ⟨p.getTag r.evictedAddress, evicted.cstate⟩ ∧
          r.writeback = (if writeback then some (evicted.block.read 0 p.lineSize) else none) ∧
          lines' = update (update lines (p.getTag r.evictedAddress) none)
            (p.getTag address) (some line))
  | .enable _, .done => lines' = lines
  | _, _ => False

/-- A run of proper operations, with what each of them returned. -/
inductive Run (p : CacheParams) : Cache → List (Op × Result) → Cache → Prop
  | nil {c : Cache} : Run p c [] c
  | cons {c mid last : Cache} {op : Op} {r : Result} {rest : List (Op × Result)}
      (hproper : Proper p c op) (hstep : perform p c op = .ok (r, mid)) (hrest : Run p mid rest last) :
      Run p c ((op, r) :: rest) last

/-- The lines held change as `Behaves` says, operation after operation. -/
def Follows (p : CacheParams) : Cache → List (Op × Result) → Cache → Prop
  | c, [], last => last = c
  | c, (op, r) :: rest, last =>
    ∃ mid, perform p c op = .ok (r, mid) ∧ Behaves p c op r mid ∧ Follows p mid rest last

/-- What holds of a cache at all times: its store is well formed, and the tags are those of
addresses. -/
structure Inv (p : CacheParams) (c : Cache) : Prop where
  wf : (held p c).WF (geometry p)
  tags : ∀ {tag line}, contents p c tag = some line → tag <<< p.logLineSize < 2 ^ 64

/-- The line that an operation needs is not there. -/
def Absent (p : CacheParams) (c : Cache) : Op → Prop
  | .load address _ | .store address _ | .setInfo address _ =>
    contents p c (p.getTag address) = none
  | _ => False

/-- The reasons for which a proper operation may fail. -/
def Refused (p : CacheParams) (c : Cache) (op : Op) : Prop :=
  Absent p c op ∨ ¬ c.policy.Sound p.associativity ∨
    (c.enabled = true ∧ ∃ tag line, contents p c tag = some line ∧ line.cstate = .invalid)

theorem ne_invalidTag_of_slot {s tag : ℕ} (h : (held p c).slot s way = some (tag, line)) :
    tag ≠ invalidTag := by
  simp only [held, slot] at h
  split_ifs at h with hvalid
  have htag : _ = tag := congrArg Prod.fst (some.inj h)
  rw [← htag]
  simpa [isValid] using hvalid.2

theorem getAddressFromTag_eq (h : tag <<< p.logLineSize < 2 ^ 64) :
    p.getAddressFromTag tag = tag <<< p.logLineSize :=
  Nat.mod_eq_of_lt h

theorem getLineOffset_shiftLeft (hp : p.Valid) (tag : ℕ) :
    p.getLineOffset (tag <<< p.logLineSize) = 0 := by
  rw [CacheParams.getLineOffset, hp.lineSize_eq, Nat.and_two_pow_sub_one_eq_mod, Nat.shiftLeft_eq]
  exact Nat.mul_mod_left _ _

/-- The address of a line that is held is not `INVALID_ADDRESS`. -/
theorem shiftLeft_ne_invalidTag (htag : tag ≠ invalidTag) :
    tag <<< p.logLineSize ≠ invalidTag := by
  rw [Nat.shiftLeft_eq]
  cases p.logLineSize with
  | zero => simpa using htag
  | succ k =>
    rw [pow_succ, ← Nat.mul_assoc]
    unfold invalidTag
    omega

theorem Inv.refused_of_hindered {op : Op} (h : Inv p c) (hh : Hindered p c) : Refused p c op := by
  rcases hh with hsound | ⟨s, way, tag, line, hslot, haddress | hstate⟩
  · exact .inr (.inl hsound)
  · have hcontents : contents p c tag = some line := h.wf.get?_of_slot hslot
    rw [getAddressFromTag_eq (h.tags hcontents)] at haddress
    exact absurd haddress (shiftLeft_ne_invalidTag (ne_invalidTag_of_slot hslot))
  · exact .inr (.inr ⟨hstate.1, tag, line, h.wf.get?_of_slot hslot, hstate.2⟩)

/-- An assignment in the store updates the map. -/
theorem Inv.assign {c c' : Cache} {x : Option Line} (h : Inv p c)
    (hline : contents p c tag = some line)
    (hassign : (held p c).assign (geometry p) tag x = some (held p c')) :
    Inv p c' ∧ contents p c' = update (contents p c) tag x := by
  have hassigned := h.wf.assign hassign
  have hcontents : contents p c' = update (contents p c) tag x := by
    funext j
    rw [contents, hassigned.get? j, update_apply]
    rfl
  refine ⟨⟨hassigned.wf, fun {tag' line'} hline' ↦ ?_⟩, hcontents⟩
  by_cases heq : tag' = tag
  · rw [heq]
    exact h.tags hline
  · rw [hcontents, update_of_ne heq] at hline'
    exact h.tags hline'

theorem getTag_shiftLeft_le (p : CacheParams) (address : ℕ) :
    p.getTag address <<< p.logLineSize ≤ address := by
  rw [CacheParams.getTag, Nat.shiftLeft_eq, Nat.shiftRight_eq_div_pow]
  exact Nat.div_mul_le_self _ _

/-- The way of a line that is held has its tag and its state. -/
theorem info_of_slot {s : ℕ} {content : Block}
    (h : slot p (c.sets s) way = some (info.tag, ⟨info.cstate, content⟩)) :
    (c.sets s).info way = info := by
  unfold slot at h
  split_ifs at h
  obtain ⟨htag, hline⟩ := Prod.ext_iff.mp (some.inj h)
  have hstate : ((c.sets s).info way).cstate = info.cstate := congrArg Line.cstate hline
  show CacheLineInfo.mk ((c.sets s).info way).tag ((c.sets s).info way).cstate = info
  rw [hstate, show ((c.sets s).info way).tag = info.tag from htag]

/-- An insertion into the store updates the map at the tag inserted, and at the one evicted. -/
theorem Inv.insert (hp : p.Valid) {c c' : Cache} {address : ℕ} {r : Insertion}
    (h : Inv p c) (haddress : address < 2 ^ 64) (htag : info.tag = p.getTag address)
    (habsent : contents p c (p.getTag address) = none) (hway : way ∈ (geometry p).scan)
    {line : Line} (hline : line =
      ⟨info.cstate, filled fillBuf (block p (c.sets ((geometry p).index info.tag)) way)⟩)
    (hheld : held p c' = ((held p c).insertAt (geometry p) way info.tag line).2)
    (hreports : Reports p ((held p c).insertAt (geometry p) way info.tag line).1 writeback r) :
    Inv p c' ∧ Behaves p c (.insert address info fillBuf writeback) (.inserted r) c' := by
  have hset : (geometry p).index info.tag = p.compute address := by
    rw [htag]
    exact hp.compute_congr (p.getTag_shiftLeft _)
  have hslot : slot p (c'.sets (p.compute address)) way = some (info.tag, line) := by
    have hself := congrArg (SetAssoc.slot · (p.compute address) way) hheld
    rw [SetAssoc.insertAt, hset] at hself
    exact hself.trans (setSlot_self ..)
  rw [hset] at hline
  have hinfo : (c'.sets (p.compute address)).info way = info := info_of_slot (hline ▸ hslot)
  rw [htag] at hheld hreports
  have hinserted := h.wf.insertAt (v := line) hway habsent
  generalize (held p c).insertAt (geometry p) way (p.getTag address) line = result
    at hheld hreports hinserted
  obtain ⟨evicted, store⟩ := result
  subst hheld
  have hcontents : ∀ j, contents p c' j = if j = p.getTag address then some line
      else if evicted.any fun x ↦ x.1 = j then none else contents p c j := hinserted.get?
  refine ⟨⟨hinserted.wf, fun {tag line} hline ↦ ?_⟩, way, hinfo, ?_⟩
  · rw [hcontents] at hline
    split_ifs at hline with heq
    · rw [heq]
      exact (getTag_shiftLeft_le p address).trans_lt haddress
    · exact h.tags hline
  · rw [← hline]
    cases evicted with
    | none =>
      refine .inl ⟨hreports.1, funext fun j ↦ ?_⟩
      rw [hcontents, update_apply]
      simp
    | some x =>
      obtain ⟨tag, line⟩ := x
      obtain ⟨heviction, haddr, hinfo, hwriteback⟩ := hreports
      obtain ⟨hne, hheld⟩ := hinserted.held tag line rfl
      have hline : contents p c tag = some line := hheld
      rw [getAddressFromTag_eq (h.tags hline)] at haddr
      refine .inr ⟨heviction, line, ?_⟩
      rw [haddr, p.getTag_shiftLeft]
      refine ⟨hne, getLineOffset_shiftLeft hp tag, hline, hinfo, hwriteback, funext fun j ↦ ?_⟩
      rw [hcontents, update_apply, update_apply]
      simp [eq_comm]

/-- One proper operation: it does to the lines what it should, or has one of the reasons to fail. -/
theorem perform_outcome (hp : p.Valid) {op : Op} (h : Inv p c) (hproper : Proper p c op) :
    Outcome (perform p c op) (fun r ↦ Inv p r.2 ∧ Behaves p c op r.1 r.2 ∧
        (c.policy.Sound p.associativity → r.2.policy.Sound p.associativity))
      (fun _ ↦ Refused p c op) := by
  cases op with
  | load address n =>
    obtain ⟨htag, hrange⟩ := hproper
    refine .bind_mono (load_outcome hp c htag) (fun _ hfault ↦ ?_) ?_
    · exact .inl (hfault.resolve_right (Nat.not_lt_of_le hrange))
    · rintro ⟨bytes, c'⟩ ⟨hheld, line, hline, hbytes, hsound⟩
      have hcontents : contents p c' = contents p c := by
        funext tag
        rw [contents, hheld]
        rfl
      refine ⟨⟨hheld ▸ h.wf, fun {tag line} htag ↦ h.tags (hcontents ▸ htag)⟩, ?_, hsound⟩
      exact ⟨hcontents, line, hline, hbytes⟩
  | store address bytes =>
    obtain ⟨htag, hrange⟩ := hproper
    refine .bind_mono (store_outcome hp c htag) (fun _ hfault ↦ ?_) ?_
    · exact .inl (hfault.resolve_right (Nat.not_lt_of_le hrange))
    · rintro c' ⟨line, hline, hassign, hsound⟩
      obtain ⟨hinv, hcontents⟩ := h.assign hline hassign
      exact ⟨hinv, ⟨line, hline, hcontents⟩, hsound⟩
  | setInfo address info =>
    obtain ⟨htag, hinfo⟩ := hproper
    have hvalid : info.isValid → info.tag = p.getTag address := by
      intro hvalid
      rcases hinfo with hinfo | rfl
      · exact hinfo
      · exact absurd hvalid (by decide)
    refine .bind_mono (setCacheLineInfo_outcome hp c htag hvalid) (fun _ hfault ↦ ?_) ?_
    · exact .inl hfault
    · rintro c' ⟨line, hline, hassign, hpolicy⟩
      obtain ⟨hinv, hcontents⟩ := h.assign hline hassign
      exact ⟨hinv, ⟨line, hline, hcontents⟩, fun hsound ↦ hpolicy ▸ hsound⟩
  | insert address info fillBuf writeback =>
    obtain ⟨haddress, htag, hinfo, hfill, habsent⟩ := hproper
    have hvalid : info.isValid := by simp [isValid, hinfo, htag]
    refine .bind_mono (insertCacheLine_outcome hp c hinfo hvalid hfill)
      (fun _ hfault ↦ h.refused_of_hindered hfault) ?_
    rintro ⟨r, c'⟩ ⟨way, hway, hheld, hreports, hsound⟩
    obtain ⟨hinv, hbehaves⟩ := h.insert hp haddress hinfo habsent hway rfl hheld hreports
    exact ⟨hinv, hbehaves, hsound⟩
  | enable on =>
    have hheld : held p { c with enabled := on } = held p c := rfl
    exact ⟨⟨hheld ▸ h.wf, h.tags⟩, rfl, id⟩

theorem Run.follows (hp : p.Valid) {c last : Cache} {trace : List (Op × Result)}
    (hrun : Run p c trace last) (h : Inv p c) :
    Inv p last ∧ Follows p c trace last ∧
      (c.policy.Sound p.associativity → last.policy.Sound p.associativity) := by
  induction hrun with
  | nil => exact ⟨h, rfl, id⟩
  | cons hproper hstep _ ih =>
    obtain ⟨hinv, hbehaves, hsound⟩ := (perform_outcome hp h hproper).of_eq_ok hstep
    obtain ⟨hlast, hfollows, hsound'⟩ := ih hinv
    exact ⟨hlast, ⟨_, hstep, hbehaves, hfollows⟩, fun hs ↦ hsound' (hsound hs)⟩

theorem held_create (p : CacheParams) (policy : ReplacementPolicy) :
    held p (create policy) = .empty := by
  unfold held empty
  congr 1
  funext s way
  exact if_neg fun h ↦ absurd h.2 (by simp [create, CacheSet.create, CacheLineInfo.invalid,
    isValid])

theorem contents_create (p : CacheParams) (policy : ReplacementPolicy) :
    contents p (create policy) = fun _ ↦ none := by
  funext tag
  rw [contents, held_create, get?_empty]

theorem Inv.create (p : CacheParams) (policy : ReplacementPolicy) : Inv p (create policy) where
  wf := by
    rw [held_create]
    exact .empty _
  tags := by
    intro tag line hline
    rw [contents_create] at hline
    cases hline

/-- The cache is a store of lines: for every geometry, both policies and every run of proper
operations, no tag is in two ways of a set and the lines held are those that the operations make up.
An operation on a line that is present fails only if the LRU policy has more than 256 ways to tell
apart, or if the state of a line that is present has been set to `INVALID`. -/
theorem cache_keeps_lines (p : CacheParams) (hp : p.Valid) (policy : ReplacementPolicy)
    (hpolicy : policy = .createRoundRobin p.associativity ∨ policy = .createLru)
    (trace : List (Op × Result)) (c : Cache) (hrun : Run p (create policy) trace c) :
    (∀ s way way', way < p.associativity → way' < p.associativity →
      ((c.sets s).info way).isValid → ((c.sets s).info way').isValid →
      ((c.sets s).info way).tag = ((c.sets s).info way').tag → way = way') ∧
    contents p (create policy) = (fun _ ↦ none) ∧ Follows p (create policy) trace c ∧
    ∀ op, Proper p c op → ¬ Absent p c op → (policy = .createLru → p.associativity ≤ 2 ^ 8) →
      (c.enabled = true → ∀ tag line, contents p c tag = some line → line.cstate ≠ .invalid) →
      ∃ r c', perform p c op = .ok (r, c') := by
  obtain ⟨hinv, hfollows, hsound⟩ := hrun.follows hp (Inv.create p policy)
  refine ⟨fun s way way' hway hway' hvalid hvalid' htag ↦ ?_, contents_create p policy,
    hfollows, ?_⟩
  · have hslot : (held p c).slot s way = some (((c.sets s).info way').tag,
        ⟨((c.sets s).info way).cstate, block p (c.sets s) way⟩) := by
      rw [← htag]
      exact if_pos ⟨hway, hvalid⟩
    exact hinv.wf.unique hslot (if_pos ⟨hway', hvalid'⟩)
  · intro op hproper hpresent hways hstates
    have hcreate : policy.Sound p.associativity := by
      rcases hpolicy with rfl | rfl
      · exact ReplacementPolicy.sound_createRoundRobin hp.associativity
      · exact ReplacementPolicy.sound_createLru (hways rfl)
    have houtcome := perform_outcome hp hinv hproper
    cases hperform : perform p c op with
    | ok r => exact ⟨r.1, r.2, rfl⟩
    | error e =>
      rcases houtcome.of_eq_error hperform with habsent | hunsound | ⟨henabled, tag, line, hline, hst⟩
      · exact absurd habsent hpresent
      · exact absurd (hsound hcreate) hunsound
      · exact absurd hst (hstates henabled tag line hline)

/-- Operations one after the other, with what they return. -/
def exec (p : CacheParams) (c : Cache) : List Op → Except CacheFault (List Result × Cache)
  | [] => .ok ([], c)
  | op :: rest => do
    let (r, c) ← perform p c op
    let (results, c) ← exec p c rest
    return (r :: results, c)

/-- One kilobyte, direct mapped, with lines of 64 bytes. -/
def directMapped : CacheParams := ⟨1, 1, 64, .cache⟩

theorem directMapped_valid : directMapped.Valid :=
  ⟨⟨6, by decide, rfl⟩, by decide, by decide, by decide, nofun⟩

/-- The cache after an operation. -/
def after (p : CacheParams) (c : Cache) (op : Op) : Cache :=
  match perform p c op with
  | .ok r => r.2
  | .error _ => c

theorem Run.cons_of_result {c last : Cache} {op : Op} {r : Result} {rest : List (Op × Result)}
    (hproper : Proper p c op) (hresult : (perform p c op).map Prod.fst = .ok r)
    (hrest : Run p (after p c op) rest last) : Run p c ((op, r) :: rest) last := by
  obtain ⟨x, hperform, rfl⟩ := Outcome.map_eq_ok hresult
  rw [after, hperform] at hrest
  exact .cons hproper hperform hrest

/-- Line 0 is filled, written and evicted by line 16, which is in the same set. -/
def evictingTrace : List (Op × Result) :=
  [(.insert 0 ⟨0, .shared⟩ none true, .inserted ⟨false, 2 ^ 64 - 64, .invalid, none⟩),
    (.store 3 [7], .done), (.load 2 3, .loaded [0, 7, 0]),
    (.insert 1024 ⟨16, .modified⟩ none true,
      .inserted ⟨true, 0, ⟨0, .shared⟩, some ([0, 0, 0, 7] ++ List.replicate 60 0)⟩)]

theorem cache_keeps_lines_directMapped :
    ∃ c, Run directMapped (create (.createRoundRobin 1)) evictingTrace c ∧
      Follows directMapped (create (.createRoundRobin 1)) evictingTrace c := by
  have hrun : ∃ c, Run directMapped (create (.createRoundRobin 1)) evictingTrace c := by
    refine ⟨_, .cons_of_result ⟨by decide, by decide, rfl, nofun, ?_⟩ (by decide +kernel) <|
      .cons_of_result ⟨by decide, by decide⟩ (by decide +kernel) <|
      .cons_of_result ⟨by decide, by decide⟩ (by decide +kernel) <|
      .cons_of_result ⟨by decide, by decide, rfl, nofun, ?_⟩ (by decide +kernel) .nil⟩
    all_goals exact isNone_iff_eq_none.mp (by decide +kernel)
  obtain ⟨c, hrun⟩ := hrun
  exact ⟨c, hrun, (cache_keeps_lines directMapped directMapped_valid _ (.inl rfl) evictingTrace c
    hrun).2.2.1⟩

/-- One kilobyte in two ways, with lines of one byte. -/
def byteLines : CacheParams := ⟨1, 2, 1, .cache⟩

/-- With lines of one byte the address `~0` has the tag of an invalid way: it is not found when it is
inserted, and a load of it returns the byte that an invalidated line has left behind. -/
theorem load_of_lastAddress : byteLines.Valid ∧
    (exec byteLines (create .createLru) [.insert 511 ⟨511, .shared⟩ (some [1]) false,
        .insert 1023 ⟨1023, .shared⟩ (some [2]) false]).map (fun full ↦
      (full.2.getCacheLineInfo byteLines (2 ^ 64 - 1),
        (exec byteLines full.2 [.insert (2 ^ 64 - 1) ⟨2 ^ 64 - 1, .shared⟩ (some [3]) false,
          .setInfo 1023 .invalid, .load (2 ^ 64 - 1) 1]).map fun r ↦ r.1.getLast?)) =
      .ok (.ok none, .ok (some (.loaded [2]))) := by
  exact ⟨⟨⟨0, by decide, rfl⟩, by decide, by decide, by decide, nofun⟩, by decide +kernel⟩

end Cache

end CarbonSim
