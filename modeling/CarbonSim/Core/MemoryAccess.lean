import CarbonSim.Cache.CacheState
import Mathlib.Data.List.Range
import Mathlib.Tactic.Ring

/-!
# Splitting a memory access into cache lines

`MainCore::initiateMemoryAccess` walks over the cache lines of an operand and hands the memory
manager one access for each line. Addresses are 64-bit words and the sizes 32-bit words, as in the
source: the walk ends when the line address passes the line of `address + size`, so it never ends
when that line is the last one of the address space.
-/

namespace CarbonSim.Core

/-- `Core::lock_signal_t`. -/
inductive LockSignal
  | none
  | lock
  | unlock
  deriving DecidableEq, Repr

/-- `Core::mem_op_t`. -/
inductive MemOp
  | read
  | readEx
  | write
  deriving DecidableEq, Repr

/-- The arguments of `initiateMemoryAccess` that it passes on as they are. -/
structure AccessKind where
  memComponent : L1Kind
  lockSignal : LockSignal
  memOpType : MemOp
  pushInfo : Bool
  deriving DecidableEq, Repr

/-- One call of `coreInitiateMemoryAccess`; `bufferHead` is `curr_data_buffer_head - data_buf`. -/
structure LineAccess where
  kind : AccessKind
  address : ℕ
  offset : ℕ
  bufferHead : ℕ
  size : ℕ
  deriving DecidableEq, Repr

/-- The addresses that an access touches, in order. -/
def LineAccess.bytes (x : LineAccess) : List ℕ := List.range' (x.address + x.offset) x.size

/-- A memory operand, and the cache line size of the memory manager. -/
structure Operand where
  cacheLineSize : ℕ
  address : ℕ
  dataSize : ℕ

namespace Operand

/-- The argument types: `IntPtr` and `UInt32`, the line size a power of two. -/
structure Valid (op : Operand) : Prop where
  lineSize : ∃ k < 32, op.cacheLineSize = 2 ^ k
  address : op.address < 2 ^ 64
  dataSize : op.dataSize < 2 ^ 32

variable (op : Operand)

def endAddr : ℕ := (op.address + op.dataSize) % 2 ^ 64

def beginAddrAligned : ℕ := op.address - op.address % op.cacheLineSize

def endAddrAligned : ℕ := op.endAddr - op.endAddr % op.cacheLineSize

/-- `curr_offset`. -/
def currOffset (curr : ℕ) : ℕ :=
  if curr = op.beginAddrAligned then op.address % op.cacheLineSize else 0

/-- `curr_size`, with the wrap of the 32-bit subtraction on the last line. -/
def currSize (curr : ℕ) : ℕ :=
  if curr = op.endAddrAligned then
    (op.endAddr % op.cacheLineSize + 2 ^ 32 - op.currOffset curr) % 2 ^ 32
  else op.cacheLineSize - op.currOffset curr

/-- The access issued for a line. -/
def lineAccess (kind : AccessKind) (curr head : ℕ) : LineAccess :=
  ⟨kind, curr, op.currOffset curr, head, op.currSize curr⟩

/-- The loop from a line address and a buffer head; `none` when the fuel runs out. -/
def walk (kind : AccessKind) : ℕ → ℕ → ℕ → Option (List LineAccess)
  | 0, _, _ => none
  | fuel + 1, curr, head =>
    if curr ≤ op.endAddrAligned then
      let next := (curr + op.cacheLineSize) % 2 ^ 64
      -- the `continue` of an empty last line
      if curr = op.endAddrAligned ∧ op.currSize curr = 0 then walk kind fuel next head
      else (walk kind fuel next (head + op.currSize curr)).map (op.lineAccess kind curr head :: ·)
    else some []

/-- `MainCore::initiateMemoryAccess`: the accesses it issues, in order. -/
def initiateMemoryAccess (kind : AccessKind) (fuel : ℕ) : Option (List LineAccess) :=
  if op.dataSize = 0 then some [] else op.walk kind fuel op.beginAddrAligned 0

/-- The line of `address + size` is below the last line of the address space. -/
def BelowLastLine : Prop := op.address + op.dataSize + op.cacheLineSize < 2 ^ 64

instance : Decidable op.BelowLastLine := inferInstanceAs (Decidable (_ < _))

/-- What the memory manager may rely on in each access: it is not empty, stays in one line, and
its bytes are those of the buffer at the same distance from the start. -/
structure WithinLine (kind : AccessKind) (x : LineAccess) : Prop where
  kind : x.kind = kind
  aligned : op.cacheLineSize ∣ x.address
  nonempty : 0 < x.size
  contained : x.offset + x.size ≤ op.cacheLineSize
  bufferHead : x.bufferHead = x.address + x.offset - op.address

variable {op}

theorem Valid.lineSize_pos (h : op.Valid) : 0 < op.cacheLineSize := by
  obtain ⟨k, -, hk⟩ := h.lineSize
  rw [hk]
  exact Nat.two_pow_pos k

theorem Valid.lineSize_dvd (h : op.Valid) : op.cacheLineSize ∣ 2 ^ 64 := by
  obtain ⟨k, hk, hline⟩ := h.lineSize
  rw [hline]
  exact pow_dvd_pow 2 (by omega)

theorem Valid.lineSize_lt (h : op.Valid) : op.cacheLineSize < 2 ^ 32 := by
  obtain ⟨k, hk, hline⟩ := h.lineSize
  rw [hline]
  exact Nat.pow_lt_pow_right (by decide) hk

theorem endAddr_of_lt (h : op.address + op.dataSize < 2 ^ 64) :
    op.endAddr = op.address + op.dataSize :=
  Nat.mod_eq_of_lt h

theorem beginAddrAligned_add_mod (op : Operand) :
    op.beginAddrAligned + op.address % op.cacheLineSize = op.address :=
  Nat.sub_add_cancel (Nat.mod_le _ _)

theorem endAddrAligned_add_mod (op : Operand) :
    op.endAddrAligned + op.endAddr % op.cacheLineSize = op.endAddr :=
  Nat.sub_add_cancel (Nat.mod_le _ _)

theorem dvd_beginAddrAligned (op : Operand) : op.cacheLineSize ∣ op.beginAddrAligned :=
  Nat.dvd_sub_mod _

theorem dvd_endAddrAligned (op : Operand) : op.cacheLineSize ∣ op.endAddrAligned :=
  Nat.dvd_sub_mod _

theorem beginAddrAligned_le_endAddrAligned (h : op.address + op.dataSize < 2 ^ 64) :
    op.beginAddrAligned ≤ op.endAddrAligned := by
  unfold beginAddrAligned endAddrAligned
  rw [endAddr_of_lt h, ← Nat.div_mul_self_eq_mod_sub_self, ← Nat.div_mul_self_eq_mod_sub_self]
  exact Nat.mul_le_mul_right _ (Nat.div_le_div_right (Nat.le_add_right _ _))

theorem currOffset_lt (h : op.Valid) (curr : ℕ) : op.currOffset curr < op.cacheLineSize := by
  unfold currOffset
  split
  · exact Nat.mod_lt _ h.lineSize_pos
  · exact h.lineSize_pos

theorem currSize_of_ne {curr : ℕ} (h : curr ≠ op.endAddrAligned) :
    op.currSize curr = op.cacheLineSize - op.currOffset curr :=
  if_neg h

/-- On the last line the 32-bit subtraction does not wrap. -/
theorem currOffset_add_currSize_end (hop : op.Valid) (h : op.address + op.dataSize < 2 ^ 64) :
    op.currOffset op.endAddrAligned + op.currSize op.endAddrAligned =
      op.endAddr % op.cacheLineSize := by
  have hoffset : op.currOffset op.endAddrAligned ≤ op.endAddr % op.cacheLineSize := by
    unfold currOffset
    split
    · next heq =>
      have hbegin := op.beginAddrAligned_add_mod
      have hend := op.endAddrAligned_add_mod
      have haddr := endAddr_of_lt h
      omega
    · exact Nat.zero_le _
  have hlt : op.endAddr % op.cacheLineSize < 2 ^ 32 :=
    (Nat.mod_lt _ hop.lineSize_pos).trans hop.lineSize_lt
  rw [currSize, if_pos rfl]
  omega

theorem withinLine_lineAccess {kind : AccessKind} {curr head : ℕ}
    (hdvd : op.cacheLineSize ∣ curr) (hhead : op.address + head = curr + op.currOffset curr)
    (hpos : 0 < op.currSize curr)
    (hle : op.currOffset curr + op.currSize curr ≤ op.cacheLineSize) :
    op.WithinLine kind (op.lineAccess kind curr head) where
  kind := rfl
  aligned := hdvd
  nonempty := hpos
  contained := hle
  bufferHead := by
    show head = curr + op.currOffset curr - op.address
    omega

/-- The walk from a line of the operand with `lines` further lines to go. -/
theorem walk_eq (hop : op.Valid) (hbelow : op.BelowLastLine) (kind : AccessKind) (lines : ℕ) :
    ∀ curr head, op.endAddrAligned = curr + lines * op.cacheLineSize →
      op.cacheLineSize ∣ curr → op.beginAddrAligned ≤ curr →
      op.address + head = curr + op.currOffset curr →
      ∃ accesses, op.walk kind (lines + 2) curr head = some accesses ∧
        accesses.flatMap LineAccess.bytes =
          List.range' (curr + op.currOffset curr) (op.endAddr - (curr + op.currOffset curr)) ∧
        ∀ x ∈ accesses, op.WithinLine kind x := by
  have hsum : op.address + op.dataSize < 2 ^ 64 := by
    unfold BelowLastLine at hbelow
    omega
  have hend := op.endAddrAligned_add_mod
  have hendAddr := endAddr_of_lt hsum
  have hmod : op.endAddr % op.cacheLineSize < op.cacheLineSize := Nat.mod_lt _ hop.lineSize_pos
  have hnowrap : op.endAddrAligned + op.cacheLineSize < 2 ^ 64 := by
    unfold BelowLastLine at hbelow
    omega
  induction lines with
  | zero =>
    intro curr head hlines hdvd hle hhead
    obtain rfl : curr = op.endAddrAligned := by omega
    have hsize := currOffset_add_currSize_end hop hsum
    -- the walk ends behind the last line
    have hstop : ∀ head', op.walk kind 1
        ((op.endAddrAligned + op.cacheLineSize) % 2 ^ 64) head' = some [] := by
      intro head'
      rw [Nat.mod_eq_of_lt hnowrap, walk, if_neg]
      omega
    rw [walk, if_pos le_rfl]
    by_cases hzero : op.currSize op.endAddrAligned = 0
    · refine ⟨[], by rw [if_pos ⟨rfl, hzero⟩, hstop], ?_, by simp⟩
      have hlen : op.endAddr - (op.endAddrAligned + op.currOffset op.endAddrAligned) = 0 := by
        omega
      simp [hlen]
    · refine ⟨[op.lineAccess kind op.endAddrAligned head], ?_, ?_, ?_⟩
      · rw [if_neg (fun h ↦ hzero h.2), hstop, Option.map_some]
      · have hlen : op.endAddr - (op.endAddrAligned + op.currOffset op.endAddrAligned) =
            op.currSize op.endAddrAligned := by omega
        rw [hlen]
        simp [LineAccess.bytes, lineAccess]
      · intro x hx
        obtain rfl := List.mem_singleton.mp hx
        exact withinLine_lineAccess hdvd hhead (by omega) (by omega)
  | succ lines ih =>
    intro curr head hlines hdvd hle hhead
    have hlines' : op.endAddrAligned = curr + op.cacheLineSize + lines * op.cacheLineSize := by
      rw [hlines]
      ring
    have hne : curr ≠ op.endAddrAligned := by omega
    have hoffset := currOffset_lt hop curr
    have hsize := currSize_of_ne hne
    have hnext : op.currOffset (curr + op.cacheLineSize) = 0 := if_neg (by omega)
    obtain ⟨accesses, hwalk, hbytes, hwithin⟩ := ih (curr + op.cacheLineSize)
      (head + op.currSize curr) hlines' (Nat.dvd_add hdvd dvd_rfl) (by omega) (by omega)
    refine ⟨op.lineAccess kind curr head :: accesses, ?_, ?_, ?_⟩
    · rw [walk, if_pos (by omega), if_neg (by tauto)]
      simp only [Nat.mod_eq_of_lt (show curr + op.cacheLineSize < 2 ^ 64 by omega), hwalk,
        Option.map_some]
    · rw [List.flatMap_cons, hbytes, hnext]
      show List.range' (curr + op.currOffset curr) (op.currSize curr) ++ _ = _
      have hstart : curr + op.cacheLineSize + 0 =
          curr + op.currOffset curr + 1 * op.currSize curr := by omega
      have hlen : op.endAddr - (curr + op.currOffset curr) =
          op.currSize curr + (op.endAddr - (curr + op.cacheLineSize + 0)) := by omega
      rw [hlen, ← List.range'_append, ← hstart]
    · intro x hx
      rcases List.mem_cons.mp hx with rfl | hx
      · exact withinLine_lineAccess hdvd hhead (by omega) (by omega)
      · exact hwithin x hx

theorem walk_mono {kind : AccessKind} {fuel fuel' curr head : ℕ} {accesses : List LineAccess}
    (h : op.walk kind fuel curr head = some accesses) (hle : fuel ≤ fuel') :
    op.walk kind fuel' curr head = some accesses := by
  induction fuel generalizing fuel' curr head accesses with
  | zero => simp [walk] at h
  | succ fuel ih =>
    obtain ⟨fuel', rfl⟩ : ∃ f, fuel' = f + 1 := ⟨fuel' - 1, by omega⟩
    rw [walk] at h ⊢
    by_cases hcurr : curr ≤ op.endAddrAligned
    · rw [if_pos hcurr] at h ⊢
      by_cases hskip : curr = op.endAddrAligned ∧ op.currSize curr = 0
      · rw [if_pos hskip] at h ⊢
        exact ih h (by omega)
      · rw [if_neg hskip] at h ⊢
        obtain ⟨rest, hrest, rfl⟩ := Option.map_eq_some_iff.mp h
        rw [ih hrest (by omega), Option.map_some]
    · rwa [if_neg hcurr] at h ⊢

/-- In the last line of the address space the line address wraps to zero, which is again not past
the end: the walk goes on for ever. -/
theorem walk_eq_none (hop : op.Valid) (hlast : op.endAddrAligned + op.cacheLineSize = 2 ^ 64)
    (kind : AccessKind) (fuel : ℕ) :
    ∀ curr head, op.cacheLineSize ∣ curr → curr < 2 ^ 64 → op.walk kind fuel curr head = none := by
  induction fuel with
  | zero => exact fun _ _ _ _ ↦ rfl
  | succ fuel ih =>
    intro curr head hdvd hlt
    have hle : curr ≤ op.endAddrAligned := by
      obtain ⟨a, rfl⟩ := hdvd
      obtain ⟨b, hb⟩ := op.dvd_endAddrAligned
      rw [hb] at hlast ⊢
      have hpow : op.cacheLineSize * a < op.cacheLineSize * (b + 1) := by
        rw [Nat.mul_add, Nat.mul_one, hlast]
        exact hlt
      exact Nat.mul_le_mul_left _ (Nat.lt_succ_iff.mp (Nat.lt_of_mul_lt_mul_left hpow))
    have hnext : ∀ head', op.walk kind fuel ((curr + op.cacheLineSize) % 2 ^ 64) head' = none :=
      fun head' ↦ ih _ _ ((Nat.dvd_mod_iff hop.lineSize_dvd).mpr (Nat.dvd_add hdvd dvd_rfl))
        (Nat.mod_lt _ (Nat.two_pow_pos 64))
    rw [walk, if_pos hle]
    simp only [hnext, Option.map_none, ite_self]

/-- An operand that ends in the last line never gets its answer. -/
theorem initiateMemoryAccess_eq_none (hop : op.Valid) (hsize : 0 < op.dataSize)
    (hsum : op.address + op.dataSize < 2 ^ 64) (hlast : ¬ op.BelowLastLine) (kind : AccessKind)
    (fuel : ℕ) : op.initiateMemoryAccess kind fuel = none := by
  have hend : op.endAddrAligned + op.cacheLineSize = 2 ^ 64 := by
    obtain ⟨a, ha⟩ := hop.lineSize_dvd
    obtain ⟨b, hb⟩ := op.dvd_endAddrAligned
    have hmod := op.endAddrAligned_add_mod
    have haddr := endAddr_of_lt hsum
    have hlt : op.endAddr % op.cacheLineSize < op.cacheLineSize := Nat.mod_lt _ hop.lineSize_pos
    unfold BelowLastLine at hlast
    have hb' : op.cacheLineSize * b < op.cacheLineSize * a := by omega
    have ha' : op.cacheLineSize * a < op.cacheLineSize * (b + 2) := by
      rw [Nat.mul_add]
      omega
    have hab : a = b + 1 := by
      have h₁ := Nat.lt_of_mul_lt_mul_left hb'
      have h₂ := Nat.lt_of_mul_lt_mul_left ha'
      omega
    rw [hb, ha, hab, Nat.mul_add, Nat.mul_one]
  have hbegin : op.beginAddrAligned < 2 ^ 64 := (Nat.sub_le _ _).trans_lt hop.address
  rw [initiateMemoryAccess, if_neg hsize.ne']
  exact walk_eq_none hop hend kind fuel _ _ op.dvd_beginAddrAligned hbegin

/-- The accesses of an operand that ends below the last line, in order, are exactly its bytes. -/
theorem initiateMemoryAccess_partitions (op : Operand) (hop : op.Valid) (hsize : 1 ≤ op.dataSize)
    (hbelow : op.BelowLastLine) (kind : AccessKind) :
    ∃ accesses, (∃ enough, ∀ fuel, enough ≤ fuel →
        op.initiateMemoryAccess kind fuel = some accesses) ∧
      accesses.flatMap LineAccess.bytes = List.range' op.address op.dataSize ∧
      ∀ x ∈ accesses, op.WithinLine kind x := by
  have hsum : op.address + op.dataSize < 2 ^ 64 := by
    unfold BelowLastLine at hbelow
    omega
  obtain ⟨lines, hlines⟩ : ∃ lines, op.endAddrAligned =
      op.beginAddrAligned + lines * op.cacheLineSize := by
    obtain ⟨lines, hlines⟩ := Nat.dvd_sub op.dvd_endAddrAligned op.dvd_beginAddrAligned
    have hle := beginAddrAligned_le_endAddrAligned hsum
    exact ⟨lines, by rw [Nat.mul_comm, ← hlines]; omega⟩
  have hoffset : op.beginAddrAligned + op.currOffset op.beginAddrAligned = op.address := by
    rw [currOffset, if_pos rfl, op.beginAddrAligned_add_mod]
  obtain ⟨accesses, hwalk, hbytes, hwithin⟩ := walk_eq hop hbelow kind lines op.beginAddrAligned 0
    hlines op.dvd_beginAddrAligned le_rfl (by omega)
  refine ⟨accesses, ⟨lines + 2, ?_⟩, ?_, hwithin⟩
  · intro fuel hfuel
    rw [initiateMemoryAccess, if_neg (by omega)]
    exact walk_mono hwalk hfuel
  · rw [hbytes, hoffset, endAddr_of_lt hsum, Nat.add_sub_cancel_left]

/-- Ten bytes from address 60, in lines of 64 bytes. -/
def straddling : Operand := ⟨64, 60, 10⟩

theorem initiateMemoryAccess_partitions_straddling :
    straddling.Valid ∧ 1 ≤ straddling.dataSize ∧ straddling.BelowLastLine ∧
      ∀ kind, ∃ accesses, (∃ enough, ∀ fuel, enough ≤ fuel →
          straddling.initiateMemoryAccess kind fuel = some accesses) ∧
        accesses.flatMap LineAccess.bytes = List.range' 60 10 ∧
        ∀ x ∈ accesses, straddling.WithinLine kind x := by
  have hvalid : straddling.Valid := ⟨⟨6, by decide, rfl⟩, by decide, by decide⟩
  exact ⟨hvalid, by decide, by decide,
    initiateMemoryAccess_partitions straddling hvalid (by decide) (by decide)⟩

/-- The first eight bytes of the last line. -/
def lastLine : Operand := ⟨64, 2 ^ 64 - 64, 8⟩

/-- The operand does not pass the last line, and its accesses are never over. -/
theorem initiateMemoryAccess_lastLine :
    lastLine.Valid ∧ 1 ≤ lastLine.dataSize ∧ lastLine.address + lastLine.dataSize < 2 ^ 64 ∧
      ∀ kind fuel, lastLine.initiateMemoryAccess kind fuel = none := by
  have hvalid : lastLine.Valid := ⟨⟨6, by decide, rfl⟩, by decide, by decide⟩
  exact ⟨hvalid, by decide, by decide,
    initiateMemoryAccess_eq_none hvalid (by decide) (by decide) (by decide)⟩

end Operand

end CarbonSim.Core
