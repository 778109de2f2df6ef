import Mathlib.Data.List.Basic

/-!
# Cache line states and contents
-/

namespace CarbonSim

/-- `CacheState::Type`. -/
inductive CState
  | invalid
  | shared
  | owned
  | exclusive
  | modified
  | dataInvalid
  | clean
  | dirty
  deriving DecidableEq, Repr

namespace CState

def readable : CState → Bool
  | .modified | .exclusive | .owned | .shared => true
  | _ => false

def writable : CState → Bool
  | .modified | .exclusive => true
  | _ => false

end CState

/-- The bytes of a cache line, by offset. -/
abbrev Block := ℕ → UInt8

namespace Block

/-- The line of a fresh `new Byte[]` after `memset`. -/
def zero : Block := fun _ ↦ 0

/-- `memcpy` out of the line. -/
def read (b : Block) (offset length : ℕ) : List UInt8 :=
  (List.range length).map fun i ↦ b (offset + i)

/-- `memcpy` into the line. -/
def write (b : Block) (offset : ℕ) (bytes : List UInt8) : Block := fun i ↦
  if offset ≤ i then bytes.getD (i - offset) (b i) else b i

/-- A byte that was written is the one read back, the others are as before. -/
theorem write_apply (b : Block) (offset : ℕ) (bytes : List UInt8) (i : ℕ) :
    b.write offset bytes i =
      if h : offset ≤ i ∧ i - offset < bytes.length then bytes[i - offset] else b i := by
  unfold write
  by_cases ho : offset ≤ i
  · by_cases hl : i - offset < bytes.length
    all_goals simp [ho, hl]
  · simp [ho]

end Block

/-- The memory operations of a core, with the length of what is read or the bytes written. -/
inductive MemOp
  | read (length : ℕ)
  | readEx (length : ℕ)
  | write (bytes : List UInt8)
  deriving DecidableEq, Repr

namespace MemOp

/-- The operation needs a line that may be written. -/
def exclusive : MemOp → Bool
  | .read _ => false
  | _ => true

/-- `operationPermissibleinL1Cache` and `operationPermissibleinL2Cache`. -/
def permissible (op : MemOp) (cstate : CState) : Bool :=
  if op.exclusive then cstate.writable else cstate.readable

/-- `data_length`. -/
def length : MemOp → ℕ
  | .read n => n
  | .readEx n => n
  | .write bytes => bytes.length

end MemOp

/-- The two L1 caches of a tile. -/
inductive L1Kind
  | icache
  | dcache
  deriving DecidableEq, Repr

/-- An access of a core within one line. -/
structure Access (A : Type) where
  comp : L1Kind
  op : MemOp
  address : A
  offset : ℕ

end CarbonSim
