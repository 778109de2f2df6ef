import CarbonSim.Lib.Runs

/-!
# The segments of the virtual memory

`VMManager` places the data segment below the stacks of the tiles, and maps memory downwards from the
top of the dynamic segment to the stacks. Its checks compare results of fixed-width arithmetic: the
size of the stacks is a 32-bit product, and a length beyond the start of the dynamic segment wraps to
a high address that passes the check. Without these two the segments and regions stay apart.
-/

namespace CarbonSim.Vm

/-- What the constructor reads: `sbrk(0)`, the number of tiles and the stack parameters. -/
structure VmConfig where
  programBreak : BitVec 64
  totalTiles : BitVec 32
  stackBase : BitVec 64
  stackSizePerCore : BitVec 32

/-- The size that the stacks need together. -/
def VmConfig.stackSize (cfg : VmConfig) : ℕ := cfg.totalTiles.toNat * cfg.stackSizePerCore.toNat

inductive VmFault
  | applicationStack
  | dataSegment
  | noMoreMemory
  | fileDescriptor
  | flags

structure VMManager where
  startDataSegment : BitVec 64
  endDataSegment : BitVec 64
  startStackSegment : BitVec 64
  endStackSegment : BitVec 64
  startDynamicSegment : BitVec 64

/-- A system call; the arguments of `mmap` that the manager ignores are left out. -/
inductive VmCall
  | brk (endDataSegment : BitVec 64)
  | mmap (length : BitVec 64) (flags fd : BitVec 32)

/-- The length of the region that is mapped. -/
def VmCall.length : VmCall → BitVec 64
  | .brk _ => 0
  | .mmap length _ _ => length

/-- An address lies in a region that was mapped, given by its address and its length. -/
def InRegion (r : BitVec 64 × BitVec 64) (a : ℕ) : Prop :=
  r.1.toNat ≤ a ∧ a < r.1.toNat + r.2.toNat

/-- The manager and the regions that were mapped, the latest first. -/
abbrev Memory := VMManager × List (BitVec 64 × BitVec 64)

/-- No two regions overlap. -/
def Separate (s : Memory) : Prop := s.2.Pairwise fun r r' ↦ ∀ a, InRegion r a → ¬ InRegion r' a

namespace VMManager

def new (cfg : VmConfig) : Except VmFault VMManager := do
  let endStack := cfg.stackBase + (cfg.totalTiles * cfg.stackSizePerCore).setWidth 64
  require (cfg.stackBase < endStack) .applicationStack
  require (cfg.programBreak < cfg.stackBase) .applicationStack
  require (endStack < 0xf000000000) .applicationStack
  return ⟨cfg.programBreak, cfg.programBreak, cfg.stackBase, endStack, 0xf000000000⟩

def brk (vm : VMManager) (endDataSegment : BitVec 64) : Except VmFault VMManager :=
  if endDataSegment = 0 then return vm else do
    require (vm.startDataSegment < endDataSegment) .dataSegment
    require (endDataSegment < vm.startStackSegment) .noMoreMemory
    return { vm with endDataSegment }

/-- The region starts at the new start of the dynamic segment. -/
def mmap (vm : VMManager) (length : BitVec 64) (flags fd : BitVec 32) :
    Except VmFault VMManager := do
  require (fd = -1) .fileDescriptor
  require (flags &&& 0x20 = 0x20 ∧ flags &&& 0x10 = 0 ∧ flags &&& 0x02 = 0x02) .flags
  require (vm.endStackSegment < vm.startDynamicSegment - length) .noMoreMemory
  return { vm with startDynamicSegment := vm.startDynamicSegment - length }

def calls (vm : VMManager) : Machine Memory VmCall VmFault where
  start := (vm, [])
  step
    | (vm, regions), .brk endDataSegment => return (← vm.brk endDataSegment, regions)
    | (vm, regions), .mmap length flags fd => do
      let vm ← vm.mmap length flags fd
      return (vm, (vm.startDynamicSegment, length) :: regions)

/-- A region is not longer than the addresses below the dynamic segment. -/
abbrev Fits (s : Memory) (call : VmCall) : Prop :=
  call.length ≤ s.1.startDynamicSegment

/-- The segments lie apart, and the regions in the dynamic segment. -/
structure Apart (cfg : VmConfig) (s : Memory) : Prop where
  stack : s.1.endStackSegment.toNat = s.1.startStackSegment.toNat + cfg.stackSize
  data : s.1.endDataSegment < s.1.startStackSegment
  dynamic : s.1.endStackSegment < s.1.startDynamicSegment
  above : ∀ r ∈ s.2, s.1.startDynamicSegment ≤ r.1
  separate : Separate s

variable {cfg : VmConfig} {vm : VMManager} {s s' : Memory}

theorem new_apart (hstack : cfg.stackSize < 0x100000000)
    (hnew : new cfg = .ok vm) : Apart cfg (vm, []) := by
  obtain ⟨hsize, hnew⟩ := require_bind_eq_ok.1 hnew
  obtain ⟨hdata, hnew⟩ := require_bind_eq_ok.1 hnew
  obtain ⟨hdynamic, hnew⟩ := require_bind_eq_ok.1 hnew
  cases hnew
  refine ⟨?_, hdata, hdynamic, by simp, .nil⟩
  have hproduct : ((cfg.totalTiles * cfg.stackSizePerCore).setWidth 64).toNat = cfg.stackSize := by
    unfold VmConfig.stackSize at hstack ⊢
    rw [BitVec.toNat_setWidth, BitVec.toNat_mul, Nat.mod_eq_of_lt (by omega)]
    exact Nat.mod_eq_of_lt (by omega)
  bv_omega

theorem Apart.step {call : VmCall} (h : Apart cfg s) (hfits : Fits s call)
    (hstep : (calls vm).step s call = .ok s') : Apart cfg s' := by
  obtain ⟨hstack, hdata, hdynamic, habove, hseparate⟩ := h
  cases call with
  | brk endDataSegment =>
    obtain ⟨vm', hbrk, hs'⟩ := Outcome.bind_eq_ok hstep
    cases hs'
    rw [brk] at hbrk
    split_ifs at hbrk
    · cases hbrk
      exact ⟨hstack, hdata, hdynamic, habove, hseparate⟩
    · obtain ⟨-, hbrk⟩ := require_bind_eq_ok.1 hbrk
      obtain ⟨hbelow, hbrk⟩ := require_bind_eq_ok.1 hbrk
      cases hbrk
      exact ⟨hstack, hbelow, hdynamic, habove, hseparate⟩
  | mmap length flags fd =>
    obtain ⟨vm', hmap, hs'⟩ := Outcome.bind_eq_ok hstep
    cases hs'
    obtain ⟨-, hmap⟩ := require_bind_eq_ok.1 hmap
    obtain ⟨-, hmap⟩ := require_bind_eq_ok.1 hmap
    obtain ⟨hroom, hmap⟩ := require_bind_eq_ok.1 hmap
    cases hmap
    change length ≤ s.1.startDynamicSegment at hfits
    refine ⟨hstack, hdata, hroom, List.forall_mem_cons.2 ⟨BitVec.le_refl _, fun r hr ↦ ?_⟩,
      List.pairwise_cons.2 ⟨fun r hr ↦ ?_, hseparate⟩⟩
    · have := habove r hr
      bv_omega
    · -- The region ends where the dynamic segment started before.
      have := habove r hr
      rintro a ⟨-, hlow⟩ ⟨hhigh, -⟩
      dsimp only at hlow
      bv_omega

/-- The stacks have their size, the data segment ends below them, and they end below the regions,
which are disjoint. -/
theorem segments_disjoint (cfg : VmConfig) (hnew : new cfg = .ok vm)
    (hstack : cfg.stackSize < 0x100000000) (hs : (calls vm).Reached Fits s) :
    s.1.endStackSegment.toNat = s.1.startStackSegment.toNat + cfg.stackSize ∧
    s.1.endDataSegment < s.1.startStackSegment ∧ (∀ r ∈ s.2, s.1.endStackSegment < r.1) ∧
    Separate s := by
  have h := hs.invariant (new_apart hstack hnew) fun _ _ _ h ↦ h.step
  refine ⟨h.stack, h.data, fun r hr ↦ ?_, h.separate⟩
  exact Nat.lt_of_lt_of_le h.dynamic (h.above r hr)

/-- The memory of one tile, after a page was mapped twice. -/
theorem segments_disjoint_twice : ∃ vm s, new ⟨0x1000, 1, 0x2000, 0x1000⟩ = .ok vm ∧
    (calls vm).exec (vm, []) [.mmap 0x1000 0x22 (-1), .mmap 0x1000 0x22 (-1)] = .ok s ∧
    Separate s := by
  refine ⟨_, _, rfl, rfl, (segments_disjoint ⟨0x1000, 1, 0x2000, 0x1000⟩ rfl (by decide) ?_).2.2.2⟩
  exact Machine.Reached.start.exec [.mmap 0x1000 0x22 (-1), .mmap 0x1000 0x22 (-1)] (by decide) rfl

/-- The stacks of 1025 tiles of 4 MiB each get 4 MiB together. Of two regions, the second is too long
and starts in the first. -/
theorem segments_overlap :
    (∃ vm, new ⟨0x1000, 1025, 0x2000, 0x400000⟩ = .ok vm ∧
      vm.endStackSegment = vm.startStackSegment + 0x400000) ∧
    ∃ vm s, new ⟨0x1000, 1, 0x2000, 0x1000⟩ = .ok vm ∧
      (calls vm).exec (vm, []) [.mmap 0xefffffc000 0x22 (-1), .mmap 0xfffffffffffff000 0x22 (-1)] =
        .ok s ∧ ¬ Separate s := by
  refine ⟨⟨_, rfl, rfl⟩, _, _, rfl, rfl, fun h ↦ ?_⟩
  have hseparate := (List.pairwise_cons.1 h).1 _ List.mem_cons_self
  exact hseparate 0x5000 ⟨by decide, by decide⟩ ⟨by decide, by decide⟩

end VMManager

end CarbonSim.Vm
