import Mathlib.Tactic

/-!
# The configuration of `task5-memory/src/common.h`

Sizes and addresses are natural numbers; `0` is the null pointer. Where the code
relies on the wrap-around of `size_t` the reduction modulo `2 ^ 64` is written out.
-/

namespace SysProg.Memory

@[simp] def pageSize : ℕ := 4096
@[simp] def allocationGranularity : ℕ := 16

@[simp] def buddyAllocatorDepth : ℕ := 9
@[simp] def buddyAllocatorNodeCount : ℕ := (1 <<< buddyAllocatorDepth) - 1
def buddyAllocatorBitmapSize : ℕ := (buddyAllocatorNodeCount + 7) / 8
@[simp] def buddyAllocatorMaximalAllocation : ℕ :=
  allocationGranularity * (1 <<< (buddyAllocatorDepth - 1))

@[simp] def slotAllocatorSize : ℕ := 32 * pageSize
@[simp] def slotAllocatorThreshold : ℕ := 500
@[simp] def slotAllocatorSlotSize : ℕ := 512

@[simp] def directAllocationThreshold : ℕ := 2 * pageSize

end SysProg.Memory
