import Mathlib.Tactic
import SysProg.Lib.Rows
import SysProg.Memory.BuddyAllocator
import SysProg.Memory.Os

/-!
# The buddy blocks of `task5-memory/src/buddy_block.c`

A buddy block is a page with 30 buddy allocators, linked to the next block. The page of
an allocator's tree is mapped at its first use; until then its `page` is null.

A null pointer that the code would follow shows as a loop that does not end.
-/

namespace SysProg.Memory

open ByteMemory Rows

@[simp] def sizeofBuddyBlock : ℕ := 8
@[simp] def sizeofBuddyAllocator : ℕ := 8 + 64

/-- `CAPACITY`: allocators per block. -/
def buddyCapacity : ℕ :=
  (pageSize - sizeofBuddyBlock) / (sizeofBuddyAllocator + 64)

/-- `struct BuddyBlock` with the allocators behind it. The field `next` is the order of
the list the block stands in. -/
abbrev BuddyBlock := Row BuddyAllocator buddyCapacity

/-- A block on a zeroed page. -/
def emptyBlock (base : ℕ) : BuddyBlock :=
  emptyRow ⟨0, emptyBitmap⟩ base

/-- The blocks in the order of their `next` pointers, and the page requests so far. -/
structure BuddyHeap where
  blocks : List BuddyBlock
  os : List OsEvent

/-- The loops of `buddy_block_allocate` at allocator `i` of block `b`. -/
structure BlockLoop where
  heap : BuddyHeap
  b : ℕ
  i : ℕ

/-- One step of `buddy_block_allocate`. The result is the pointer, `0` for null. -/
def blockStep (kernel : Kernel) (size : ℕ) (s : BlockLoop) : BlockLoop ⊕ (ℕ × BuddyHeap) :=
  if s.b < s.heap.blocks.length then
    match cell? s.heap.blocks s.b s.i with
    | none =>
        -- past the last allocator of the block
        .inl { s with b := s.b + 1, i := 0 }
    | some allocator =>
        if allocator.page ≠ 0 then
          match buddyAllocatorAllocate allocator size with
          | none => .inl s
          | some (some p, a) => .inr (p, { s.heap with blocks := setCell s.heap.blocks s.b s.i a })
          | some (none, a) =>
              -- try to allocate from the next allocator
              .inl { s with
                heap := { s.heap with blocks := setCell s.heap.blocks s.b s.i a }
                i := s.i + 1 }
        else
          let (page, os) := requestPage kernel s.heap.os buddyAllocatorMaximalAllocation
          if page = 0 then .inr (0, { s.heap with os := os })
          else
            match buddyAllocatorAllocate { allocator with page := page } size with
            | none => .inl s
            | some (p, a) => .inr (p.getD 0, ⟨setCell s.heap.blocks s.b s.i a, os⟩)
  else
    -- a new block at the end; with no page for the first block a null pointer is followed
    let (page, os) := requestPage kernel s.heap.os pageSize
    if page = 0 then (if s.b = 0 then .inl s else .inr (0, { s.heap with os := os }))
    else .inl { s with heap := ⟨s.heap.blocks ++ [emptyBlock page], os⟩ }

section Steps

variable {kernel : Kernel} {size : ℕ} {s : BlockLoop} {a a' : BuddyAllocator}

section

variable (ha : cell? s.heap.blocks s.b s.i = some a)
include ha

/-- An allocator with a page has no block for the size. -/
theorem blockStep_full (hpage : a.page ≠ 0) (hrun : buddyAllocatorAllocate a size = some (none, a)) :
    blockStep kernel size s = .inl { s with i := s.i + 1 } := by
  simp only [blockStep, if_pos (lt_of_cell? ha).1, ha, ne_eq, hpage, not_false_eq_true, if_true,
    hrun, setCell_self ha]

/-- An allocator with a page serves the request. -/
theorem blockStep_serves {p : ℕ} (hpage : a.page ≠ 0)
    (hrun : buddyAllocatorAllocate a size = some (some p, a')) : blockStep kernel size s =
      .inr (p, { s.heap with blocks := setCell s.heap.blocks s.b s.i a' }) := by
  simp only [blockStep, if_pos (lt_of_cell? ha).1, ha, ne_eq, hpage, not_false_eq_true, if_true,
    hrun]

/-- There is no page for an allocator. -/
theorem blockStep_noPage (hpage : a.page = 0)
    (hnone : kernel.mmap s.heap.os buddyAllocatorMaximalAllocation = 0)
    : blockStep kernel size s = .inr (0, { s.heap with
      os := .refuse buddyAllocatorMaximalAllocation :: s.heap.os }) := by
  simp only [blockStep, if_pos (lt_of_cell? ha).1, ha, hpage, ne_eq, not_true_eq_false, if_false,
    requestPage, hnone, if_true]

/-- An allocator answers from a new page. -/
theorem blockStep_newPage {page : ℕ} {r : Option ℕ} (hpage : a.page = 0)
    (heq : kernel.mmap s.heap.os buddyAllocatorMaximalAllocation = page) (hnew : page ≠ 0)
    (hrun : buddyAllocatorAllocate { a with page := page } size = some (r, a'))
    : blockStep kernel size s = .inr (r.getD 0, ⟨setCell s.heap.blocks s.b s.i a',
      .map ⟨page, buddyAllocatorMaximalAllocation⟩ :: s.heap.os⟩) := by
  simp only [blockStep, if_pos (lt_of_cell? ha).1, ha, hpage, ne_eq, not_true_eq_false, if_false,
    requestPage, heq, if_neg hnew, hrun]

end

/-- The end of a block. -/
theorem blockStep_rowEnd (hlt : s.b < s.heap.blocks.length)
    (hnone : cell? s.heap.blocks s.b s.i = none) :
    blockStep kernel size s = .inl { s with b := s.b + 1, i := 0 } := by
  simp only [blockStep, if_pos hlt, hnone]

/-- A new block at the end. -/
theorem blockStep_newBlock {page : ℕ} (hend : ¬ s.b < s.heap.blocks.length)
    (heq : kernel.mmap s.heap.os pageSize = page) (hnew : page ≠ 0) :
    blockStep kernel size s = .inl { s with
      heap := ⟨s.heap.blocks ++ [emptyBlock page], .map ⟨page, pageSize⟩ :: s.heap.os⟩ } := by
  simp only [blockStep, if_neg hend, requestPage, heq, if_neg hnew]

/-- There is no page for another block. -/
theorem blockStep_noBlock (hend : ¬ s.b < s.heap.blocks.length) (hb : s.b ≠ 0)
    (hnone : kernel.mmap s.heap.os pageSize = 0) :
    blockStep kernel size s = .inr (0, { s.heap with os := .refuse pageSize :: s.heap.os }) := by
  simp only [blockStep, if_neg hend, requestPage, if_pos hnone, if_neg hb]

/-- There is no page for the first block. -/
theorem blockStep_noFirst (hend : ¬ s.b < s.heap.blocks.length) (hb : s.b = 0)
    (hnone : kernel.mmap s.heap.os pageSize = 0) : blockStep kernel size s = .inl s := by
  simp only [blockStep, if_neg hend, requestPage, if_pos hnone, if_pos hb]

end Steps

/-- `buddy_block_allocate`. -/
def buddyBlockAllocate (kernel : Kernel) (heap : BuddyHeap) (size : ℕ) : Option (ℕ × BuddyHeap) :=
  Loop.run (blockStep kernel size) (32 * (heap.blocks.length + 2)) ⟨heap, 0, 0⟩

/-- `buddy_block`: the first block is created at the first use. -/
def initialBlock (kernel : Kernel) (heap : BuddyHeap) : BuddyHeap :=
  if heap.blocks = [] then
    let (page, os) := requestPage kernel heap.os pageSize
    if page = 0 then { heap with os := os } else ⟨[emptyBlock page], os⟩
  else heap

/-- The page of the allocator contains the pointer. -/
def BuddyAllocator.owns (a : BuddyAllocator) (pointer : ℕ) : Bool :=
  !(a.page = 0 || a.page > pointer || a.page + buddyAllocatorMaximalAllocation ≤ pointer)

/-- `buddy_block_deallocate`: false if no allocator owns the pointer. -/
def buddyBlockDeallocate (kernel : Kernel) (heap : BuddyHeap) (pointer : ℕ) :
    Option (Bool × BuddyHeap) := do
  let heap := initialBlock kernel heap
  match find (fun a => a.owns pointer) heap.blocks with
  | none => return (false, heap)
  | some (b, i) =>
      let allocator ← cell? heap.blocks b i
      let a ← buddyAllocatorDeallocate allocator pointer
      return (true, { heap with blocks := setCell heap.blocks b i a })

/-! ## Reallocation -/

/-- What `buddy_block_reallocate` leaves behind: the pointer it returns, `0` for null, the
out parameter, the blocks and the copies it made. -/
structure BlockReallocated where
  pointer : ℕ
  currentAllocationSize : ℕ
  heap : BuddyHeap
  copies : List Copy

/-- `buddy_block_reallocate`. -/
def buddyBlockReallocate (kernel : Kernel) (heap : BuddyHeap) (pointer size : ℕ) :
    Option BlockReallocated := do
  let heap := initialBlock kernel heap
  match find (fun a => a.owns pointer) heap.blocks with
  | none => return ⟨0, 0, heap, []⟩
  | some (b, i) =>
      let allocator ← cell? heap.blocks b i
      let r ← buddyAllocatorReallocate allocator pointer size
      let heap := { heap with blocks := setCell heap.blocks b i r.allocator }
      match r.pointer with
      | some insertion => return ⟨insertion, r.currentAllocationSize, heap, r.copy.toList⟩
      | none =>
          -- the current size has been written at this point
          if size > directAllocationThreshold then
            return ⟨0, r.currentAllocationSize, heap, r.copy.toList⟩
          let (insertion, heap) ← buddyBlockAllocate kernel heap size
          if insertion = 0 then return ⟨0, r.currentAllocationSize, heap, r.copy.toList⟩
          let (_, heap) ← buddyBlockDeallocate kernel heap pointer
          return ⟨insertion, r.currentAllocationSize, heap,
            r.copy.toList ++ [⟨insertion, pointer, r.currentAllocationSize⟩]⟩

end SysProg.Memory
