import Mathlib.Tactic
import SysProg.Lib.Loop
import SysProg.Lib.Spans
import SysProg.Memory.Os

/-!
# The slot allocator of `task5-memory/src/slot_allocator.c`

An arena of 32 pages holds 248 slots of 528 bytes. An allocation is a span of slots;
the header of the span (`struct Slot`) stands in front of the first slot's data. A
slot that does not begin a span holds no valid header: there is user data, or what an
earlier span left behind. The headers of an arena are therefore a total function of the
slot index, and copies and writes of user data show as changes of headers inside spans.

Loops are step functions run by `Loop.run`; `none` means that the code does not return.
-/

namespace SysProg.Memory

open ByteMemory Spans

/-- `struct Slot`. -/
abbrev Slot := Span

/-- `sizeof(struct Slot)` and `sizeof(struct SlotAllocator)`. -/
@[simp] def sizeofSlot : ℕ := 16
@[simp] def sizeofSlotAllocator : ℕ := 16

@[simp] def slotSize : ℕ := slotAllocatorSlotSize + sizeofSlot
def slotCount : ℕ := (slotAllocatorSize - sizeofSlotAllocator) / slotSize

/-- `struct SlotAllocator` with the slots behind it. The field `next` is the order of
the list the arena stands in. -/
structure SlotArena where
  base : ℕ
  cursor : ℕ
  slots : ℕ → Slot

/-- `slot + 1` for the header `get_slot(allocator, i)`: the pointer the user gets. -/
def slotPointer (base i : ℕ) : ℕ :=
  base + sizeofSlotAllocator + i * slotSize + sizeofSlot

/-- `slot_to_index` of the header in front of a user pointer. -/
def slotToIndex (base pointer : ℕ) : ℕ :=
  (pointer - sizeofSlot - base - sizeofSlotAllocator) / slotSize

/-- The pointer lies in the memory of the arena. -/
def inArena (base pointer : ℕ) : Bool :=
  !(pointer < base || pointer ≥ base + slotAllocatorSize)

/-- `create` on a zeroed page: one free span of all slots. -/
def create (page : ℕ) : SlotArena where
  base := page
  cursor := 0
  slots := Function.update (fun _ => ⟨0, false⟩) 0 ⟨slotCount, false⟩

/-- The number of slots for a header and `size` bytes, in `size_t` arithmetic. -/
def requiredSlots (size : ℕ) : ℕ :=
  let bytes := (sizeofSlot + size) % 2 ^ 64
  let slots := bytes / slotSize
  if slots * slotSize < bytes then slots + 1 else slots

/-- `get_successor_slot`. -/
def SlotArena.successor (a : SlotArena) (i : ℕ) : Slot :=
  a.slots (i + (a.slots i).length)

/-- The length of the span at `i` is extended by its successor's. -/
def SlotArena.mergeNext (a : SlotArena) (i : ℕ) : SlotArena :=
  let slot := a.slots i
  let merged := { slot with length := slot.length + (a.successor i).length }
  { a with slots := Function.update a.slots i merged }

/-- The span at `i` is cut to `required` slots, what it has more than that becomes a
free span behind it. The new header is written before the length is. -/
def cut (slots : ℕ → Slot) (i required : ℕ) : ℕ → Slot :=
  let rest := Function.update slots (i + required) ⟨(slots i).length - required, false⟩
  Function.update rest i { rest i with length := required }

/-- The span at `i` is taken for `required` slots, and the cursor moves behind it. -/
def SlotArena.take (a : SlotArena) (i required : ℕ) : SlotArena :=
  let slots := Function.update a.slots i { a.slots i with used := true }
  { a with
    slots := if (slots i).length > required then cut slots i required else slots
    cursor := i + required }

/-! ## Allocation -/

/-- One step of the search through an arena. An unused span is merged with its unused
successors before it is judged; the merging is one successor per step. -/
def searchStep (required : ℕ) (s : SlotArena × ℕ) :
    (SlotArena × ℕ) ⊕ (SlotArena × Option ℕ) :=
  let (a, i) := s
  let slot := a.slots i
  if !(i < slotCount) then .inr (a, none)
  else if slot.used then .inl (a, i + slot.length)
  else if i + slot.length < slotCount && !(a.successor i).used then .inl (a.mergeNext i, i)
  else if slot.length < required then .inl (a, i + slot.length)
  else .inr (a.take i required, some i)

/-- A bound on the steps of one search, see `searchMeasure`. -/
def searchFuel : ℕ := 512

/-- The search of one arena from its cursor: the index of the span, if there is one. -/
def searchArena (a : SlotArena) (required : ℕ) : Option (SlotArena × Option ℕ) :=
  Loop.run (searchStep required) searchFuel (a, a.cursor)

/-- The arenas in the order of their `next` pointers, and the page requests so far. -/
structure SlotHeap where
  arenas : List SlotArena
  os : List OsEvent

/-- The outer loop of `slot_allocator_allocate` at the arena with number `index`. The
result is the pointer, `0` for null. A search that does not end keeps the loop where
it is. -/
def allocateArenaStep (kernel : Kernel) (required : ℕ) (s : SlotHeap × ℕ) :
    (SlotHeap × ℕ) ⊕ (ℕ × SlotHeap) :=
  let (heap, index) := s
  match heap.arenas[index]? with
  | some a =>
      match searchArena a required with
      | none => .inl s
      | some (a, some i) => .inr (slotPointer a.base i, { heap with arenas := heap.arenas.set index a })
      | some (a, none) => .inl ({ heap with arenas := heap.arenas.set index a }, index + 1)
  | none =>
      let (page, os) := requestPage kernel heap.os slotAllocatorSize
      if page = 0 then .inr (0, { heap with os := os })
      else .inl ({ arenas := heap.arenas ++ [create page], os := os }, index)

/-- `slot_allocator_allocate` with at most `rounds` rounds of the outer loop. A request that
no arena can hold creates arenas until there is no page for another one. -/
def slotAllocatorAllocateWithin (kernel : Kernel) (rounds : ℕ) (heap : SlotHeap) (size : ℕ) :
    Option (ℕ × SlotHeap) :=
  Loop.run (allocateArenaStep kernel (requiredSlots size)) rounds (heap, 0)

/-- `slot_allocator_allocate` for a request that an arena can hold. -/
def slotAllocatorAllocate (kernel : Kernel) (heap : SlotHeap) (size : ℕ) :
    Option (ℕ × SlotHeap) :=
  slotAllocatorAllocateWithin kernel (heap.arenas.length + 3) heap size

/-! ## Deallocation -/

/-- `slot_allocator`: the first arena is created at the first use. With no memory for
it the functions below follow a null pointer, which is `none`. -/
def initialArena (kernel : Kernel) (heap : SlotHeap) : Option SlotHeap :=
  if heap.arenas = [] then
    let (page, os) := requestPage kernel heap.os slotAllocatorSize
    if page = 0 then none else some { arenas := [create page], os := os }
  else some heap

/-- The number of the first arena that contains the pointer. -/
def findArena (heap : SlotHeap) (pointer : ℕ) : Option ℕ :=
  heap.arenas.findIdx? fun a => inArena a.base pointer

/-- The span at `i` becomes unused. -/
def SlotArena.markUnused (a : SlotArena) (i : ℕ) : SlotArena :=
  { a with slots := Function.update a.slots i { a.slots i with used := false } }

/-- The part of `slot_allocator_deallocate` inside the arena of the pointer. -/
def SlotArena.free (a : SlotArena) (i : ℕ) : SlotArena :=
  { a.markUnused i with cursor := if i < a.cursor then i else a.cursor }

/-- Change the arena with number `index`. -/
def SlotHeap.modify (heap : SlotHeap) (index : ℕ) (f : SlotArena → SlotArena) : SlotHeap :=
  { heap with arenas := heap.arenas.modify index f }

/-- `slot_allocator_deallocate`: false if no arena contains the pointer. -/
def slotAllocatorDeallocate (kernel : Kernel) (heap : SlotHeap) (pointer : ℕ) :
    Option (Bool × SlotHeap) := do
  let heap ← initialArena kernel heap
  match findArena heap pointer with
  | none => return (false, heap)
  | some index =>
      return (true, heap.modify index fun a => a.free (slotToIndex a.base pointer))

/-! ## Reallocation -/

/-- The merging loop of `slot_allocator_reallocate`. It goes on while the length does
not exceed the request, so it may take one span more than it needs. -/
def expandStep (i required : ℕ) (a : SlotArena) : SlotArena ⊕ SlotArena :=
  let slot := a.slots i
  if i + slot.length < slotCount && !(a.successor i).used && slot.length ≤ required then
    .inl (a.mergeNext i)
  else .inr a

/-- The span at `i` is cut to `required` slots if it is longer. -/
def SlotArena.trim (a : SlotArena) (i required : ℕ) : SlotArena :=
  if (a.slots i).length > required then { a with slots := cut a.slots i required } else a

/-- `memcpy(new_pointer, pointer, length * SLOT_SIZE)` as it shows in the headers: the
copied bytes contain what stands at the header positions behind the source. -/
def copyHeaders (source : SlotArena) (i : ℕ) (target : SlotArena) (j length : ℕ) : SlotArena :=
  { target with
    slots := fun k =>
      if j < k ∧ k ≤ j + length then source.slots (i + (k - j)) else target.slots k }

/-- The end of `slot_allocator_reallocate` after a move to `newPointer`: copy the data of
the span at `i`, then release the span. -/
def moveSpan (heap : SlotHeap) (index i newPointer : ℕ) : Option SlotHeap := do
  let target ← findArena heap newPointer
  let source ← heap.arenas[index]?
  let heap := heap.modify target fun b =>
    copyHeaders source i b (slotToIndex b.base newPointer) (source.slots i).length
  return heap.modify index fun a => a.markUnused i

/-- What `slot_allocator_reallocate` leaves behind: the pointer it returns, `0` for null
(also for a pointer that no arena contains), the arenas and the copies it made. -/
structure SpanReallocated where
  pointer : ℕ
  heap : SlotHeap
  copies : List Copy

/-- `slot_allocator_reallocate`, with at most `rounds` rounds of the search for a new span. -/
def slotAllocatorReallocateWithin (kernel : Kernel) (rounds : ℕ) (heap : SlotHeap)
    (pointer size : ℕ) : Option SpanReallocated := do
  let required := requiredSlots size
  let heap ← initialArena kernel heap
  match findArena heap pointer with
  | none => return ⟨0, heap, []⟩
  | some index =>
      let a ← heap.arenas[index]?
      let i := slotToIndex a.base pointer
      let expanded ← Loop.run (expandStep i required) (slotCount + 1) a
      let a := expanded.trim i required
      if (a.slots i).length = required then
        return ⟨pointer, heap.modify index fun _ => { a with cursor := i + required }, []⟩
      let (newPointer, heap) ←
        slotAllocatorAllocateWithin kernel rounds (heap.modify index fun _ => a) size
      if newPointer = 0 then return ⟨0, heap, []⟩
      let source ← heap.arenas[index]?
      let copy : Copy := ⟨newPointer, pointer, (source.slots i).length * slotSize⟩
      let heap ← moveSpan heap index i newPointer
      return ⟨newPointer, heap, [copy]⟩

/-- `slot_allocator_reallocate` for a request that an arena can hold. -/
def slotAllocatorReallocate (kernel : Kernel) (heap : SlotHeap) (pointer size : ℕ) :
    Option (ℕ × SlotHeap) := do
  let r ← slotAllocatorReallocateWithin kernel (heap.arenas.length + 4) heap pointer size
  return (r.pointer, r.heap)

end SysProg.Memory
