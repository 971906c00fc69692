import Mathlib.Tactic
import SysProg.Lib.Lts
import SysProg.Memory.BuddyHeap
import SysProg.Memory.DirectAllocator
import SysProg.Memory.SlotRuns

/-!
# `malloc_impl` and `free_impl` of `task5-memory/src/allocator.c`

Requests go to one of three sub-allocators by their size; `free_impl` asks them one
after the other whether the pointer is theirs.

* `mallocImpl`, `freeImpl` — the two functions over the joint heap;
* `Heap.Allocated o p k` — sub-allocator `o` has handed out the block at `p`;
* `HeapOk` — the invariants of the three parts, and that none of all the mappings
  overlap;
* `Contract` — what a client of `malloc` and `free` relies on;
* `malloc_free_contract` — it holds in every reachable state.
-/

namespace SysProg.Memory

open Rows Spans Lts

/-! ## The model -/

/-- The static variables of the three sub-allocators, and the page requests so far. -/
structure Heap where
  blocks : List BuddyBlock
  arenas : List SlotArena
  tables : List DirectTable
  os : List OsEvent

namespace Heap

def buddy (heap : Heap) : BuddyHeap := ⟨heap.blocks, heap.os⟩
def slot (heap : Heap) : SlotHeap := ⟨heap.arenas, heap.os⟩
def direct (heap : Heap) : DirectHeap := ⟨heap.tables, heap.os⟩

def setBuddy (heap : Heap) (part : BuddyHeap) : Heap :=
  { heap with blocks := part.blocks, os := part.os }

def setSlot (heap : Heap) (part : SlotHeap) : Heap :=
  { heap with arenas := part.arenas, os := part.os }

def setDirect (heap : Heap) (part : DirectHeap) : Heap :=
  { heap with tables := part.tables, os := part.os }

end Heap

inductive SubAllocator where
  | buddy
  | slot
  | direct
deriving DecidableEq, Repr

/-- `malloc_impl`: the pointer, `0` for null, and the heap. -/
def mallocImpl (kernel : Kernel) (heap : Heap) (size : ℕ) : Option (ℕ × Heap) :=
  if size < slotAllocatorThreshold then do
    let (p, part) ← buddyBlockAllocate kernel heap.buddy size
    return (p, heap.setBuddy part)
  else if size < directAllocationThreshold then do
    let (p, part) ← slotAllocatorAllocate kernel heap.slot size
    return (p, heap.setSlot part)
  else do
    let (p, part) ← directAllocatorAllocate kernel heap.direct size
    return (p, heap.setDirect part)

/-- `free_impl`. The result also tells which of the three calls returned true. -/
def freeImpl (kernel : Kernel) (heap : Heap) (pointer : ℕ) :
    Option (Option SubAllocator × Heap) := do
  let (found, part) ← directAllocatorDeallocate kernel heap.direct pointer
  let heap := heap.setDirect part
  if found then return (some .direct, heap)
  let (found, part) ← slotAllocatorDeallocate kernel heap.slot pointer
  let heap := heap.setSlot part
  if found then return (some .slot, heap)
  let (found, part) ← buddyBlockDeallocate kernel heap.buddy pointer
  let heap := heap.setBuddy part
  return (if found then some .buddy else none, heap)

/-! ## What the client sees -/

/-- The sub-allocator that a size is for. -/
def issuer (size : ℕ) : SubAllocator :=
  if size < slotAllocatorThreshold then .buddy
  else if size < directAllocationThreshold then .slot
  else .direct

/-- What the sub-allocator records of a request: the bucket, the number of slots or the
size of the mapping. -/
def units : SubAllocator → ℕ → ℕ
  | .buddy, size => fitBucket size
  | .slot, size => requiredSlots size
  | .direct, size => size

/-- The bytes of a block: the bucket, the slots without the first header, or the pages. -/
def capacity : SubAllocator → ℕ → ℕ
  | .buddy, bucket => bucketSize bucket
  | .slot, slots => slots * slotSize - sizeofSlot
  | .direct, size => pageExtent size

/-- A block of the client: the pointer and the size it asked for. -/
structure LiveBlock where
  pointer : ℕ
  size : ℕ
deriving DecidableEq, Repr

namespace LiveBlock

def owner (x : LiveBlock) : SubAllocator := issuer x.size
def units (x : LiveBlock) : ℕ := Memory.units x.owner x.size
def usable (x : LiveBlock) : ℕ := capacity x.owner x.units

end LiveBlock

structure MallocState where
  heap : Heap
  live : List LiveBlock

inductive MallocOp where
  | malloc (size : ℕ)
  | free (pointer : ℕ)
  | write (block : LiveBlock) (headers : ℕ → Slot)

/-- The client asks for at least one byte, and uses only blocks that are live. -/
def MallocOp.Allowed (s : MallocState) : MallocOp → Prop
  | .malloc size => 1 ≤ size
  | .free p => ∃ x ∈ s.live, x.pointer = p
  | .write x _ => x ∈ s.live

/-- The blocks that are left when the block at `p` is given up. -/
def releaseLive (p : ℕ) (live : List LiveBlock) : List LiveBlock :=
  live.filter fun x => x.pointer ≠ p

/-- One call of the client, and its account of the blocks afterwards. A write to a block
changes allocator data only at the header positions inside a block of slots. -/
def mallocStep (kernel : Kernel) (op : MallocOp) (s : MallocState) : Option MallocState :=
  match op with
  | .malloc size => do
      let (p, heap) ← mallocImpl kernel s.heap size
      if p = 0 then return ⟨heap, s.live⟩
      return ⟨heap, ⟨p, size⟩ :: s.live⟩
  | .free p => do
      let (_, heap) ← freeImpl kernel s.heap p
      return ⟨heap, releaseLive p s.live⟩
  | .write x headers =>
      if x.owner = .slot then do
        let part ← writeBlock s.heap.slot ⟨x.pointer, requiredSlots x.size⟩ headers
        return ⟨s.heap.setSlot part, s.live⟩
      else some s

def emptyHeap : MallocState := ⟨⟨[], [], [], []⟩, []⟩

def mallocSystem (kernel : Kernel) : System MallocState MallocOp where
  Init s := s = emptyHeap
  Next op s s' := op.Allowed s ∧ mallocStep kernel op s = some s'

namespace Heap

/-- Sub-allocator `o` has handed out the block at `p`. -/
def Allocated (heap : Heap) : SubAllocator → ℕ → ℕ → Prop
  | .buddy, p, bucket => heap.buddy.Allocated p bucket
  | .slot, p, slots => heap.slot.Used p slots
  | .direct, p, size => heap.direct.Allocated p size

/-- The mappings that the sub-allocators make their blocks from. -/
def Maps (heap : Heap) : SubAllocator → Range → Prop
  | .buddy, r => ∃ b i a, cell? heap.blocks b i = some a ∧ treeRange a = some r
  | .slot, r => ∃ a ∈ heap.arenas, r = ⟨a.base, slotAllocatorSize⟩
  | .direct, r => ∃ t i e, cell? heap.tables t i = some e ∧ entryRange e = some r

/-- The data of the allocators themselves: the pages of the buddy blocks and of the
tables of mappings, and in an arena its own header and those of the spans. -/
def Metadata (heap : Heap) (x : ℕ) : Prop :=
  (∃ block ∈ heap.blocks, Range.Has ⟨block.base, pageSize⟩ x) ∨
  (∃ a ∈ heap.arenas, a.base ≤ x ∧ x < a.base + sizeofSlotAllocator ∨
    ∃ k, Start a.slots slotCount k ∧ slotPointer a.base k - sizeofSlot ≤ x ∧
      x < slotPointer a.base k) ∨
  (∃ table ∈ heap.tables, Range.Has ⟨table.base, pageSize⟩ x)

end Heap

/-- The contract of `malloc` and `free`. -/
structure Contract (kernel : Kernel) (s : MallocState) : Prop where
  disjoint : s.live.Pairwise fun x y =>
    x.pointer + x.usable ≤ y.pointer ∨ y.pointer + y.usable ≤ x.pointer
  mapped : ∀ x ∈ s.live, ∃ r, s.heap.Maps x.owner r ∧ r.Holds x.pointer x.usable ∧
    ∀ y, r.Has y → Mapped s.heap.os y
  outside : ∀ x ∈ s.live, ∀ y, x.pointer ≤ y → y < x.pointer + x.usable → ¬ s.heap.Metadata y
  usable : ∀ x ∈ s.live, x.size ≤ x.usable
  aligned : ∀ x ∈ s.live, 16 ∣ x.pointer
  issued : ∀ o p k, s.heap.Allocated o p k ↔
    ∃ x ∈ s.live, x.owner = o ∧ x.pointer = p ∧ x.units = k
  freed : ∀ x ∈ s.live, ∃ heap', freeImpl kernel s.heap x.pointer = some (some x.owner, heap') ∧
    ∀ o p k, heap'.Allocated o p k ↔ s.heap.Allocated o p k ∧ p ≠ x.pointer

/-! ## The invariant of the heap -/

/-- All mappings of the three sub-allocators. -/
def heapRegion (heap : Heap) : RowRegion ⊕ ℕ ⊕ RowRegion → Option Range :=
  Sum.elim (buddyRegion heap.blocks)
    (Sum.elim (arenaRegion (heap.arenas.map SlotArena.base)) (directRegion heap.tables))

/-- The sub-allocator that hands out blocks of a mapping; none for the pages that hold
only data of the allocators. -/
def dataOwner : RowRegion ⊕ ℕ ⊕ RowRegion → Option SubAllocator
  | .inl (.cell _ _) => some .buddy
  | .inr (.inl _) => some .slot
  | .inr (.inr (.cell _ _)) => some .direct
  | _ => none

/-- Only blocks of sub-allocator `o` may have changed. -/
def Others (o : SubAllocator) (heap heap' : Heap) : Prop :=
  ∀ o' q k, o' ≠ o → (heap'.Allocated o' q k ↔ heap.Allocated o' q k)

structure HeapOk (heap : Heap) : Prop where
  regions : RegionsOk (heapRegion heap) heap.os
  buddy : BuddyOk heap.buddy
  tiled : ∀ a ∈ heap.arenas, Tiled a
  cursor : ∀ a ∈ heap.arenas, CursorOk a
  direct : DirectOk heap.direct

variable {kernel : Kernel} {heap heap' : Heap} {o o' : SubAllocator} {p q k m size : ℕ}
  {s s' : MallocState} {x y : LiveBlock} {live : List LiveBlock} {r : Range} {part : DirectHeap}

theorem others_setBuddy (part : BuddyHeap) : Others .buddy heap (heap.setBuddy part)
  | .buddy, _, _, ho => absurd rfl ho
  | .slot, _, _, _ => Iff.rfl
  | .direct, _, _, _ => Iff.rfl

theorem others_setSlot (part : SlotHeap) : Others .slot heap (heap.setSlot part)
  | .buddy, _, _, _ => Iff.rfl
  | .slot, _, _, ho => absurd rfl ho
  | .direct, _, _, _ => Iff.rfl

theorem others_setDirect (part : DirectHeap) : Others .direct heap (heap.setDirect part)
  | .buddy, _, _, _ => Iff.rfl
  | .slot, _, _, _ => Iff.rfl
  | .direct, _, _, ho => absurd rfl ho

namespace HeapOk

variable (h : HeapOk heap)
include h

theorem buddyRegions : RegionsOk (buddyRegion heap.blocks) heap.os :=
  h.regions.comp Sum.inl_injective

theorem directRegions : RegionsOk (directRegion heap.tables) heap.os :=
  h.regions.comp (Sum.inr_injective.comp Sum.inr_injective)

theorem slotOk : SlotOk heap.slot :=
  ⟨h.regions.comp (Sum.inr_injective.comp Sum.inl_injective), h.tiled, h.cursor⟩

omit h in
/-- Data mappings are regions of the heap. -/
theorem maps_region (hr : heap.Maps o r) :
    ∃ i, heapRegion heap i = some r ∧ dataOwner i = some o := by
  cases o with
  | buddy =>
    rcases hr with ⟨b, i, a, ha, hown⟩
    exact ⟨.inl (.cell b i), rowRegion_cell ha hown, rfl⟩
  | slot =>
    rcases hr with ⟨a, ha, rfl⟩
    rcases List.mem_iff_getElem?.mp ha with ⟨j, hj⟩
    exact ⟨.inr (.inl j), by simp [heapRegion, arenaRegion, hj], rfl⟩
  | direct =>
    rcases hr with ⟨t, i, e, he, hown⟩
    exact ⟨.inr (.inr (.cell t i)), rowRegion_cell he hown, rfl⟩

/-- A block lies in one mapping of its sub-allocator. -/
theorem holds (hall : heap.Allocated o p k) :
    0 < capacity o k ∧ ∃ r, heap.Maps o r ∧ r.Holds p (capacity o k) := by
  cases o with
  | buddy =>
    rcases allocated_iff.mp hall with ⟨b, i, a, n, hhands⟩
    exact ⟨bucketSize_pos hhands.node.depth, _,
      ⟨b, i, a, hhands.cell, treeRange_of_page hhands.page⟩, hhands.node.holds⟩
  | slot =>
    rcases h.slotOk.locate hall with ⟨index, a, i, -, hmem, hi, rfl, -⟩
    have hbounds := hi.bounds (h.tiled a hmem)
    refine ⟨?_, _, ⟨a, hmem, rfl⟩, slotPointer_holds _ hbounds.1 hbounds.2⟩
    simp only [capacity, slotSize, slotAllocatorSlotSize, sizeofSlot]
    omega
  | direct =>
    have hsize := h.direct p k hall
    rcases hall with ⟨hp, t, i, he⟩
    exact ⟨pageExtent_pos hsize, _, ⟨t, i, _, he, if_neg hp⟩, le_rfl, le_rfl⟩

/-- An address lies in mappings of one sub-allocator only. -/
theorem maps_unique {t : Range} {y : ℕ} (hr : heap.Maps o r) (ht : heap.Maps o' t) (hy : r.Has y)
    (hy' : t.Has y) : o = o' := by
  rcases maps_region hr with ⟨i, hi, hio⟩
  rcases maps_region ht with ⟨j, hj, hjo⟩
  have heq := h.regions.apart i j r t y hi hj hy hy'
  rw [heq, hjo] at hio
  exact (Option.some.inj hio).symm

/-- Blocks that are handed out are disjoint. -/
theorem disjoint (hx : heap.Allocated o p k) (hy : heap.Allocated o' q m)
    (hne : (o, p) ≠ (o', q)) : p + capacity o k ≤ q ∨ q + capacity o' m ≤ p := by
  by_cases ho : o = o'
  · subst ho
    have hpq : p ≠ q := fun heq => hne (by rw [heq])
    cases o with
    | buddy => exact BuddyHeap.Allocated.disjoint h.buddy h.buddyRegions hx hy hpq
    | slot => exact SlotHeap.Used.disjoint h.slotOk hx hy hpq
    | direct => exact DirectHeap.Allocated.disjoint h.direct h.directRegions hx hy hpq
  · -- the later of the two pointers would lie in mappings of both
    rcases h.holds hx with ⟨hk, r, hr, hholds⟩
    rcases h.holds hy with ⟨hm, t, ht, hholds'⟩
    by_contra hover
    have h1 := hholds.has (x := max p q) (by omega) (by omega)
    have h2 := hholds'.has (x := max p q) (by omega) (by omega)
    exact ho (h.maps_unique hr ht h1 h2)

/-- A block contains its pointer. -/
theorem has (hx : heap.Allocated o p k) : ∃ r, heap.Maps o r ∧ r.Has p := by
  rcases h.holds hx with ⟨hk, r, hr, hholds⟩
  exact ⟨r, hr, hholds.has le_rfl (Nat.lt_add_of_pos_right hk)⟩

/-- A pointer is handed out by one sub-allocator. -/
theorem owner_unique (hx : heap.Allocated o p k) (hy : heap.Allocated o' p m) : o = o' := by
  rcases h.has hx with ⟨r, hr, hp⟩
  rcases h.has hy with ⟨t, ht, hp'⟩
  exact h.maps_unique hr ht hp hp'

theorem nonzero (hx : heap.Allocated o p k) : p ≠ 0 := by
  rcases h.has hx with ⟨r, hr, hp⟩
  rcases maps_region hr with ⟨i, hi, -⟩
  have hbase := h.regions.nonzero i r hi
  have hle := hp.1
  omega

theorem mapped {y : ℕ} (hr : heap.Maps o r) (hy : r.Has y) : Mapped heap.os y := by
  rcases maps_region hr with ⟨i, hi, -⟩
  exact h.regions.mapped i r y hi hy

/-! ### Replacing one part -/

theorem setBuddy {part : BuddyHeap} (hok : BuddyOk part)
    (hgrown : Grown kernel (buddyRegion heap.blocks) heap.os (buddyRegion part.blocks) part.os) :
    HeapOk (heap.setBuddy part) :=
  ⟨hgrown.inl.regionsOk h.regions, hok, h.tiled, h.cursor, h.direct⟩

theorem setSlot {part : SlotHeap} (hok : SlotOk part)
    (hgrown : Grown kernel (arenaRegion heap.slot.bases) heap.os (arenaRegion part.bases) part.os) :
    HeapOk (heap.setSlot part) :=
  ⟨hgrown.inl.inr.regionsOk h.regions, ⟨h.buddy.tree, h.buddy.unused⟩, hok.tiled, hok.cursor, h.direct⟩

theorem setDirect (hok : DirectOk part)
    (hgrown : Grown kernel (directRegion heap.tables) heap.os (directRegion part.tables) part.os) :
    HeapOk (heap.setDirect part) :=
  ⟨hgrown.inr.inr.regionsOk h.regions, ⟨h.buddy.tree, h.buddy.unused⟩, h.tiled, h.cursor, hok⟩

/-- One mapping of the direct allocator becomes another one, or goes. -/
theorem updateDirect {t i : ℕ} {mapping : Option Range} (hok : DirectOk part)
    (hnew : directRegion part.tables =
      Function.update (directRegion heap.tables) (.cell t i) mapping)
    (hregions : RegionsOk (Function.update (heapRegion heap) (.inr (.inr (.cell t i))) mapping)
      part.os) : HeapOk (heap.setDirect part) := by
  refine ⟨?_, ⟨h.buddy.tree, h.buddy.unused⟩, h.tiled, h.cursor, hok⟩
  rw [heapRegion, Sum.update_elim_inr, Sum.update_elim_inr, ← hnew] at hregions
  exact hregions

end HeapOk

/-! ## `malloc_impl` -/

/-- Sub-allocator `o` has handed out one block more, which was not handed out before. -/
structure Granted (heap : Heap) (o : SubAllocator) (p k : ℕ) (heap' : Heap) : Prop where
  ok : HeapOk heap'
  allocated : ∀ o' q m, heap'.Allocated o' q m ↔
    heap.Allocated o' q m ∨ o' = o ∧ q = p ∧ m = k
  fresh : ∀ m, ¬ heap.Allocated o p m

/-- It is enough to look at the sub-allocator that hands out the block. -/
theorem granted_of_part (hok : HeapOk heap') (hother : Others o heap heap')
    (hpart : ∀ q m, heap'.Allocated o q m ↔ heap.Allocated o q m ∨ q = p ∧ m = k)
    (hfresh : ∀ m, ¬ heap.Allocated o p m) : Granted heap o p k heap' := by
  refine ⟨hok, ?_, hfresh⟩
  intro o' q m
  by_cases ho : o' = o
  · subst ho
    simpa using hpart q m
  · simpa [ho] using hother o' q m ho

theorem Granted.new (h : Granted heap o p k heap') : heap'.Allocated o p k :=
  (h.allocated _ _ _).mpr (.inr ⟨rfl, rfl, rfl⟩)

/-- The new block is not at the pointer of an old one. -/
theorem Granted.unallocated (h : Granted heap o p k heap') : ¬ heap.Allocated o' p m := by
  intro hold
  have howner := h.ok.owner_unique h.new ((h.allocated _ _ _).mpr (.inl hold))
  exact h.fresh m (howner ▸ hold)

/-- The outcome of `malloc_impl`. -/
abbrev Malloced (heap : Heap) (size p : ℕ) (heap' : Heap) : Prop :=
  Granted heap (issuer size) p (units (issuer size) size) heap'

/-- A call that leaves all blocks as they are. At most pages for data of the allocators are
new. -/
structure Passed (heap heap' : Heap) : Prop where
  ok : HeapOk heap'
  allocated : ∀ o q k, heap'.Allocated o q k ↔ heap.Allocated o q k

theorem Passed.trans {heap₁ heap₂ : Heap} (h : Passed heap heap₁) (h' : Passed heap₁ heap₂) :
    Passed heap heap₂ :=
  ⟨h'.ok, fun o q k => by rw [h'.allocated, h.allocated]⟩

theorem passed_of_part (hok : HeapOk heap') (hother : Others o heap heap')
    (hpart : ∀ q k, heap'.Allocated o q k ↔ heap.Allocated o q k) : Passed heap heap' := by
  refine ⟨hok, ?_⟩
  intro o' q k
  by_cases ho : o' = o
  · subst ho
    exact hpart q k
  · exact hother o' q k ho

/-- Data in a block of slots is nothing to the allocators. -/
theorem HeapOk.write_passes (kernel : Kernel) (h : HeapOk heap) (hused : heap.Allocated .slot p k)
    (headers : ℕ → Slot) : ∃ part, writeBlock heap.slot ⟨p, k⟩ headers = some part ∧
      Passed heap (heap.setSlot part) := by
  rcases writeBlock_spec (x := ⟨p, k⟩) h.slotOk hused headers with
    ⟨part, hrun, hok, hos, hbases, hpart⟩
  have hok := h.setSlot hok (.of_eq kernel (congrArg _ hbases) hos)
  exact ⟨part, hrun, passed_of_part hok (others_setSlot _) hpart⟩

/-- What `malloc_impl` returns: a new block, or null because a page request failed. -/
inductive MallocPost (kernel : Kernel) (heap : Heap) (size p : ℕ) (heap' : Heap) : Prop where
  | served : Malloced heap size p heap' → MallocPost kernel heap size p heap'
  | refused : p = 0 → ¬ kernel.Succeeds → Passed heap heap' → MallocPost kernel heap size p heap'

section Malloc

variable (h : HeapOk heap)
include h

theorem malloc_buddy (hsize : 1 ≤ size) (hlt : size < slotAllocatorThreshold)
    (hrun : mallocImpl kernel heap size = some (p, heap')) :
    MallocPost kernel heap size p heap' := by
  have hmax : size ≤ buddyAllocatorMaximalAllocation := le_trans hlt.le (by decide)
  simp only [mallocImpl, if_pos hlt, Option.bind_eq_bind, Option.bind_eq_some_iff] at hrun
  rcases hrun with ⟨⟨q, part⟩, hpart, hrun⟩
  rcases Option.some.inj hrun with ⟨rfl, rfl⟩
  rcases blockAllocate_post h.buddy h.buddyRegions hsize hpart with hpost | hpost
  · refine .served ?_
    rw [Malloced, show issuer size = .buddy from if_pos hlt]
    exact granted_of_part (h.setBuddy hpost.ok hpost.grown) (others_setBuddy _) hpost.allocated
      hpost.fresh
  · -- the size is not too large, so a page was missing
    exact .refused hpost.null (hpost.cause.resolve_left (not_lt.mpr hmax))
      (passed_of_part (h.setBuddy hpost.ok hpost.grown) (others_setBuddy _) hpost.allocated)

omit h in
/-- Sizes for the slot allocator need at least one slot and fit into an arena. -/
theorem requiredSlots_bounds (hlt : size < directAllocationThreshold) :
    0 < requiredSlots size ∧ requiredSlots size ≤ slotCount := by
  have hcount : slotCount = 248 := rfl
  have hrequired : requiredSlots size = (16 + size + 527) / 528 :=
    requiredSlots_eq (lt_of_lt_of_le (Nat.add_lt_add_left hlt 16) (by decide))
  have hlt' : size < 8192 := hlt
  omega

theorem malloc_slot (hge : ¬ size < slotAllocatorThreshold) (hlt : size < directAllocationThreshold)
    (hrun : mallocImpl kernel heap size = some (p, heap')) :
    MallocPost kernel heap size p heap' := by
  have howner : issuer size = .slot := by simp only [issuer, if_neg hge, if_pos hlt]
  simp only [mallocImpl, if_neg hge, if_pos hlt, Option.bind_eq_bind, Option.bind_eq_some_iff]
    at hrun
  rcases hrun with ⟨⟨q, part⟩, hpart, hrun⟩
  rcases Option.some.inj hrun with ⟨rfl, rfl⟩
  -- the slot allocator is only asked for sizes that fit
  have hpost := slotAllocate_post h.slotOk (requiredSlots_bounds hlt).1 hpart
  have hok := h.setSlot hpost.ok hpost.grown
  rcases hpost.outcome with ⟨-, hused, hfresh⟩ | ⟨hnull, hfails, hused⟩
  · refine .served ?_
    rw [Malloced, howner]
    exact granted_of_part hok (others_setSlot _) hused hfresh
  · exact .refused hnull hfails (passed_of_part hok (others_setSlot _) hused)

/-- The direct allocator hands out a mapping, or there is none. -/
theorem direct_granted (hsize : 1 ≤ size)
    (hrun : directAllocatorAllocate kernel heap.direct size = some (p, part)) :
    (p ≠ 0 ∧ Granted heap .direct p size (heap.setDirect part) ∧
        ∀ z, Range.Has ⟨p, size⟩ z → ¬ Mapped heap.os z) ∨
      p = 0 ∧ ¬ kernel.Succeeds ∧ Passed heap (heap.setDirect part) := by
  rcases directAllocate_post h.direct h.directRegions hsize hrun with hpost | hpost
  · exact .inl ⟨hpost.nonzero, granted_of_part (h.setDirect hpost.ok hpost.grown)
      (others_setDirect _) hpost.allocated hpost.fresh, hpost.unmapped⟩
  · exact .inr ⟨hpost.null, hpost.cause,
      passed_of_part (h.setDirect hpost.ok hpost.grown) (others_setDirect _) hpost.allocated⟩

theorem malloc_direct (hsize : 1 ≤ size) (hge : ¬ size < slotAllocatorThreshold)
    (hge' : ¬ size < directAllocationThreshold)
    (hrun : mallocImpl kernel heap size = some (p, heap')) :
    MallocPost kernel heap size p heap' := by
  have howner : issuer size = .direct := by simp only [issuer, if_neg hge, if_neg hge']
  simp only [mallocImpl, if_neg hge, if_neg hge', Option.bind_eq_bind, Option.bind_eq_some_iff]
    at hrun
  rcases hrun with ⟨⟨q, part⟩, hpart, hrun⟩
  rcases Option.some.inj hrun with ⟨rfl, rfl⟩
  rcases direct_granted h hsize hpart with ⟨-, hgranted, -⟩ | ⟨hnull, hfails, hpass⟩
  · refine .served ?_
    rw [Malloced, howner]
    exact hgranted
  · exact .refused hnull hfails hpass

theorem malloc_post (hsize : 1 ≤ size) (hrun : mallocImpl kernel heap size = some (p, heap')) :
    MallocPost kernel heap size p heap' := by
  by_cases hlt : size < slotAllocatorThreshold
  · exact malloc_buddy h hsize hlt hrun
  · by_cases hlt' : size < directAllocationThreshold
    · exact malloc_slot h hlt hlt' hrun
    · exact malloc_direct h hsize hlt hlt' hrun

theorem malloc_ends (hkernel : kernel.Succeeds) (hsize : 1 ≤ size) :
    ∃ p heap', mallocImpl kernel heap size = some (p, heap') := by
  unfold mallocImpl
  split
  · rename_i hlt
    have hmax : size ≤ buddyAllocatorMaximalAllocation := le_trans hlt.le (by decide)
    rcases blockAllocate_spec h.buddy h.buddyRegions hsize hkernel hmax with ⟨r, hrun, -⟩
    rw [hrun]
    exact ⟨_, _, rfl⟩
  · split
    · rename_i hlt
      rcases requiredSlots_bounds hlt with ⟨hpos, hle⟩
      rcases slotAllocate_spec kernel h.slotOk hpos hle with ⟨r, hrun, -⟩
      rw [hrun]
      exact ⟨_, _, rfl⟩
    · rcases directAllocate_spec hkernel h.direct h.directRegions hsize with ⟨r, hrun, -⟩
      rw [hrun]
      exact ⟨_, _, rfl⟩

theorem malloc_spec (hkernel : kernel.Succeeds) (hsize : 1 ≤ size) :
    ∃ p heap', mallocImpl kernel heap size = some (p, heap') ∧ Malloced heap size p heap' := by
  rcases malloc_ends h hkernel hsize with ⟨p, heap', hrun⟩
  cases malloc_post h hsize hrun with
  | served hpost => exact ⟨p, heap', hrun, hpost⟩
  | refused _ hfails => exact absurd hkernel hfails

end Malloc

/-! ## `free_impl` -/

/-- The block at `p` and no other is given back. -/
structure Freed (heap : Heap) (p : ℕ) (heap' : Heap) : Prop where
  ok : HeapOk heap'
  allocated : ∀ o q k, heap'.Allocated o q k ↔ heap.Allocated o q k ∧ q ≠ p

/-- It is enough to look at the sub-allocator that handed out the block. -/
theorem freed_of_part (h : HeapOk heap) (hall : heap.Allocated o p m) (hok : HeapOk heap')
    (hother : Others o heap heap')
    (hpart : ∀ q k, heap'.Allocated o q k ↔ heap.Allocated o q k ∧ q ≠ p) :
    Freed heap p heap' := by
  refine ⟨hok, ?_⟩
  intro o' q k
  by_cases ho : o' = o
  · subst ho
    exact hpart q k
  · rw [hother o' q k ho]
    refine ⟨fun hq => ⟨hq, fun heq => ho ?_⟩, fun hq => hq.1⟩
    exact h.owner_unique (heq ▸ hq) hall

theorem Passed.freed {heap₁ : Heap} (hpass : Passed heap heap₁) (hfreed : Freed heap₁ p heap') :
    Freed heap p heap' := by
  refine ⟨hfreed.ok, ?_⟩
  intro o q k
  rw [hfreed.allocated, hpass.allocated]

section Free

variable (h : HeapOk heap) (hall : heap.Allocated o p m)
include h hall

/-- A block of another sub-allocator is no mapping of the direct allocator. -/
theorem direct_foreign (ho : o ≠ .direct) : ∀ size, ¬ heap.direct.Allocated p size := by
  intro size hdirect
  have hdirect : heap.Allocated .direct p size := hdirect
  exact ho (h.owner_unique hall hdirect)

/-- A block of another sub-allocator lies in no arena. -/
theorem slot_foreign (ho : o ≠ .slot) : ∀ b ∈ heap.slot.bases, inArena b p = false := by
  intro b hb
  by_contra hin
  rcases h.has hall with ⟨r, hr, hp⟩
  rcases List.mem_map.mp hb with ⟨a, ha, rfl⟩
  have hin := (inArena_iff _ _).mp (by simpa using hin)
  have hmaps : heap.Maps .slot ⟨a.base, slotAllocatorSize⟩ := ⟨a, ha, rfl⟩
  exact ho (h.maps_unique hr hmaps hp ((has_arena _ _).mpr hin))

omit hall in
theorem table_passes (kernel : Kernel) :
    Passed heap (heap.setDirect (initialTable kernel heap.direct)) := by
  have hopen := initialTable_opened kernel heap.direct
  exact passed_of_part (h.setDirect (TablesOpened.ok hopen h.direct) (hopen.grown rfl))
    (others_setDirect _) (fun _ _ => TablesOpened.allocated hopen)

omit hall in
theorem arena_passes {part : SlotHeap} (hinit : initialArena kernel heap.slot = some part) :
    Passed heap (heap.setSlot part) := by
  have hopen := initialArena_opened hinit
  exact passed_of_part (h.setSlot (hopen.ok h.slotOk) hopen.grown)
    (others_setSlot _) (fun _ _ => hopen.used_iff)

theorem mapped_pointer : Mapped heap.os p := by
  rcases h.has hall with ⟨r, hr, hp⟩
  exact h.mapped hr hp

end Free

section FreeImpl

variable (h : HeapOk heap)
include h

theorem freeImpl_direct (kernel : Kernel) (hall : heap.Allocated .direct p m) :
    ∃ heap', freeImpl kernel heap p = some (some .direct, heap') ∧ Freed heap p heap' := by
  rcases directDeallocate_spec h.direct h.directRegions kernel hall with
    ⟨t, i, part, hrun, hok, hold, hnew, hos, hpart⟩
  have hos : part.os = .unmap ⟨p, m⟩ :: heap.os := hos
  have hregions := h.regions.remove (i := .inr (.inr (.cell t i))) hold
  rw [← hos] at hregions
  refine ⟨heap.setDirect part, ?_, freed_of_part h hall (h.updateDirect hok hnew hregions)
    (others_setDirect _) hpart⟩
  simp only [freeImpl, hrun, Option.bind_eq_bind, Option.bind_some]
  rfl

theorem freeImpl_slot (kernel : Kernel) (hall : heap.Allocated .slot p m) :
    ∃ heap', freeImpl kernel heap p = some (some .slot, heap') ∧ Freed heap p heap' := by
  have hdirect := directDeallocate_foreign kernel (h.nonzero hall)
    (direct_foreign h hall (by decide))
  have hpass := table_passes h kernel
  generalize initialTable kernel heap.direct = table at hdirect hpass
  have hall' := (hpass.allocated _ _ _).mpr hall
  rcases slotDeallocate_spec kernel hpass.ok.slotOk hall' with
    ⟨part, hrun, hok, hos, hbases, hpart⟩
  have hok := hpass.ok.setSlot hok (.of_eq kernel (congrArg _ hbases) hos)
  have hfreed := freed_of_part hpass.ok hall' hok (others_setSlot _) hpart
  refine ⟨_, ?_, hpass.freed hfreed⟩
  simp only [freeImpl, hdirect, hrun, Option.bind_eq_bind, Option.bind_some]
  rfl

/-- The buddy allocators take back a block that is theirs. -/
theorem buddy_freed (kernel : Kernel) (hall : heap.Allocated .buddy p m) :
    ∃ part, buddyBlockDeallocate kernel heap.buddy p = some (true, part) ∧
      Freed heap p (heap.setBuddy part) := by
  rcases blockDeallocate_spec kernel h.buddy h.buddyRegions hall with
    ⟨part, hrun, hok, hos, hregion, hpart⟩
  exact ⟨part, hrun, freed_of_part h hall (h.setBuddy hok (.of_eq kernel hregion hos))
    (others_setBuddy _) hpart⟩

/-- For a block of the buddy allocators the slot allocator is asked first, which needs its
first arena for the answer. -/
theorem freeImpl_buddy (kernel : Kernel) (hall : heap.Allocated .buddy p m) :
    (∃ heap', freeImpl kernel heap p = some (some .buddy, heap') ∧ Freed heap p heap') ∨
      freeImpl kernel heap p = none ∧ ¬ kernel.Succeeds := by
  have hdirect := directDeallocate_foreign kernel (h.nonzero hall)
    (direct_foreign h hall (by decide))
  have hpass := table_passes h kernel
  generalize initialTable kernel heap.direct = table at hdirect hpass
  have hall' := (hpass.allocated _ _ _).mpr hall
  -- without memory for the arena the null pointer is followed
  cases hinit : initialArena kernel (heap.setDirect table).slot with
  | none =>
    right
    constructor
    · simp only [freeImpl, hdirect, slotAllocatorDeallocate, hinit, Option.bind_eq_bind,
        Option.bind_some, Option.bind_none]
      rfl
    · intro hkernel
      rcases initialArena_succeeds hkernel (heap.setDirect table).slot with ⟨part, hpart⟩
      rw [hinit] at hpart
      cases hpart
  | some =>
    left
    have hslot := slotDeallocate_foreign (.inr (mapped_pointer hpass.ok hall'))
      (slot_foreign hpass.ok hall' (by decide)) hinit
    have hpass' := arena_passes hpass.ok hinit
    have hall'' := (hpass'.allocated _ _ _).mpr hall'
    rcases buddy_freed hpass'.ok kernel hall'' with ⟨part, hrun, hfreed⟩
    refine ⟨_, ?_, (hpass.trans hpass').freed hfreed⟩
    simp only [freeImpl, hdirect, hslot, hrun, Option.bind_eq_bind, Option.bind_some]
    rfl

variable (hall : heap.Allocated o p m)
include hall

/-- `free_impl` finds the sub-allocator that handed the block out. -/
theorem freeImpl_cases (kernel : Kernel) :
    (∃ heap', freeImpl kernel heap p = some (some o, heap') ∧ Freed heap p heap') ∨
      freeImpl kernel heap p = none ∧ ¬ kernel.Succeeds := by
  cases o with
  | direct => exact .inl (freeImpl_direct h kernel hall)
  | slot => exact .inl (freeImpl_slot h kernel hall)
  | buddy => exact freeImpl_buddy h kernel hall

theorem freeImpl_spec (hkernel : kernel.Succeeds) :
    ∃ heap', freeImpl kernel heap p = some (some o, heap') ∧ Freed heap p heap' := by
  rcases freeImpl_cases h hall kernel with hfreed | ⟨-, hfails⟩
  · exact hfreed
  · exact absurd hkernel hfails

end FreeImpl

/-! ## The contract of one state -/

/-- The blocks of the client are those that the sub-allocators have handed out. -/
structure MallocInv (s : MallocState) : Prop where
  ok : HeapOk s.heap
  issued : ∀ o p k, s.heap.Allocated o p k ↔
    ∃ x ∈ s.live, x.owner = o ∧ x.pointer = p ∧ x.units = k
  distinct : (s.live.map LiveBlock.pointer).Nodup

/-- Every sub-allocator hands out enough bytes. -/
theorem le_usable (x : LiveBlock) : x.size ≤ x.usable := by
  unfold LiveBlock.usable LiveBlock.units LiveBlock.owner
  unfold issuer
  split
  · rename_i hlt
    exact le_bucketSize_fitBucket (le_trans hlt.le (by decide))
  · split
    · rename_i hlt
      have hlt : x.size < 8192 := hlt
      have hrequired : requiredSlots x.size = (16 + x.size + 527) / 528 :=
        requiredSlots_eq (lt_of_lt_of_le (Nat.add_lt_add_left hlt 16) (by decide))
      simp only [capacity, units, hrequired, slotSize, slotAllocatorSlotSize, sizeofSlot]
      omega
    · exact le_pageExtent _

namespace HeapOk

variable (h : HeapOk heap)
include h

theorem maps_aligned (hr : heap.Maps o r) : 4096 ∣ r.base := by
  rcases maps_region hr with ⟨i, hi, -⟩
  exact h.regions.aligned i r hi

theorem aligned (hall : heap.Allocated o p k) : 16 ∣ p := by
  cases o with
  | buddy =>
    rcases allocated_iff.mp hall with ⟨b, i, a, n, hhands⟩
    have hbase := h.maps_aligned (o := .buddy) ⟨b, i, a, hhands.cell, treeRange_of_page hhands.page⟩
    have haddress := hhands.node.address
    simp only at hbase
    omega
  | slot =>
    rcases h.slotOk.locate hall with ⟨index, a, i, -, hmem, -, rfl, -⟩
    have hbase := h.maps_aligned (o := .slot) ⟨a, hmem, rfl⟩
    simp only [slotPointer, sizeofSlotAllocator, slotSize, slotAllocatorSlotSize, sizeofSlot] at hbase ⊢
    omega
  | direct =>
    rcases hall with ⟨hp, t, i, he⟩
    have hbase := h.maps_aligned (o := .direct) ⟨t, i, _, he, if_neg hp⟩
    simp only at hbase
    omega

/-- The pages of a buddy block and of a table of mappings hold no block. -/
theorem not_page {i : RowRegion ⊕ ℕ ⊕ RowRegion} {t : Range} {y : ℕ} (hr : heap.Maps o r)
    (hi : heapRegion heap i = some t) (hnone : dataOwner i = none) (hy : r.Has y) : ¬ t.Has y := by
  intro hty
  rcases maps_region hr with ⟨j, hj, hjo⟩
  have heq := h.regions.apart j i r t y hj hi hy hty
  rw [heq, hnone] at hjo
  cases hjo

/-- The header of an arena and the headers of its spans hold no block. -/
theorem not_header {a : SlotArena} {y : ℕ} (ha : a ∈ heap.arenas)
    (hall : heap.Allocated o p k) (hy : p ≤ y) (hlt : y < p + capacity o k)
    (hhead : a.base ≤ y ∧ y < a.base + sizeofSlotAllocator ∨
      ∃ j, Start a.slots slotCount j ∧ slotPointer a.base j - sizeofSlot ≤ y ∧
        y < slotPointer a.base j) : False := by
  have hcount : slotCount = 248 := rfl
  rcases h.tiled a ha with ⟨l, hseg⟩
  -- the header lies in the arena, so the block is one of slots
  have hin : a.base ≤ y ∧ y < a.base + slotAllocatorSize := by
    rcases hhead with hhead | ⟨j, hstart, hj⟩
    · simp only [sizeofSlotAllocator, slotAllocatorSize, pageSize] at hhead ⊢
      omega
    · have hjlt := ((hseg.start_iff (by decide)).mp hstart).1
      simp only [slotPointer, sizeofSlotAllocator, slotSize, slotAllocatorSlotSize, sizeofSlot,
        slotAllocatorSize, pageSize] at hj ⊢
      omega
  have hmaps : heap.Maps .slot ⟨a.base, slotAllocatorSize⟩ := ⟨a, ha, rfl⟩
  rcases h.holds hall with ⟨-, r, hr, hholds⟩
  rcases h.maps_unique hr hmaps (hholds.has hy hlt) ((has_arena _ _).mpr hin) with rfl
  rcases h.slotOk.locate hall with ⟨index, b, i, hb, hmem, hi, rfl, -⟩
  have hbounds := hi.bounds (h.tiled b hmem)
  rcases List.mem_iff_getElem?.mp ha with ⟨index', ha'⟩
  have hregion : ∀ (j : ℕ) (c : SlotArena), heap.arenas[j]? = some c →
      heapRegion heap (.inr (.inl j)) = some ⟨c.base, slotAllocatorSize⟩ := by
    intro j c hc
    simp [heapRegion, arenaRegion, hc]
  have heq := h.regions.apart _ _ _ _ y (hregion _ _ hb) (hregion _ _ ha')
    ((slotPointer_holds _ hbounds.1 hbounds.2).has hy hlt) ((has_arena _ _).mpr hin)
  simp only [Sum.inr.injEq, Sum.inl.injEq] at heq
  subst heq
  rcases Option.some.inj (hb.symm.trans ha') with rfl
  -- in its arena the block starts behind the header of its first slot
  rcases hhead with hhead | ⟨j, hstart, hj⟩
  · simp only [slotPointer, sizeofSlotAllocator, slotSize, slotAllocatorSlotSize, sizeofSlot] at hy hhead
    omega
  · have hat := (usedSpan_iff hseg).mp hi
    have hstart := ((hseg.start_iff (by decide)).mp hstart).2
    have hnot : j ≤ i ∨ i + k ≤ j := by
      rcases Nat.lt_or_ge i j with hij | hji
      · exact .inr (hat.end_le hstart hij)
      · exact .inl hji
    simp only [capacity, slotPointer, sizeofSlotAllocator, slotSize, slotAllocatorSlotSize,
      sizeofSlot] at hy hlt hj hnot
    omega

theorem not_metadata {y : ℕ} (hall : heap.Allocated o p k) (hy : p ≤ y)
    (hlt : y < p + capacity o k) : ¬ heap.Metadata y := by
  intro hmeta
  rcases h.holds hall with ⟨-, r, hr, hholds⟩
  have hry := hholds.has hy hlt
  rcases hmeta with ⟨block, hblock, hpage⟩ | ⟨a, ha, hhead⟩ | ⟨table, htable, hpage⟩
  · rcases List.mem_iff_getElem?.mp hblock with ⟨t, ht⟩
    have hregion : heapRegion heap (.inl (.row t)) = some ⟨block.base, pageSize⟩ :=
      rowRegion_row treeRange ht
    exact h.not_page hr hregion rfl hry hpage
  · exact h.not_header ha hall hy hlt hhead
  · rcases List.mem_iff_getElem?.mp htable with ⟨t, ht⟩
    have hregion : heapRegion heap (.inr (.inr (.row t))) = some ⟨table.base, pageSize⟩ :=
      rowRegion_row entryRange ht
    exact h.not_page hr hregion rfl hry hpage

end HeapOk

theorem MallocInv.allocated (h : MallocInv s) (hx : x ∈ s.live) :
    s.heap.Allocated x.owner x.pointer x.units :=
  (h.issued _ _ _).mpr ⟨x, hx, rfl, rfl, rfl⟩

theorem MallocInv.contract (hkernel : kernel.Succeeds) (h : MallocInv s) : Contract kernel s where
  disjoint := by
    have hne : s.live.Pairwise fun x y => x.pointer ≠ y.pointer := List.pairwise_map.mp h.distinct
    refine hne.imp_of_mem fun {x y} hx hy hxy => ?_
    exact h.ok.disjoint (h.allocated hx) (h.allocated hy) fun heq => hxy (Prod.mk.inj heq).2
  mapped := by
    intro x hx
    rcases h.ok.holds (h.allocated hx) with ⟨-, r, hr, hholds⟩
    exact ⟨r, hr, hholds, fun y hy => h.ok.mapped hr hy⟩
  outside := fun x hx y hy hlt => h.ok.not_metadata (h.allocated hx) hy hlt
  usable := fun x _ => le_usable x
  aligned := fun x hx => h.ok.aligned (h.allocated hx)
  issued := h.issued
  freed := by
    intro x hx
    rcases freeImpl_spec h.ok (h.allocated hx) hkernel with ⟨heap', hrun, hfreed⟩
    exact ⟨heap', hrun, hfreed.allocated⟩

/-! ## Runs -/

theorem mem_releaseLive : x ∈ releaseLive p live ↔ x ∈ live ∧ x.pointer ≠ p := by
  simp [releaseLive]

theorem MallocInv.malloc (h : MallocInv s) (hpost : Malloced s.heap size p heap') :
    MallocInv ⟨heap', ⟨p, size⟩ :: s.live⟩ := by
  refine ⟨hpost.ok, ?_, ?_⟩
  · intro o q k
    rw [hpost.allocated, h.issued]
    simp only [List.mem_cons, exists_eq_or_imp]
    rw [or_comm]
    exact or_congr_left (and_congr eq_comm (and_congr eq_comm eq_comm))
  · -- a live block with this pointer would be allocated before the call
    rw [List.map_cons, List.nodup_cons]
    refine ⟨fun hmem => ?_, h.distinct⟩
    rcases List.mem_map.mp hmem with ⟨y, hy, hyp⟩
    have hyp : y.pointer = p := hyp
    have hold := h.allocated hy
    rw [hyp] at hold
    exact hpost.unallocated hold

theorem MallocInv.free (h : MallocInv s) (hpost : Freed s.heap p heap') :
    MallocInv ⟨heap', releaseLive p s.live⟩ := by
  refine ⟨hpost.ok, ?_, h.distinct.sublist (List.filter_sublist.map _)⟩
  intro o q k
  rw [hpost.allocated, h.issued]
  constructor
  · intro hx
    rcases hx with ⟨⟨x, hx, ho, hp, hk⟩, hne⟩
    exact ⟨x, mem_releaseLive.mpr ⟨hx, hp ▸ hne⟩, ho, hp, hk⟩
  · intro hx
    rcases hx with ⟨x, hx, ho, hp, hk⟩
    rw [mem_releaseLive] at hx
    exact ⟨⟨x, hx.1, ho, hp, hk⟩, hp ▸ hx.2⟩

theorem malloc_init_inv : MallocInv emptyHeap := by
  have hregion : heapRegion emptyHeap.heap = fun _ => none := by
    funext i
    rcases i with i | i | i
    · exact congrFun rowRegion_nil i
    · rfl
    · exact congrFun rowRegion_nil i
  -- there are no tables, trees, arenas or blocks
  refine ⟨⟨?_, ⟨?_, ?_⟩, ?_, ?_, ?_⟩, ?_, ?_⟩
  · rw [hregion]
    exact ⟨by simp, by simp, by simp, by simp⟩
  · intro b i a ha
    cases ha
  · intro b i a ha
    cases ha
  · simp [emptyHeap]
  · simp [emptyHeap]
  · intro p size hall
    rcases hall with ⟨-, t, i, he⟩
    cases he
  · intro o p k
    cases o <;> simp [emptyHeap, Heap.Allocated, Heap.buddy, Heap.slot, Heap.direct,
      BuddyHeap.Allocated, SlotHeap.Used, DirectHeap.Allocated, cell?]
  · simp [emptyHeap]

/-- Every allowed call returns and keeps the invariant. -/
theorem malloc_step (hkernel : kernel.Succeeds) (h : MallocInv s) {op : MallocOp}
    (hallowed : op.Allowed s) : ∃ s', mallocStep kernel op s = some s' ∧ MallocInv s' := by
  cases op with
  | malloc =>
    rcases malloc_spec h.ok hkernel hallowed with ⟨p, heap', hrun, hpost⟩
    have hne := hpost.ok.nonzero hpost.new
    refine ⟨_, ?_, h.malloc hpost⟩
    simp [mallocStep, hrun, hne]
  | free =>
    rcases hallowed with ⟨x, hx, rfl⟩
    rcases freeImpl_spec h.ok (h.allocated hx) hkernel with ⟨heap', hrun, hpost⟩
    refine ⟨_, ?_, h.free hpost⟩
    simp [mallocStep, hrun]
  | write x headers =>
    -- in an arena the data of a block may be taken for headers later
    by_cases howner : x.owner = .slot
    · have hused := h.allocated hallowed
      unfold LiveBlock.units at hused
      rw [howner] at hused
      rcases h.ok.write_passes kernel hused headers with ⟨part, hrun, hpass⟩
      have hrun : writeBlock s.heap.slot ⟨x.pointer, requiredSlots x.size⟩ headers = some part := hrun
      exact ⟨⟨s.heap.setSlot part, s.live⟩, by simp [mallocStep, howner, hrun], hpass.ok,
        fun o p k => (hpass.allocated o p k).trans (h.issued o p k), h.distinct⟩
    · exact ⟨s, by simp [mallocStep, howner], h⟩

theorem malloc_reachable_inv (hkernel : kernel.Succeeds) (hr : Reachable (mallocSystem kernel) s) :
    MallocInv s := by
  refine hr.invariant ?_ ?_
  · intro s hs
    rw [show s = emptyHeap from hs]
    exact malloc_init_inv
  · intro op s s' hinv hnext
    rcases malloc_step hkernel hinv hnext.1 with ⟨t, ht, hgood⟩
    rcases Option.some.inj (ht.symm.trans hnext.2) with rfl
    exact hgood

/-- In every reachable state the contract holds, `malloc_impl` returns a block for every
size, and every allowed call returns. -/
theorem malloc_free_contract (hkernel : kernel.Succeeds) (hr : Reachable (mallocSystem kernel) s) :
    Contract kernel s ∧
    (∀ size, 1 ≤ size → ∃ p heap', mallocImpl kernel s.heap size = some (p, heap') ∧ p ≠ 0) ∧
    (∀ op, op.Allowed s → ∃ s', (mallocSystem kernel).Next op s s') := by
  have hinv := malloc_reachable_inv hkernel hr
  refine ⟨hinv.contract hkernel, ?_, ?_⟩
  · intro size hsize
    rcases malloc_spec hinv.ok hkernel hsize with ⟨p, heap', hrun, hpost⟩
    exact ⟨p, heap', hrun, hpost.ok.nonzero hpost.new⟩
  · intro op hallowed
    rcases malloc_step hkernel hinv hallowed with ⟨s', hs', -⟩
    exact ⟨s', hallowed, hs'⟩

instance MallocOp.decidableAllowed (s : MallocState) (op : MallocOp) : Decidable (op.Allowed s) :=
  match op with
  | .malloc size => inferInstanceAs (Decidable (1 ≤ size))
  | .free p => inferInstanceAs (Decidable (∃ x ∈ s.live, x.pointer = p))
  | .write x _ => inferInstanceAs (Decidable (x ∈ s.live))

/-- The step of an allowed call. -/
def mallocNext (kernel : Kernel) (op : MallocOp) (s : MallocState) : Option MallocState :=
  if op.Allowed s then mallocStep kernel op s else none

/-- One block of each sub-allocator, after a block between two others was freed. -/
theorem malloc_free_contract_mixed :
    ∃ s, Reachable (mallocSystem bumpKernel) s ∧
      s.live = [⟨147456, 9000⟩, ⟨12320, 600⟩, ⟨8208, 10⟩] ∧ Contract bumpKernel s := by
  have hrun : (exec (mallocNext bumpKernel)
      [.malloc 16, .malloc 10, .malloc 600, .free 8192, .malloc 9000] [] emptyHeap).map
        (fun x => x.2.live) = some [⟨147456, 9000⟩, ⟨12320, 600⟩, ⟨8208, 10⟩] := by
    decide +kernel
  rcases Option.map_eq_some_iff.mp hrun with ⟨x, hx, hlive⟩
  have hnext : ∀ op s s', mallocNext bumpKernel op s = some s' →
      (mallocSystem bumpKernel).Next op s s' := by
    intro op s s' hs
    unfold mallocNext at hs
    split at hs
    · exact ⟨‹_›, hs⟩
    · cases hs
  have hinit : Run (mallocSystem bumpKernel) [] emptyHeap := .init rfl
  have hreach := (hinit.exec hnext hx).reachable
  exact ⟨x.2, hreach, hlive, (malloc_free_contract bumpKernel_succeeds hreach).1⟩

end SysProg.Memory
