import Mathlib.Tactic
import SysProg.Memory.ReallocNull
import SysProg.Memory.SlotGrowth
import SysProg.Memory.Supply

/-!
# `calloc_impl` of `task5-memory/src/allocator.c`

The product of the two arguments is computed in `size_t`. Whether the block is set to zero is
decided by the size of one element: new pages need no `memset`, and only large blocks are
taken from new pages.

* `callocImpl` — the function, with the `memset` it makes;
* `memset_passes` — at the level of the arenas the `memset` is a write of the client to its
  own block;
* `Calloced` — null without any write, or a block of zeros for the whole product;
* `calloc_zeroed_iff` — when a call comes out like this.
-/

namespace SysProg.Memory

open ByteMemory Rows Spans Lts

/-! ## The model -/

/-- What `calloc_impl` leaves behind: the pointer it returns, `0` for null, the heap and the
`memset` it made. -/
structure HeapCalloced where
  pointer : ℕ
  heap : Heap
  fill : Option Fill

/-- A byte of a `struct Slot`: eight bytes of `length`, then `used`. The rest is padding. -/
def slotByte (slot : Slot) (i : ℕ) : ℕ :=
  if i < 8 then slot.length / 256 ^ i % 256
  else if i = 8 then slot.used.toNat
  else 0

/-- The first `n` bytes of a `struct Slot` are set to zero. -/
def clearSlot (n : ℕ) (slot : Slot) : Slot where
  length := if 8 ≤ n then 0 else slot.length / 256 ^ n * 256 ^ n
  used := slot.used && decide (n ≤ 8)

/-- `memset(pointer, 0, length)` as it shows at the header positions behind `pointer`. -/
def clearHeaders (pointer length : ℕ) (a : SlotArena) : SlotArena :=
  { a with
    slots := fun k =>
      if slotToIndex a.base pointer < k then
        clearSlot (pointer + length - (slotPointer a.base k - sizeofSlot)) (a.slots k)
      else a.slots k }

/-- `memset(pointer, 0, length)`. -/
def Heap.memset (heap : Heap) (pointer length : ℕ) : Heap :=
  match findArena heap.slot pointer with
  | none => heap
  | some index => heap.setSlot (heap.slot.modify index (clearHeaders pointer length))

/-- `calloc_impl`. -/
def callocImpl (kernel : Kernel) (heap : Heap) (count size : ℕ) : Option HeapCalloced := do
  let bytes := count * size % 2 ^ 64
  let (pointer, heap) ← mallocImpl kernel heap bytes
  if size < directAllocationThreshold then
    return ⟨pointer, heap.memset pointer bytes, some ⟨pointer, bytes⟩⟩
  return ⟨pointer, heap, none⟩

/-- The memory after the call. Pages that were not mapped before it are zeroed. -/
def HeapCalloced.bytes (r : HeapCalloced) (os : List OsEvent) (m : Bytes) : Bytes :=
  let fresh : Bytes := fun x => if Mapped os x then m x else 0
  match r.fill with
  | none => fresh
  | some f => f.apply fresh

/-- The block `y` is new, has room for `n` bytes and begins with `n` zeros, also at the header
positions inside it, and nothing else was set to zero. -/
structure ZeroBlock (s : ClientState) (n : ℕ) (r : HeapCalloced) (y : Held) : Prop where
  pointer : y.pointer = r.pointer
  allocated : r.heap.Allocated y.owner y.pointer y.units
  room : n ≤ y.usable
  apart : ∀ z ∈ s.live, y.Apart z
  bytes : ∀ (m : Bytes) (i : ℕ), i < n → r.bytes s.heap.os m (y.pointer + i) = 0
  headers : y.owner = .slot → ∀ k i, 0 < k → i < sizeofSlot →
    k * slotSize - sizeofSlot + i < n → (slotAt r.heap.slot y.pointer k).map (slotByte · i) = some 0
  inside : ∀ f ∈ r.fill, ∀ a, f.Writes a → y.pointer ≤ a ∧ a < y.pointer + y.usable

/-- What the client expects of `calloc_impl(count, size)`: null without any write, or a block
of zeros for the whole product. For a product that wraps around to no bytes, the search for the
block must not leave the bitmap, or the result is not determined. -/
structure Calloced (kernel : Kernel) (s : ClientState) (count size : ℕ) (r : HeapCalloced) :
    Prop where
  defined : count * size % 2 ^ 64 = 0 → AllocatesInBitmap kernel s.heap.buddy 0
  outcome : (r.pointer = 0 ∧ ∀ f ∈ r.fill, ∀ a, ¬ f.Writes a) ∨
    ∃ y, ZeroBlock s (count * size) r y
  others : ∀ z ∈ s.live, z.owner = .slot → ∀ k, 0 < k → k < z.units →
    slotAt r.heap.slot z.pointer k = slotAt s.heap.slot z.pointer k

/-! ## Headers -/

section Headers

variable {slot : Slot} {n i : ℕ}

theorem clearSlot_zero (slot : Slot) : clearSlot 0 slot = slot := by
  simp [clearSlot]

theorem slotByte_clearSlot (h : i < n) : slotByte (clearSlot n slot) i = 0 := by
  unfold slotByte
  split
  · simp only [clearSlot]
    split
    · simp
    · -- the low bytes of the length are gone
      rcases Nat.exists_eq_add_of_lt h with ⟨d, rfl⟩
      generalize slot.length / 256 ^ (i + d + 1) = high
      have hlow : high * 256 ^ (i + d + 1) = 256 ^ i * (high * 256 ^ d * 256) := by ring
      rw [hlow, Nat.mul_div_cancel_left _ (by positivity), Nat.mul_mod_left]
  · split
    · simp only [clearSlot]
      rw [decide_eq_false (by omega), Bool.and_false]
      rfl
    · rfl

end Headers

section Arenas

variable {heap : SlotHeap} {a : SlotArena} {f g : SlotArena → SlotArena} {p i k n index : ℕ}

theorem modify_congr (ha : heap.arenas[index]? = some a) (hfg : f a = g a) :
    heap.modify index f = heap.modify index g := by
  unfold SlotHeap.modify
  congr 1
  apply List.ext_getElem?
  intro j
  rw [List.getElem?_modify, List.getElem?_modify]
  by_cases hj : index = j
  · subst hj
    simp [ha, hfg]
  · simp [hj]

/-- The header position `k` slots behind the header of the block. -/
theorem clearHeaders_slots (hk : 0 < k) : (clearHeaders (slotPointer a.base i) n a).slots (i + k) =
    clearSlot (n - (k * slotSize - sizeofSlot)) (a.slots (i + k)) := by
  simp only [clearHeaders, slotToIndex_slotPointer]
  rw [if_pos (by omega)]
  congr 1
  simp only [slotPointer, slotSize, slotAllocatorSlotSize, sizeofSlot, sizeofSlotAllocator]
  omega

/-- Positions in front of the block, and those behind its last byte, keep what they have. -/
theorem clearHeaders_outside {j : ℕ} (hj : j ≤ i ∨ i + k ≤ j) (hn : n ≤ k * slotSize - sizeofSlot) :
    (clearHeaders (slotPointer a.base i) n a).slots j = a.slots j := by
  by_cases hle : j ≤ i
  · simp only [clearHeaders, slotToIndex_slotPointer]
    rw [if_neg (by omega)]
  · rcases Nat.exists_eq_add_of_lt (not_le.mp hle) with ⟨d, rfl⟩
    rw [Nat.add_assoc, clearHeaders_slots (Nat.succ_pos d)]
    have hnone : n - ((d + 1) * slotSize - sizeofSlot) = 0 := by
      simp only [slotSize, slotAllocatorSlotSize, sizeofSlot] at hn ⊢
      omega
    rw [hnone, clearSlot_zero]

/-- The `memset` inside a block of slots is a write of the client to it. -/
theorem clearHeaders_writes (h : SlotOk heap) (hu : heap.Used p k)
    (hn : n ≤ k * slotSize - sizeofSlot) :
    ∃ index headers, findArena heap p = some index ∧
      writeBlock heap ⟨p, k⟩ headers = some (heap.modify index (clearHeaders p n)) := by
  rcases h.locate hu with ⟨index, a, i, ha, -, -, rfl, -, hfind, hindex⟩
  refine ⟨index, (clearHeaders (slotPointer a.base i) n a).slots, hfind, ?_⟩
  unfold writeBlock
  simp only [hfind, Option.bind_eq_bind, Option.bind_some, Option.pure_def, Option.some.injEq]
  apply modify_congr ha
  simp only [hindex]
  -- outside of the block the `memset` changes nothing
  have hslots : (fun j => if i < j ∧ j < i + k
      then (clearHeaders (slotPointer a.base i) n a).slots j else a.slots j) =
      (clearHeaders (slotPointer a.base i) n a).slots := by
    funext j
    split
    · rfl
    · rename_i hout
      exact (clearHeaders_outside (by omega) hn).symm
  rw [hslots]
  rfl

theorem slotAt_modify_ne {d : SlotArena} {j : ℕ} (hb : ArenasOk heap.bases heap.os)
    (ha : heap.arenas[index]? = some a) (hbase : (f a).base = a.base)
    (hd : heap.arenas[j]? = some d) (hj : j ≠ index) (hi : i < slotCount) (k : ℕ) :
    slotAt (heap.modify index f) (slotPointer d.base i) k = some (d.slots (i + k)) := by
  have hrep : Replaced heap (heap.modify index f) index a (f a) := replaced_modify ha hbase
  exact slotAt_eq (hrep.bases_ok hb) ((hrep.others j hj).trans hd) hi k

/-- An allocation leaves the data of the used spans alone, whether it finds a span or not. -/
theorem slotAllocate_data {kernel : Kernel} {size rounds r : ℕ} {res : ℕ × SlotHeap}
    (h : SlotOk heap) (hpos : 0 < requiredSlots size)
    (hrun : slotAllocatorAllocateWithin kernel rounds heap size = some res) (hu : heap.Used p r)
    (hk : 0 < k) (hlt : k < r) : slotAt res.2 p k = slotAt heap p k := by
  have hok := (slotAllocate_post h hpos hrun).ok
  rcases h.locate hu with ⟨index, a, i, ha, hmem, hi, rfl, hbound, -⟩
  have hdata : DataSlot a (i + k) := ⟨i, r, hi, by omega, by omega, .inl (h.cursor a hmem)⟩
  obtain ⟨d, hd, hbase, hsame⟩ : ∃ d, res.2.arenas[index]? = some d ∧ d.base = a.base ∧
      d.slots (i + k) = a.slots (i + k) := by
    rcases allocate_arenas_post hpos (h.searchable _) hrun with
      ⟨heap₁, index', a', b', j, hopen, halloc⟩ | ⟨-, heap₁, hrefused⟩
    · rcases halloc.arena_cases (hopen.getElem? ha) with ⟨d, hd, hcases⟩
      exact ⟨d, hd, (halloc.kept hcases).1, halloc.data_kept hcases hdata⟩
    · rcases hrefused.tidied.arena index a (hrefused.opened.getElem? ha) with ⟨d, hd, htidy⟩
      exact ⟨d, hd, htidy.base, htidy.data _ hdata⟩
  rw [slotAt_eq h.bases ha hbound, ← hbase, slotAt_eq hok.bases hd hbound, hsame]

end Arenas

/-! ## `memset` on the heap -/

section Memset

variable {kernel : Kernel} {heap heap' : Heap} {o : SubAllocator} {p q k m n j size : ℕ}

theorem memset_outside (hp : ∀ b ∈ heap.slot.bases, inArena b p = false) (n : ℕ) :
    heap.memset p n = heap := by
  unfold Heap.memset
  rw [findArena_outside hp]

variable (h : HeapOk heap) (hall : heap.Allocated o p k) (hn : n ≤ capacity o k)
include h hall hn

/-- A `memset` inside a block is nothing to the allocators. -/
theorem memset_passes : Passed heap (heap.memset p n) := by
  by_cases ho : o = .slot
  · subst ho
    rcases clearHeaders_writes h.slotOk hall hn with ⟨index, headers, hfind, hwrites⟩
    -- a write does not ask the kernel, so that any kernel will do
    rcases h.write_passes bumpKernel hall headers with ⟨part, hpart, hpass⟩
    rcases Option.some.inj (hwrites.symm.trans hpart) with rfl
    unfold Heap.memset
    rw [hfind]
    exact hpass
  · rw [memset_outside (slot_foreign h hall ho)]
    exact ⟨h, fun _ _ _ => Iff.rfl⟩

/-- The data of other blocks stays. -/
theorem memset_slotAt_other (hz : heap.Allocated .slot q m) (hne : q ≠ p) (hj : 0 < j) (hlt : j < m) :
    slotAt (heap.memset p n).slot q j = slotAt heap.slot q j := by
  by_cases ho : o = .slot
  · subst ho
    rcases h.slotOk.locate hall with ⟨index, a, i, ha, hmem, hi, rfl, -, hfind, -⟩
    rcases h.slotOk.locate hz with ⟨index', c, i', hc, -, hi', rfl, hbound, -⟩
    have hmemset : (heap.memset (slotPointer a.base i) n).slot =
        heap.slot.modify index (clearHeaders (slotPointer a.base i) n) := by
      unfold Heap.memset
      rw [hfind]
      rfl
    rw [hmemset, slotAt_eq h.slotOk.bases hc hbound]
    by_cases hindex : index' = index
    · -- in the same arena the two spans are apart
      subst hindex
      rcases Option.some.inj (ha.symm.trans hc) with rfl
      rw [slotAt_modify h.slotOk.bases ha rfl hbound]
      have hapart := hi'.disjoint (h.tiled a hmem) hi
      rw [clearHeaders_outside (k := k) ?_ hn]
      rcases hapart with ⟨rfl, -⟩ | hbefore | hbehind
      · exact absurd rfl hne
      · omega
      · omega
    · exact slotAt_modify_ne h.slotOk.bases ha rfl hc hindex hbound j
  · rw [memset_outside (slot_foreign h hall ho)]

omit hn in
/-- The header positions inside a block of slots. -/
theorem memset_slotAt (ho : o = .slot) (hj : 0 < j) :
    ∃ slot, slotAt (heap.memset p n).slot p j =
      some (clearSlot (n - (j * slotSize - sizeofSlot)) slot) := by
  subst ho
  rcases h.slotOk.locate hall with ⟨index, a, i, ha, -, -, rfl, hbound, hfind, -⟩
  refine ⟨a.slots (i + j), ?_⟩
  unfold Heap.memset
  rw [hfind]
  show slotAt (heap.slot.modify index (clearHeaders (slotPointer a.base i) n)) _ j = _
  rw [slotAt_modify h.slotOk.bases ha rfl hbound, clearHeaders_slots hj]

end Memset

/-- `malloc_impl` leaves the data of the blocks of slots alone. -/
theorem malloc_data {kernel : Kernel} {heap heap' : Heap} {p q k m size : ℕ} (h : HeapOk heap)
    (hrun : mallocImpl kernel heap size = some (p, heap')) (hz : heap.Allocated .slot q m)
    (hk : 0 < k) (hlt : k < m) : slotAt heap'.slot q k = slotAt heap.slot q k := by
  rw [mallocImpl_eq] at hrun
  cases ho : issuer size with
  | slot =>
    simp only [ho, Option.map_eq_some_iff, Prod.mk.injEq] at hrun
    rcases hrun with ⟨r, hrun, -, rfl⟩
    exact slotAllocate_data h.slotOk (requiredSlots_bounds (issuer_slot ho)).1 hrun hz hk hlt
  | buddy | direct =>
    simp only [ho, Option.map_eq_some_iff, Prod.mk.injEq] at hrun
    rcases hrun with ⟨r, -, -, rfl⟩
    exact slotAt_congr rfl q k

/-! ## One call -/

section Call

variable {kernel : Kernel} {s : ClientState} {heap heap' : Heap} {count size p q n : ℕ}
  {r : HeapCalloced}

/-- What the call returns after `malloc_impl` has returned `p`. -/
def calloced (size bytes p : ℕ) (heap : Heap) : HeapCalloced :=
  if size < directAllocationThreshold then ⟨p, heap.memset p bytes, some ⟨p, bytes⟩⟩
  else ⟨p, heap, none⟩

theorem callocImpl_eq (kernel : Kernel) (heap : Heap) (count size : ℕ) :
    callocImpl kernel heap count size = (mallocImpl kernel heap (count * size % 2 ^ 64)).map
      fun x => calloced size (count * size % 2 ^ 64) x.1 x.2 := by
  simp only [callocImpl, calloced]
  cases mallocImpl kernel heap (count * size % 2 ^ 64) with
  | none => rfl
  | some =>
    simp only [Option.bind_eq_bind, Option.bind_some, Option.map_some]
    split <;> rfl

theorem calloced_pointer (size bytes p : ℕ) (heap : Heap) :
    (calloced size bytes p heap).pointer = p := by
  unfold calloced
  split <;> rfl

/-- The `memset` that the call makes. -/
theorem mem_fill {f : Fill} : f ∈ (calloced size n p heap).fill ↔
    size < directAllocationThreshold ∧ f = ⟨p, n⟩ := by
  unfold calloced
  split
  · rename_i hlt
    simp only [Option.mem_def, Option.some.injEq]
    exact ⟨fun heq => ⟨hlt, heq.symm⟩, fun heq => heq.2.symm⟩
  · rename_i hge
    exact ⟨fun hmem => (nomatch hmem), fun hlt => absurd hlt.1 hge⟩

/-- The heap after the call, as the client sees it. -/
theorem calloced_passes {o : SubAllocator} {k : ℕ} (h : HeapOk heap) (hall : heap.Allocated o p k)
    (hn : n ≤ capacity o k) : Passed heap (calloced size n p heap).heap := by
  unfold calloced
  split
  · exact memset_passes h hall hn
  · exact ⟨h, fun _ _ _ => Iff.rfl⟩

theorem calloced_slotAt_other {o : SubAllocator} {k m j : ℕ} (h : HeapOk heap)
    (hall : heap.Allocated o p k) (hn : n ≤ capacity o k) (hz : heap.Allocated .slot q m)
    (hne : q ≠ p) (hj : 0 < j) (hlt : j < m) :
    slotAt (calloced size n p heap).heap.slot q j = slotAt heap.slot q j := by
  unfold calloced
  split
  · exact memset_slotAt_other h hall hn hz hne hj hlt
  · rfl

section Served

variable (h : ClientInv s) (hn : 1 ≤ n) (hrun : mallocImpl kernel s.heap n = some (p, heap'))
  (hne : p ≠ 0)
include h hn hrun hne

/-- The block that `malloc_impl` has returned. -/
theorem malloced : Malloced s.heap n p heap' := by
  cases malloc_post h.ok hn hrun with
  | served hpost => exact hpost
  | refused hnull => exact absurd hnull hne

/-- The block begins with zeros: the `memset` has written them, or the pages are new. -/
theorem calloced_zeros (hle : size ≤ n) (m : Bytes) {i : ℕ} (hi : i < n) :
    (calloced size n p heap').bytes s.heap.os m (p + i) = 0 := by
  unfold calloced
  split
  · simp only [HeapCalloced.bytes]
    exact Fill.apply_filled (f := ⟨p, n⟩) hi
  · -- an element that is large enough for the direct allocator
    rename_i hge
    have hn' : ¬ n < directAllocationThreshold := by omega
    have hn'' : ¬ n < slotAllocatorThreshold := by
      have hthresholds : slotAllocatorThreshold ≤ directAllocationThreshold := by decide
      omega
    simp only [mallocImpl, if_neg hn', if_neg hn'', Option.bind_eq_bind, Option.bind_eq_some_iff]
      at hrun
    rcases hrun with ⟨⟨q, part⟩, hdirect, hrun⟩
    rcases Prod.mk.inj (Option.some.inj hrun) with ⟨rfl, -⟩
    rcases direct_granted h.ok hn hdirect with ⟨-, -, hunmapped⟩ | ⟨hnull, -⟩
    · have hin : i < pageExtent n := lt_of_lt_of_le hi (le_pageExtent n)
      exact if_neg (hunmapped _ ⟨Nat.le_add_right _ _, Nat.add_lt_add_left hin _⟩)
    · exact absurd hnull hne

/-- The header positions inside a block of slots are zero as well. -/
theorem calloced_headers (hle : size ≤ n) (ho : issuer n = .slot) {k i : ℕ} (hk : 0 < k)
    (hi : k * slotSize - sizeofSlot + i < n) :
    (slotAt (calloced size n p heap').heap.slot p k).map (slotByte · i) = some 0 := by
  have hpost := malloced h hn hrun hne
  have hlt : size < directAllocationThreshold := lt_of_le_of_lt hle (issuer_slot ho)
  unfold calloced
  rw [if_pos hlt]
  rcases memset_slotAt hpost.ok hpost.new ho hk with ⟨slot, hslot⟩
  rw [hslot, Option.map_some, slotByte_clearSlot (by omega)]

end Served

/-- A block for the whole product is what the client expects. -/
theorem calloc_served (h : ClientInv s) (hcount : 1 ≤ count) (hsize : 1 ≤ size)
    (hfits : count * size < 2 ^ 64)
    (hrun : mallocImpl kernel s.heap (count * size) = some (p, heap')) (hne : p ≠ 0) :
    Calloced kernel s count size (calloced size (count * size) p heap') := by
  have hpos : 1 ≤ count * size := Nat.mul_pos hcount hsize
  have hle : size ≤ count * size := Nat.le_mul_of_pos_left _ hcount
  have hpost := malloced h hpos hrun hne
  have hroom := le_usable ⟨p, count * size⟩
  refine ⟨fun hzero => ?_, .inr ⟨⟨issuer (count * size), p, units (issuer (count * size)) (count * size)⟩,
    ?_⟩, fun z hz howner k hk hlt => ?_⟩
  · rw [Nat.mod_eq_of_lt hfits] at hzero
    omega
  · constructor
    · exact (calloced_pointer _ _ _ _).symm
    · exact ((calloced_passes hpost.ok hpost.new hroom).allocated _ _ _).mpr hpost.new
    · exact hroom
    · exact fun z hz => (h.add hpost).head_apart hz
    · exact fun m i hi => calloced_zeros h hpos hrun hne hle m hi
    · exact fun ho k i hk _ hi => calloced_headers h hpos hrun hne hle ho hk hi
    · intro f hf a hwrites
      rcases mem_fill.mp hf with ⟨-, rfl⟩
      exact ⟨hwrites.1, lt_of_lt_of_le hwrites.2 (Nat.add_le_add_left hroom p)⟩
  · have hold := h.allocated hz
    rw [howner] at hold
    have hkept := (hpost.allocated _ _ _).mpr (.inl hold)
    -- neither malloc nor the memset touches the data of another block
    have hother : z.pointer ≠ p := fun heq => hpost.unallocated (heq ▸ hold)
    rw [calloced_slotAt_other hpost.ok hpost.new hroom hkept hother hk hlt,
      malloc_data h.ok hrun hold hk hlt]

/-- No arena is at the address of null. -/
theorem calloced_null_heap (hok : HeapOk heap) : (calloced size n 0 heap).heap = heap := by
  unfold calloced
  split
  · exact memset_outside (null_outside hok) _
  · rfl

/-- Null is what the client expects as long as nothing is written. -/
theorem calloc_null (h : ClientInv s)
    (hrun : mallocImpl kernel s.heap (count * size % 2 ^ 64) = some (0, heap')) (hok : HeapOk heap')
    (hdefined : count * size % 2 ^ 64 = 0 → AllocatesInBitmap kernel s.heap.buddy 0)
    (hquiet : directAllocationThreshold ≤ size ∨ count * size % 2 ^ 64 = 0) :
    Calloced kernel s count size (calloced size (count * size % 2 ^ 64) 0 heap') := by
  refine ⟨hdefined, .inl ⟨calloced_pointer _ _ _ _, fun f hf a hwrites => ?_⟩,
    fun z hz howner k hk hlt => ?_⟩
  · rcases mem_fill.mp hf with ⟨hlt, rfl⟩
    rcases hquiet with hge | hzero
    · omega
    · have hbelow := hwrites.2
      rw [hzero] at hbelow
      exact absurd hbelow (Nat.not_lt_zero a)
  · have hold := h.allocated hz
    rw [howner] at hold
    rw [calloced_null_heap hok, malloc_data h.ok hrun hold hk hlt]

end Call

/-! ## Runs -/

/-- When `calloc_impl(count, size)` comes out as the client expects. If the product fits into
`size_t`, there is memory for it, or the element is so large that null is not written to. If it
does not, the call must fail, and without a write. -/
def CallocFits (kernel : Kernel) (heap : Heap) (count size : ℕ) : Prop :=
  if count * size < 2 ^ 64 then
    heap.Provides kernel (count * size) ∨
      directAllocationThreshold ≤ size ∧ heap.Opens kernel (count * size)
  else
    heap.Opens kernel (count * size % 2 ^ 64) ∧ ¬ heap.Provides kernel (count * size % 2 ^ 64) ∧
      (directAllocationThreshold ≤ size ∨ count * size % 2 ^ 64 = 0)

/-- A call of the client, now also of `calloc_impl`. -/
inductive CallocOp where
  | call (op : ClientOp)
  | calloc (count size : ℕ)

def CallocOp.Allowed (s : ClientState) : CallocOp → Prop
  | .call op => op.Allowed s
  | .calloc count size => 1 ≤ count ∧ 1 ≤ size

/-- One call, and the client's account of its blocks afterwards. -/
def callocStep (kernel : Kernel) (rounds : ℕ) (op : CallocOp) (s : ClientState) :
    Option ClientState :=
  match op with
  | .call op => clientStep kernel rounds op s
  | .calloc count size => do
      let r ← callocImpl kernel s.heap count size
      if r.pointer = 0 then return ⟨r.heap, s.live⟩
      let bytes := count * size % 2 ^ 64
      return ⟨r.heap, ⟨issuer bytes, r.pointer, units (issuer bytes) bytes⟩ :: s.live⟩

/-- The calls that return. -/
def callocSystem (kernel : Kernel) : System ClientState CallocOp where
  Init s := s = noBlocks
  Next op s s' := op.Allowed s ∧ ∃ rounds, callocStep kernel rounds op s = some s'

/-- No cursor is stranded and no block lost, and `calloc_impl` comes out as expected. -/
def KeepsCalls (kernel : Kernel) (op : CallocOp) (s : ClientState) : Prop :=
  match op with
  | .call op => KeepsBlocks op s
  | .calloc count size => CallocFits kernel s.heap count size

section Runs

variable {kernel : Kernel} {s s' : ClientState} {heap heap' : Heap} {count size p n rounds : ℕ}
  {op : CallocOp} {history : List (CallocOp × ClientState)}

/-- No block that `malloc_impl` hands out is larger than the address space. -/
theorem capacity_le (hn : n < 2 ^ 64) : capacity (issuer n) (units (issuer n) n) ≤ 2 ^ 64 := by
  cases ho : issuer n with
  | buddy => exact (bucketSize_le _).trans (by decide)
  | slot =>
    have hle := (requiredSlots_bounds (issuer_slot ho)).2
    have hcount : slotCount = 248 := rfl
    simp only [capacity, units, slotSize, slotAllocatorSlotSize, sizeofSlot]
    omega
  | direct =>
    simp only [capacity, units, pageExtent, pageSize]
    omega

/-- A request for no bytes goes to the trees. -/
theorem mallocImpl_zero (kernel : Kernel) (heap : Heap) : mallocImpl kernel heap 0 =
    (buddyBlockAllocate kernel heap.buddy 0).map fun r => (r.1, heap.setBuddy r.2) :=
  mallocImpl_eq kernel heap 0

/-- A request for no bytes that stays in the bitmaps returns null. -/
theorem malloc_zero_refused (h : TreesInv s) (hin : AllocatesInBitmap kernel s.heap.buddy 0)
    (hrun : mallocImpl kernel s.heap 0 = some (p, heap')) :
    p = 0 ∧ Passed s.heap heap' ∧ Packed heap'.blocks ∧
      s.heap.Opens kernel 0 ∧ ¬ s.heap.Provides kernel 0 := by
  rw [mallocImpl_zero, Option.map_eq_some_iff] at hrun
  rcases hrun with ⟨r, hrun, hresult⟩
  rcases Prod.mk.inj hresult with ⟨rfl, rfl⟩
  have hzero := zero_refused h.client.ok.buddy h.packed hin hrun
  have hfirst : FirstBlock kernel s.heap.buddy := by
    by_contra hnot
    rw [blockAllocate_noFirst hnot] at hrun
    cases hrun
  have hpass : Passed s.heap (s.heap.setBuddy r.2) :=
    passed_of_part (h.client.ok.setBuddy hzero.refused.ok hzero.refused.grown)
      (others_setBuddy _) hzero.refused.allocated
  exact ⟨hzero.refused.null, hpass, SameTrees.packed hzero.same h.packed, hfirst,
    not_provides_iff.mpr ⟨hzero.full, hzero.noPage⟩⟩

/-- That is so when there is memory for no further block. -/
theorem malloc_zero_ends (h : TreesInv s) (hopens : s.heap.Opens kernel 0)
    (hnone : ¬ s.heap.Provides kernel 0) :
    ∃ heap', mallocImpl kernel s.heap 0 = some (0, heap') ∧ HeapOk heap' ∧
      AllocatesInBitmap kernel s.heap.buddy 0 := by
  rcases not_provides_iff.mp hnone with ⟨hfull, hpage⟩
  rcases zero_inBitmap h.client.ok.buddy h.packed hopens hfull hpage with ⟨⟨r, hrun⟩, hin⟩
  have hmalloc : mallocImpl kernel s.heap 0 = some (r.1, s.heap.setBuddy r.2) := by
    rw [mallocImpl_zero, hrun]
    rfl
  rcases malloc_zero_refused h hin hmalloc with ⟨hnull, hpass, -⟩
  rw [hnull] at hmalloc
  exact ⟨_, hmalloc, hpass.ok, hin⟩

/-- What `malloc_impl` does for at least one byte. -/
theorem malloc_ok (h : HeapOk heap) (hn : 1 ≤ n) (hrun : mallocImpl kernel heap n = some (p, heap')) :
    HeapOk heap' := by
  cases malloc_post h hn hrun with
  | served hpost => exact hpost.ok
  | refused _ _ hpass => exact hpass.ok

/-- Null was not written to. -/
theorem Calloced.quiet (hok : HeapOk heap')
    (hgood : Calloced kernel s count size (calloced size n 0 heap')) :
    directAllocationThreshold ≤ size ∨ n = 0 := by
  by_contra hnot
  rw [not_or, not_le] at hnot
  have hfill : (⟨0, n⟩ : Fill) ∈ (calloced size n 0 heap').fill := mem_fill.mpr ⟨hnot.1, rfl⟩
  rcases hgood.outcome with ⟨-, hnone⟩ | ⟨y, hy⟩
  · exact hnone _ hfill 0 ⟨le_rfl, by simpa using Nat.pos_of_ne_zero hnot.2⟩
  · have hall := hy.allocated
    rw [calloced_null_heap hok] at hall
    exact hok.nonzero hall (hy.pointer.trans (calloced_pointer _ _ _ _))

/-- A product that has wrapped around gets no block of its size. -/
theorem Calloced.null_of_wraps (h : ClientInv s) (hn : 1 ≤ n) (hlt : n < 2 ^ 64)
    (hrun : mallocImpl kernel s.heap n = some (p, heap'))
    (hgood : Calloced kernel s count size (calloced size n p heap'))
    (hwraps : 2 ^ 64 < count * size) : p = 0 := by
  by_contra hne
  have hpost := malloced h hn hrun hne
  rcases hgood.outcome with ⟨hnull, -⟩ | ⟨y, hy⟩
  · exact hne ((calloced_pointer size n p heap').symm.trans hnull)
  · have hpointer : y.pointer = p := hy.pointer.trans (calloced_pointer _ _ _ _)
    have hall := hy.allocated
    rw [(calloced_passes hpost.ok hpost.new (le_usable ⟨p, n⟩)).allocated, hpost.allocated,
      hpointer] at hall
    rcases hall with hold | ⟨howner, -, hunits⟩
    · exact hpost.unallocated hold
    · -- the block is the one for the wrapped product
      have hroom := hy.room
      rw [Held.usable, howner, hunits] at hroom
      have hbound := capacity_le hlt
      omega

/-- A call that comes out as expected either had memory for the product, or wrote nothing. -/
theorem calloc_sound (h : TreesInv s) (hcount : 1 ≤ count) (hsize : 1 ≤ size)
    (hrun : mallocImpl kernel s.heap (count * size % 2 ^ 64) = some (p, heap'))
    (hgood : Calloced kernel s count size (calloced size (count * size % 2 ^ 64) p heap')) :
    CallocFits kernel s.heap count size := by
  have hpos : 1 ≤ count * size := Nat.mul_pos hcount hsize
  have hmod : count * size % 2 ^ 64 < 2 ^ 64 := Nat.mod_lt _ (by decide)
  unfold CallocFits
  split
  · rename_i hfits
    rw [Nat.mod_eq_of_lt hfits] at hrun hgood
    by_cases hprovides : s.heap.Provides kernel (count * size)
    · exact .inl hprovides
    · have hnull : p = 0 := by
        by_contra hne
        exact hprovides ((malloc_serves_iff h.client.ok hpos h.packed hrun).mp hne)
      subst hnull
      -- null was returned, and then no memset was made
      have hquiet := hgood.quiet (malloc_ok h.client.ok hpos hrun)
      exact .inr ⟨hquiet.resolve_right (by omega),
        (malloc_returns_iff h.client.ok hpos).mp ⟨_, hrun⟩⟩
  · rename_i hwraps
    rcases Nat.eq_zero_or_pos (count * size % 2 ^ 64) with hzero | hn
    · -- nothing but null comes of a request for no bytes
      have hin := hgood.defined hzero
      rw [hzero] at hrun ⊢
      rcases malloc_zero_refused h hin hrun with ⟨-, -, -, hopens, hnone⟩
      exact ⟨hopens, hnone, .inr rfl⟩
    · have hlarge : 2 ^ 64 < count * size := by
        rcases Nat.lt_or_eq_of_le (not_lt.mp hwraps) with hlt | heq
        · exact hlt
        · rw [← heq, Nat.mod_self] at hn
          omega
      -- no block is as large as the product, so it was null
      have hnull := hgood.null_of_wraps h.client hn hmod hrun hlarge
      subst hnull
      have hserves := malloc_serves_iff h.client.ok hn h.packed hrun
      exact ⟨(malloc_returns_iff h.client.ok hn).mp ⟨_, hrun⟩,
        fun hprovides => hserves.mpr hprovides rfl,
        hgood.quiet (malloc_ok h.client.ok hn hrun)⟩

/-- And such a call does come out as expected. -/
theorem calloc_complete (h : TreesInv s) (hcount : 1 ≤ count) (hsize : 1 ≤ size)
    (hfits : CallocFits kernel s.heap count size) :
    ∃ p heap', mallocImpl kernel s.heap (count * size % 2 ^ 64) = some (p, heap') ∧
      Calloced kernel s count size (calloced size (count * size % 2 ^ 64) p heap') := by
  have hpos : 1 ≤ count * size := Nat.mul_pos hcount hsize
  unfold CallocFits at hfits
  split at hfits
  · rename_i hlt
    have hmod := Nat.mod_eq_of_lt hlt
    have hopens : s.heap.Opens kernel (count * size) := by
      rcases hfits with hprovides | ⟨-, hopens⟩
      · exact hprovides.opens
      · exact hopens
    rcases (malloc_returns_iff h.client.ok hpos).mpr hopens with ⟨⟨p, heap'⟩, hrun⟩
    by_cases hne : p = 0
    · subst hne
      have hserves := malloc_serves_iff h.client.ok hpos h.packed hrun
      have hlarge : directAllocationThreshold ≤ size := by
        rcases hfits with hprovides | ⟨hlarge, -⟩
        · exact absurd rfl (hserves.mpr hprovides)
        · exact hlarge
      rw [← hmod] at hrun
      exact ⟨0, heap', hrun, calloc_null h.client hrun (malloc_ok h.client.ok (by omega) hrun)
        (by omega) (.inl hlarge)⟩
    · refine ⟨p, heap', hmod.symm ▸ hrun, ?_⟩
      rw [hmod]
      exact calloc_served h.client hcount hsize hlt hrun hne
  · -- the product wraps around, and there is no memory for what is left of it
    rcases hfits with ⟨hopens, hnone, hquiet⟩
    rcases Nat.eq_zero_or_pos (count * size % 2 ^ 64) with hzero | hn
    · rw [hzero] at hopens hnone
      rcases malloc_zero_ends h hopens hnone with ⟨heap', hzerorun, hok, hin⟩
      have hrun : mallocImpl kernel s.heap (count * size % 2 ^ 64) = some (0, heap') := by
        rw [hzero]
        exact hzerorun
      exact ⟨0, heap', hrun, calloc_null h.client hrun hok (fun _ => hin) hquiet⟩
    · rcases (malloc_returns_iff h.client.ok hn).mpr hopens with ⟨⟨p, heap'⟩, hrun⟩
      have hnull : p = 0 := by
        by_contra hne
        exact hnone ((malloc_serves_iff h.client.ok hn h.packed hrun).mp hne)
      subst hnull
      exact ⟨0, heap', hrun, calloc_null h.client hrun (malloc_ok h.client.ok hn hrun)
        (fun hzero => absurd hzero hn.ne') hquiet⟩

theorem exists_calloced : (∃ r, callocImpl kernel heap count size = some r ∧
      Calloced kernel s count size r) ↔
    ∃ p heap', mallocImpl kernel heap (count * size % 2 ^ 64) = some (p, heap') ∧
      Calloced kernel s count size (calloced size (count * size % 2 ^ 64) p heap') := by
  simp only [callocImpl_eq, Option.map_eq_some_iff, Prod.exists]
  constructor
  · rintro ⟨r, ⟨p, heap', hrun, rfl⟩, hgood⟩
    exact ⟨p, heap', hrun, hgood⟩
  · rintro ⟨p, heap', hrun, hgood⟩
    exact ⟨_, ⟨p, heap', hrun, rfl⟩, hgood⟩

theorem calloced_blocks (size n p : ℕ) (heap : Heap) :
    (calloced size n p heap).heap.blocks = heap.blocks := by
  unfold calloced
  split
  · unfold Heap.memset
    split <;> rfl
  · rfl

/-- A call of `calloc_impl` that comes out as expected keeps the account right. -/
theorem calloc_step (h : TreesInv s) (hcount : 1 ≤ count) (hsize : 1 ≤ size)
    (hfits : CallocFits kernel s.heap count size)
    (hstep : callocStep kernel rounds (.calloc count size) s = some s') : TreesInv s' := by
  rcases calloc_complete h hcount hsize hfits with ⟨p, heap', hrun, hgood⟩
  simp only [callocStep, callocImpl_eq, hrun, Option.map_some, Option.bind_eq_bind, Option.bind_some,
    calloced_pointer] at hstep
  rcases Nat.eq_zero_or_pos (count * size % 2 ^ 64) with hzero | hn
  · -- a product of no bytes is refused
    have hin := hgood.defined hzero
    rw [hzero] at hrun hstep
    rcases malloc_zero_refused h hin hrun with ⟨rfl, hpass, hpacked, -⟩
    rw [if_pos rfl, calloced_null_heap hpass.ok] at hstep
    exact Option.some.inj hstep ▸ ⟨h.client.pass hpass, hpacked⟩
  · have hpacked : Packed (calloced size (count * size % 2 ^ 64) p heap').heap.blocks := by
      rw [calloced_blocks]
      exact malloc_packed h.client.ok h.packed hn hrun
    cases malloc_post h.client.ok hn hrun with
    | served hpost =>
      rw [if_neg (hpost.ok.nonzero hpost.new)] at hstep
      -- the block is added, and the memset is a write to it
      have hpass : Passed heap' (calloced size (count * size % 2 ^ 64) p heap').heap :=
        calloced_passes hpost.ok hpost.new (le_usable ⟨p, count * size % 2 ^ 64⟩)
      exact Option.some.inj hstep ▸ ⟨(h.client.add hpost).pass hpass, hpacked⟩
    | refused hnull _ hpass =>
      subst hnull
      rw [if_pos rfl, calloced_null_heap hpass.ok] at hstep
      rw [calloced_null_heap hpass.ok] at hpacked
      exact Option.some.inj hstep ▸ ⟨h.client.pass hpass, hpacked⟩

theorem calls_always (hr : Run (callocSystem kernel) history s)
    (hkeeps : Steps (KeepsCalls kernel) history) : TreesInv s := by
  refine (hr.always_of_steps ?_ ?_ hkeeps).1
  · intro t ht
    rw [show t = noBlocks from ht]
    exact ⟨noBlocks_inv, packed_nil⟩
  · intro op t t' h hguard hnext
    rcases hnext with ⟨hallowed, rounds, hstep⟩
    cases op with
    | call =>
      exact ⟨client_step h.client hguard.1 (.inl hguard.2) hallowed hstep,
        client_packed h.client h.packed hallowed hstep⟩
    | calloc => exact calloc_step h hallowed.1 hallowed.2 hguard hstep

/-- In every state of a run in which no cursor is stranded, no block is lost and `calloc_impl`
came out as expected so far, a call of it does so again exactly under the condition above. -/
theorem calloc_zeroed_iff (hr : Run (callocSystem kernel) history s)
    (hkeeps : Steps (KeepsCalls kernel) history) (hcount : 1 ≤ count) (hsize : 1 ≤ size) :
    (∃ r, callocImpl kernel s.heap count size = some r ∧ Calloced kernel s count size r) ↔
      CallocFits kernel s.heap count size := by
  have h := calls_always hr hkeeps
  rw [exists_calloced]
  constructor
  · rintro ⟨p, heap', hrun, hgood⟩
    exact calloc_sound h hcount hsize hrun hgood
  · exact calloc_complete h hcount hsize

/-- Runs without `calloc_impl` are among these. -/
theorem run_of_calls {calls : List (ClientOp × ClientState)}
    (hr : Run (clientSystem kernel noBlocks) calls s) (hkeeps : Steps KeepsBlocks calls) :
    ∃ history, Run (callocSystem kernel) history s ∧ Steps (KeepsCalls kernel) history := by
  have hlift : Run (callocSystem kernel) (calls.map fun x => (.call x.1, x.2)) s :=
    hr.relabel (fun _ h0 => h0) fun _ _ _ hnext => hnext
  refine ⟨_, hlift, ?_⟩
  intro x hx
  rcases List.mem_map.mp hx with ⟨y, hy, rfl⟩
  exact hkeeps y hy

end Runs

/-- A released block of two slots with data at its header position is handed out again. -/
theorem calloc_zeroed_reused : ∃ history s, Run (callocSystem bumpKernel) history s ∧
    ∃ r, callocImpl bumpKernel s.heap 3 200 = some r ∧ Calloced bumpKernel s 3 200 r := by
  have hrun : (exec (clientNext bumpKernel) [.malloc 600,
      .write ⟨.slot, 4128, 2⟩ (fun _ => ⟨5, true⟩), .free ⟨.slot, 4128, 2⟩] [] noBlocks).map
      (fun x => decide (Steps KeepsBlocks x.1)) = some true := by
    decide +kernel
  rcases Option.map_eq_some_iff.mp hrun with ⟨t, ht, hkept⟩
  rcases run_of_calls (run_of_clientNext ht) (of_decide_eq_true hkept) with ⟨history, hr, hkeeps⟩
  have hfits : CallocFits bumpKernel t.2.heap 3 200 := by
    rw [CallocFits, if_pos (by decide)]
    exact .inl (provides_of_succeeds bumpKernel_succeeds _ _)
  exact ⟨history, t.2, hr, (calloc_zeroed_iff hr hkeeps (by decide) (by decide)).mpr hfits⟩

/-- The product of the first call wraps around to 16, and so many bytes are handed out. -/
theorem calloc_product_wraps : (2 ^ 60 + 1) * 16 = 2 ^ 64 + 16 ∧
    Run (callocSystem bumpKernel) [] noBlocks ∧
    ∃ r, callocImpl bumpKernel noBlocks.heap (2 ^ 60 + 1) 16 = some r ∧ r.pointer = 8192 ∧
      ¬ Calloced bumpKernel noBlocks (2 ^ 60 + 1) 16 r := by
  refine ⟨by decide, .init rfl, ?_⟩
  have hrun : (mallocImpl bumpKernel noBlocks.heap ((2 ^ 60 + 1) * 16 % 2 ^ 64)).map Prod.fst =
      some 8192 := by
    decide +kernel
  rcases Option.map_eq_some_iff.mp hrun with ⟨⟨p, heap'⟩, hmalloc, hp⟩
  have hcall : callocImpl bumpKernel noBlocks.heap (2 ^ 60 + 1) 16 =
      some (calloced 16 ((2 ^ 60 + 1) * 16 % 2 ^ 64) p heap') := by
    rw [callocImpl_eq, hmalloc]
    rfl
  refine ⟨_, hcall, (calloced_pointer _ _ _ _).trans hp, fun hgood => ?_⟩
  have hfits := calloc_sound ⟨noBlocks_inv, packed_nil⟩ (by decide) (by decide) hmalloc hgood
  rw [CallocFits, if_neg (by decide)] at hfits
  exact hfits.2.1 (provides_of_succeeds bumpKernel_succeeds _ _)

end SysProg.Memory
