import Mathlib.Tactic
import SysProg.Memory.BuddyRealloc
import SysProg.Memory.Malloc

/-!
# `realloc_impl` of `task5-memory/src/allocator.c`

The three sub-allocators are asked one after the other whether the block is theirs. A block
of the buddy allocators that fits into no tree moves to the direct allocator; all other
blocks stay with their sub-allocator. Page requests may fail at any point.

* `reallocImpl` — the function over the joint heap, with the copies it makes;
* `Held.regrant` — the block that replaces another one;
* `givesUp` — a call that fails does not leave the block as it was;
* `realloc_post` — what a call does with a block that is handed out: it moved, it was kept
  although the call failed, or it was given up.
-/

namespace SysProg.Memory

open ByteMemory Rows Spans

/-! ## The model -/

/-- What `realloc_impl` leaves behind: the pointer it returns, `0` for null, the heap and
the copies it made. -/
structure HeapReallocated where
  pointer : ℕ
  heap : Heap
  copies : List Copy

/-- The end of `realloc_impl` for a block of the buddy allocators: move the allocation to
the direct allocator. -/
def moveToDirect (kernel : Kernel) (heap : Heap) (pointer currentAllocationSize size : ℕ)
    (copies : List Copy) : Option HeapReallocated := do
  let (insertion, part) ← directAllocatorAllocate kernel heap.direct size
  let heap := heap.setDirect part
  if insertion = 0 then return ⟨0, heap, copies⟩
  let (_, part) ← buddyBlockDeallocate kernel heap.buddy pointer
  return ⟨insertion, heap.setBuddy part, copies ++ [⟨insertion, pointer, currentAllocationSize⟩]⟩

/-- The part of `realloc_impl` for a pointer into no tree. -/
def reallocateElsewhere (kernel : Kernel) (rounds : ℕ) (heap : Heap) (pointer size : ℕ)
    (copies : List Copy) : Option HeapReallocated := do
  let r ← slotAllocatorReallocateWithin kernel rounds heap.slot pointer size
  let heap := heap.setSlot r.heap
  if r.pointer ≠ 0 then return ⟨r.pointer, heap, copies ++ r.copies⟩
  let d ← directAllocatorReallocate kernel heap.direct pointer size
  return ⟨d.pointer, heap.setDirect d.heap, copies ++ r.copies ++ d.copies⟩

/-- `realloc_impl`, with at most `rounds` rounds of the slot allocator's search. -/
def reallocImpl (kernel : Kernel) (rounds : ℕ) (heap : Heap) (pointer size : ℕ) :
    Option HeapReallocated := do
  let r ← buddyBlockReallocate kernel heap.buddy pointer size
  let heap := heap.setBuddy r.heap
  if r.pointer ≠ 0 then return ⟨r.pointer, heap, r.copies⟩
  if r.currentAllocationSize = 0 then
    reallocateElsewhere kernel rounds heap pointer size r.copies
  else
    moveToDirect kernel heap pointer r.currentAllocationSize size r.copies

/-! ## What the client sees -/

/-- A block of the client: the sub-allocator it is from, the pointer, and what the
sub-allocator records of it. -/
structure Held where
  owner : SubAllocator
  pointer : ℕ
  units : ℕ
deriving DecidableEq, Repr

def Held.usable (x : Held) : ℕ := capacity x.owner x.units

/-- The direct allocator has an entry for the pointer. -/
def recorded (heap : Heap) (q : ℕ) : Bool :=
  (find (fun e => decide (e.pages = q)) heap.tables).isSome

/-- The block at `q` that a reallocation of `x` to `size` bytes returned. Only blocks of the
buddy allocators change their sub-allocator. -/
def Held.regrant (x : Held) (heap : Heap) (q size : ℕ) : Held :=
  match x.owner with
  | .buddy => if recorded heap q then ⟨.direct, q, size⟩ else ⟨.buddy, q, fitBucket size⟩
  | .slot => ⟨.slot, q, requiredSlots size⟩
  | .direct =>
      -- a difference that cannot be measured in pages is ignored
      ⟨.direct, q, if size ≤ x.units ∧ x.units < size + pageSize then x.units else size⟩

/-- The memory after the call. Pages that were not mapped before it are zeroed. -/
def HeapReallocated.bytes (r : HeapReallocated) (os : List OsEvent) (m : Bytes) : Bytes :=
  applyAll r.copies fun x => if Mapped os x then m x else 0

/-- A call that fails does not leave the block as it was: a block of the buddy allocators is
released before there is another one for a size that a tree could hold, and a block of slots
has swallowed the free span behind it. -/
def givesUp (heap : Heap) (x : Held) (size : ℕ) : Bool :=
  match x.owner with
  | .buddy => decide (size ≤ buddyAllocatorMaximalAllocation)
  | .slot => freeFollows heap.slot x.pointer
  | .direct => false

variable {kernel : Kernel} {heap heap' heap₁ heap₂ : Heap} {o : SubAllocator} {x y : Held}
  {p q c k m n size rounds : ℕ} {r : HeapReallocated}

/-- The block `x` was replaced by `y`. -/
structure Moved (heap : Heap) (x y : Held) (heap' : Heap) : Prop where
  ok : HeapOk heap'
  allocated : ∀ o q k, heap'.Allocated o q k ↔
    heap.Allocated o q k ∧ q ≠ x.pointer ∨ (⟨o, q, k⟩ : Held) = y
  fresh : y.pointer ≠ x.pointer → ∀ k, ¬ heap.Allocated y.owner y.pointer k

/-- What `realloc_impl` does with the block `x`. -/
inductive ReallocPost (kernel : Kernel) (heap : Heap) (x : Held) (size : ℕ)
    (r : HeapReallocated) : Prop where
  | moved : r.pointer ≠ 0 →
      ((x.owner = .slot → overrunsCursor heap.slot x.pointer size = false) →
        Moved heap x (x.regrant r.heap r.pointer size) r.heap) →
      (x.owner = .buddy → size ≤ (x.regrant r.heap r.pointer size).usable ∧
        DataMoved x.pointer r.pointer x.usable size r.copies) →
      ReallocPost kernel heap x size r
  | kept : r.pointer = 0 → r.copies = [] → ¬ kernel.Succeeds → givesUp heap x size = false →
      Passed heap r.heap → ReallocPost kernel heap x size r
  | lost : r.pointer = 0 → ¬ kernel.Succeeds → givesUp heap x size = true →
      ¬ r.heap.Allocated x.owner x.pointer x.units → ReallocPost kernel heap x size r

/-! ## Combining the parts -/

theorem Passed.moved (h : Passed heap heap₁) (h' : Moved heap₁ x y heap₂) : Moved heap x y heap₂ :=
  ⟨h'.ok, fun o q k => by rw [h'.allocated, h.allocated],
    fun hne k hold => h'.fresh hne k ((h.allocated _ _ _).mpr hold)⟩

/-- It is enough to look at the sub-allocator of the two blocks. -/
theorem moved_of_part (h : HeapOk heap) (hall : heap.Allocated o p m) (hok : HeapOk heap')
    (hother : Others o heap heap')
    (hpart : ∀ z k, heap'.Allocated o z k ↔ heap.Allocated o z k ∧ z ≠ p ∨ z = q ∧ k = n)
    (hfresh : q ≠ p → ∀ k, ¬ heap.Allocated o q k) : Moved heap ⟨o, p, m⟩ ⟨o, q, n⟩ heap' := by
  refine ⟨hok, ?_, hfresh⟩
  intro o' z k
  by_cases ho : o' = o
  · subst ho
    simpa using hpart z k
  · rw [hother o' z k ho]
    simp only [Held.mk.injEq, ho, false_and, or_false]
    -- no other sub-allocator has a block at `p`
    refine ⟨fun hz => ⟨hz, fun heq => ho ?_⟩, fun hz => hz.1⟩
    exact h.owner_unique (heq ▸ hz) hall

/-- The old block is given back after the new one was handed out. -/
theorem Granted.moved (h : Granted heap o q n heap₁) (hfreed : Freed heap₁ p heap₂)
    (hne : q ≠ p) : Moved heap ⟨.buddy, p, c⟩ ⟨o, q, n⟩ heap₂ := by
  refine ⟨hfreed.ok, ?_, fun _ k => h.fresh k⟩
  intro o' z k
  rw [hfreed.allocated, h.allocated]
  simp only [Held.mk.injEq]
  constructor
  · intro hz
    rcases hz with ⟨hz | hz, hzp⟩
    · exact .inl ⟨hz, hzp⟩
    · exact .inr hz
  · intro hz
    rcases hz with ⟨hz, hzp⟩ | ⟨ho, hz, hk⟩
    · exact ⟨.inl hz, hzp⟩
    · exact ⟨.inr ⟨ho, hz, hk⟩, hz ▸ hne⟩

/-- The old block has been given back before the new one is handed out. -/
theorem Freed.moved (h : Freed heap p heap₁) (hgranted : Granted heap₁ o q n heap₂) :
    Moved heap ⟨.buddy, p, c⟩ ⟨o, q, n⟩ heap₂ := by
  refine ⟨hgranted.ok, ?_, fun hne k hold => hgranted.fresh k ((h.allocated _ _ _).mpr ⟨hold, hne⟩)⟩
  intro o' z k
  rw [hgranted.allocated, h.allocated]
  simp only [Held.mk.injEq]

theorem recorded_iff (hq : q ≠ 0) : recorded heap q = true ↔ ∃ k, heap.Allocated .direct q k := by
  unfold recorded
  constructor
  · intro h
    rcases Option.isSome_iff_exists.mp h with ⟨z, hz⟩
    rcases find_some (t := z.1) (i := z.2) hz with ⟨e, he, hpages⟩
    rcases e with ⟨k, pages⟩
    obtain rfl : pages = q := of_decide_eq_true hpages
    exact ⟨k, hq, z.1, z.2, he⟩
  · intro h
    rcases h with ⟨k, -, t, i, he⟩
    have he : cell? heap.tables t i = some ⟨k, q⟩ := he
    cases hfind : find (fun e => decide (e.pages = q)) heap.tables with
    | some => rfl
    | none =>
      have hno := find_none hfind he
      simp at hno

/-- The sub-allocator of the new block, for a block of the buddy allocators. -/
theorem regrant_buddy (hok : HeapOk heap') (hall : heap'.Allocated .buddy q (fitBucket size)) :
    (⟨.buddy, p, c⟩ : Held).regrant heap' q size = ⟨.buddy, q, fitBucket size⟩ := by
  -- a pointer belongs to one sub-allocator
  have hno : recorded heap' q = false := by
    by_contra hyes
    rcases (recorded_iff (hok.nonzero hall)).mp (by simpa using hyes) with ⟨k, hdirect⟩
    cases hok.owner_unique hall hdirect
  simp [Held.regrant, hno]

theorem regrant_direct (hok : HeapOk heap') (hall : heap'.Allocated .direct q size) :
    (⟨.buddy, p, c⟩ : Held).regrant heap' q size = ⟨.direct, q, size⟩ := by
  have hyes : recorded heap' q = true := (recorded_iff (hok.nonzero hall)).mpr ⟨size, hall⟩
  simp [Held.regrant, hyes]

/-! ## Moving to the direct allocator -/

/-- A range of mapped addresses and the beginning of a new mapping are disjoint. -/
theorem copy_disjoint {os : List OsEvent} (hpos : 0 < n) (hlt : n < size)
    (hmapped : ∀ z, p ≤ z → z < p + n → Mapped os z)
    (hunmapped : ∀ z, Range.Has ⟨q, size⟩ z → ¬ Mapped os z) : (⟨q, p, n⟩ : Copy).Disjoint := by
  unfold Copy.Disjoint
  by_contra hover
  have hextent := le_pageExtent size
  simp only [not_or, not_le] at hover
  -- the later of the two starts lies in both ranges
  refine hunmapped (max p q) ⟨le_max_right _ _, ?_⟩ (hmapped (max p q) (le_max_left _ _) ?_)
  · simp only
    omega
  · omega

/-- The bytes of a block are mapped. -/
theorem HeapOk.mapped_block (h : HeapOk heap) (hall : heap.Allocated o p k) :
    ∀ z, p ≤ z → z < p + capacity o k → Mapped heap.os z := by
  intro z hle hlt
  rcases h.holds hall with ⟨-, t, ht, hholds⟩
  exact h.mapped ht (hholds.has hle hlt)

/-- A block that is too large for a tree is still there when it moves. -/
theorem moveToDirect_kept (h : HeapOk heap) (hall : heap.Allocated .buddy p c) (hsize : 1 ≤ size)
    (hgrow : bucketSize c < size)
    (hrun : moveToDirect kernel heap p (bucketSize c) size [] = some r) :
    (r.pointer ≠ 0 ∧ Moved heap ⟨.buddy, p, c⟩ ⟨.direct, r.pointer, size⟩ r.heap ∧
        DataMoved p r.pointer (bucketSize c) size r.copies) ∨
      r.pointer = 0 ∧ r.copies = [] ∧ ¬ kernel.Succeeds ∧ Passed heap r.heap := by
  have hpos : 0 < bucketSize c := (h.holds hall).1
  simp only [moveToDirect, Option.bind_eq_bind, Option.bind_eq_some_iff] at hrun
  rcases hrun with ⟨⟨q, part⟩, hdirect, hrun⟩
  rcases direct_granted h hsize hdirect with ⟨hne, hgranted, hunmapped⟩ | ⟨hq, hfails, hpass⟩
  · have hall' := (hgranted.allocated _ _ _).mpr (.inl hall)
    rcases buddy_freed hgranted.ok kernel hall' with ⟨part', hfree, hfreed⟩
    simp only [if_neg hne, hfree, Option.bind_some] at hrun
    rcases Option.some.inj hrun with rfl
    -- the old block is still there, so the new one is elsewhere
    have hqp : q ≠ p := by
      intro heq
      cases hgranted.ok.owner_unique hgranted.new (heq ▸ hall')
    -- fresh pages do not overlap the old block
    exact .inl ⟨hne, hgranted.moved hfreed hqp, .inr ⟨rfl, hgrow,
      copy_disjoint hpos hgrow (h.mapped_block hall) hunmapped⟩⟩
  · obtain rfl : q = 0 := hq
    simp only [if_true] at hrun
    rcases Option.some.inj hrun with rfl
    exact .inr ⟨rfl, rfl, hfails, hpass⟩

/-- A block that has been released already moves; the second release does nothing. -/
theorem moveToDirect_released (h : HeapOk heap) (hall : heap.Allocated .buddy p c)
    (hfreed : Freed heap p heap₁) (hmapped : ∀ z, Mapped heap.os z → Mapped heap₁.os z)
    (hblocks : heap₁.blocks ≠ []) (hsize : 1 ≤ size) (hgrow : bucketSize c < size)
    (hrun : moveToDirect kernel heap₁ p (bucketSize c) size [] = some r) :
    (r.pointer ≠ 0 ∧ Moved heap ⟨.buddy, p, c⟩ ⟨.direct, r.pointer, size⟩ r.heap ∧
        DataMoved p r.pointer (bucketSize c) size r.copies) ∨
      r.pointer = 0 ∧ ¬ r.heap.Allocated .buddy p c := by
  have hpos : 0 < bucketSize c := (h.holds hall).1
  simp only [moveToDirect, Option.bind_eq_bind, Option.bind_eq_some_iff] at hrun
  rcases hrun with ⟨⟨q, part⟩, hdirect, hrun⟩
  rcases direct_granted hfreed.ok hsize hdirect with ⟨hne, hgranted, hunmapped⟩ | ⟨hq, -, hpass⟩
  · have hvacant : ∀ z d, (heap₁.setDirect part).buddy.Allocated z d →
        p < z ∨ z + bucketSize d ≤ p := by
      intro z d hz
      have hz : (heap₁.setDirect part).Allocated .buddy z d := hz
      rcases (hgranted.allocated _ _ _).mp hz with hold | ⟨hkind, -⟩
      · rcases (hfreed.allocated _ _ _).mp hold with ⟨hold, hzp⟩
        have hapart := h.disjoint hall hold fun heq => hzp (Prod.mk.inj heq).2.symm
        simp only [capacity] at hapart
        omega
      · cases hkind
    rcases blockDeallocate_vacant kernel hgranted.ok.buddy hgranted.ok.buddyRegions
      hblocks (h.aligned hall) hvacant with ⟨found, hfree⟩
    simp only [if_neg hne, hfree, Option.bind_some] at hrun
    rcases Option.some.inj hrun with rfl
    -- the block is free, but its bytes are still there
    refine .inl ⟨hne, hfreed.moved hgranted, .inr ⟨rfl, hgrow, ?_⟩⟩
    exact copy_disjoint hpos hgrow
      (fun z hle hlt => hmapped z (h.mapped_block hall z hle hlt)) hunmapped
  · obtain rfl : q = 0 := hq
    simp only [if_true] at hrun
    rcases Option.some.inj hrun with rfl
    refine .inr ⟨rfl, fun hold => ?_⟩
    rw [hpass.allocated, hfreed.allocated] at hold
    exact hold.2 rfl

/-! ## Blocks of the buddy allocators -/

section Buddy

variable (h : HeapOk heap) (hall : heap.Allocated .buddy p c) (hsize : 1 ≤ size)
include h hall hsize

omit h hall hsize in
/-- A block that a tree has served. -/
theorem reallocImpl_served {first : BlockReallocated}
    (hrun : buddyBlockReallocate kernel heap.buddy p size = some first) (hne : first.pointer ≠ 0)
    (rounds : ℕ) : reallocImpl kernel rounds heap p size =
      some ⟨first.pointer, heap.setBuddy first.heap, first.copies⟩ := by
  simp only [reallocImpl, hrun, Option.bind_eq_bind, Option.bind_some]
  rw [if_pos hne]
  rfl

omit hsize in
/-- A block that no tree has served. The slot allocator is not asked. -/
theorem reallocImpl_unserved {first : BlockReallocated} {kept : Prop}
    (hrun : buddyBlockReallocate kernel heap.buddy p size = some first)
    (hpost : BlockFailed kernel heap.buddy p c kept first) (rounds : ℕ) :
    reallocImpl kernel rounds heap p size =
      moveToDirect kernel (heap.setBuddy first.heap) p (bucketSize c) size [] := by
  have hcurrent : bucketSize c ≠ 0 := (h.holds hall).1.ne'
  simp only [reallocImpl, hrun, Option.bind_eq_bind, Option.bind_some, hpost.null, hpost.current,
    hpost.copies, ne_eq, not_true_eq_false, if_false, if_neg hcurrent]

omit hsize in
/-- A tree has served the request. -/
theorem buddy_moved {first : BlockReallocated}
    (hpost : BlockMoved kernel heap.buddy p c size first.pointer first.heap first.copies) :
    first.pointer ≠ 0 ∧
      ReallocPost kernel heap ⟨.buddy, p, c⟩ size
        ⟨first.pointer, heap.setBuddy first.heap, first.copies⟩ := by
  have hmoved : Moved heap ⟨.buddy, p, c⟩ ⟨.buddy, first.pointer, fitBucket size⟩
      (heap.setBuddy first.heap) :=
    moved_of_part h hall (h.setBuddy hpost.ok hpost.grown)
      (others_setBuddy _) hpost.allocated hpost.fresh
  have hnew : (heap.setBuddy first.heap).Allocated .buddy first.pointer (fitBucket size) :=
    (hmoved.allocated _ _ _).mpr (.inr rfl)
  have hne := hmoved.ok.nonzero hnew
  have hgrant := regrant_buddy (p := p) (c := c) hmoved.ok hnew
  refine ⟨hne, .moved hne (fun _ => ?_) fun _ => ⟨?_, hpost.data⟩⟩
  · rw [hgrant]
    exact hmoved
  · rw [hgrant]
    exact le_bucketSize_fitBucket hpost.fits

omit h hall hsize in
/-- The block is in the direct allocator now. -/
theorem moved_to_direct (hne : r.pointer ≠ 0)
    (hmoved : Moved heap ⟨.buddy, p, c⟩ ⟨.direct, r.pointer, size⟩ r.heap)
    (hdata : DataMoved p r.pointer (bucketSize c) size r.copies) :
    ReallocPost kernel heap ⟨.buddy, p, c⟩ size r := by
  have hnew : r.heap.Allocated .direct r.pointer size := (hmoved.allocated _ _ _).mpr (.inr rfl)
  have hgrant := regrant_direct (p := p) (c := c) hmoved.ok hnew
  refine .moved hne (fun _ => ?_) fun _ => ⟨?_, hdata⟩
  · rw [hgrant]
    exact hmoved
  · rw [hgrant]
    exact le_pageExtent size

omit hsize in
/-- The list of blocks does not become empty. -/
theorem blocks_nonempty {part : BuddyHeap}
    (hgrown : Grown kernel (buddyRegion heap.blocks) heap.os (buddyRegion part.blocks) part.os) :
    part.blocks ≠ [] := by
  rcases h.has hall with ⟨t, ⟨b, i, a, ha, ht⟩, -⟩
  have hregion : (buddyRegion heap.blocks (.cell b i)).isSome = true := by
    rw [buddyRegion, rowRegion_cell ha ht]
    rfl
  intro hnil
  have hsome := hgrown.isSome hregion
  rw [hnil, buddyRegion, rowRegion_nil] at hsome
  cases hsome

theorem realloc_buddy (hrun : reallocImpl kernel rounds heap p size = some r) :
    ReallocPost kernel heap ⟨.buddy, p, c⟩ size r := by
  rcases blockReallocate_spec kernel h.buddy h.buddyRegions hall size with ⟨first, hfirst, hpost⟩
  cases hpost with
  | moved hmoved =>
    rcases buddy_moved h hall hmoved with ⟨hne, hpost⟩
    rw [reallocImpl_served hfirst hne] at hrun
    exact Option.some.inj hrun ▸ hpost
  | released hgrow hmax hfails hfailed =>
    -- the block is gone before the direct allocator is asked
    have hfreed : Freed heap p (heap.setBuddy first.heap) := by
      refine freed_of_part h hall (h.setBuddy hfailed.ok hfailed.grown)
        (others_setBuddy _) fun q k => ?_
      have hpart := hfailed.allocated q k
      simp only [false_or] at hpart
      exact hpart
    rw [reallocImpl_unserved h hall hfirst hfailed] at hrun
    rcases moveToDirect_released h hall hfreed (fun z => hfailed.grown.mapped)
      (blocks_nonempty h hall hfailed.grown) hsize hgrow hrun with
      ⟨hne, hmoved, hdata⟩ | ⟨hnull, hgone⟩
    · exact moved_to_direct hne hmoved hdata
    · exact .lost hnull hfails (decide_eq_true hmax) hgone
  | refused hlarge hfailed =>
    have hpass : Passed heap (heap.setBuddy first.heap) := by
      refine passed_of_part (h.setBuddy hfailed.ok hfailed.grown)
        (others_setBuddy _) fun q k => ?_
      have hpart := hfailed.allocated q k
      simp only [true_or, and_true] at hpart
      exact hpart
    have hgrow : bucketSize c < size := lt_of_le_of_lt (bucketSize_le c) hlarge
    rw [reallocImpl_unserved h hall hfirst hfailed] at hrun
    rcases moveToDirect_kept hpass.ok ((hpass.allocated _ _ _).mpr hall) hsize hgrow hrun with
      ⟨hne, hmoved, hdata⟩ | ⟨hnull, hcopies, hfails, hpass'⟩
    · exact moved_to_direct hne (hpass.moved hmoved) hdata
    · refine .kept hnull hcopies hfails ?_ (hpass.trans hpass')
      simp only [givesUp, decide_eq_false_iff_not]
      exact not_le.mpr hlarge

/-- With memory for it the call returns, whatever the bound is. -/
theorem reallocImpl_buddy_ends (hkernel : kernel.Succeeds) :
    ∃ r, ∀ rounds, reallocImpl kernel rounds heap p size = some r := by
  rcases blockReallocate_spec kernel h.buddy h.buddyRegions hall size with ⟨first, hfirst, hpost⟩
  cases hpost with
  | moved hmoved => exact ⟨_, reallocImpl_served hfirst (buddy_moved h hall hmoved).1⟩
  | released _ _ hfails _ => exact absurd hkernel hfails
  -- too large for a tree: the block moves to pages of its own
  | refused hlarge hfailed =>
    have hok := h.setBuddy hfailed.ok hfailed.grown
    have hall' : (heap.setBuddy first.heap).Allocated .buddy p c :=
      (hfailed.allocated _ _).mpr ⟨hall, .inl trivial⟩
    rcases directAllocate_spec hkernel hok.direct hok.directRegions hsize with
      ⟨⟨q, part⟩, hdirect, hpart⟩
    rcases direct_granted hok hsize hdirect with ⟨hne, hgranted, -⟩ | ⟨-, hfails, -⟩
    · rcases buddy_freed hgranted.ok kernel ((hgranted.allocated _ _ _).mpr (.inl hall')) with
        ⟨part', hfree, -⟩
      refine ⟨⟨q, ((heap.setBuddy first.heap).setDirect part).setBuddy part',
        [⟨q, p, bucketSize c⟩]⟩, fun rounds => ?_⟩
      rw [reallocImpl_unserved h hall hfirst hfailed]
      simp only [moveToDirect, hdirect, Option.bind_eq_bind, Option.bind_some, if_neg hne, hfree]
      rfl
    · exact absurd hkernel hfails

end Buddy

/-! ## Blocks of the slot allocator -/

section Elsewhere

variable (h : HeapOk heap) (hall : heap.Allocated o p k)
include h hall

/-- A block of another sub-allocator lies in no tree. -/
theorem buddy_foreign (ho : o ≠ .buddy) :
    ∀ b i a, cell? heap.buddy.blocks b i = some a → a.owns p = false := by
  intro b i a ha
  by_contra howns
  rcases owns_iff.mp (by simpa using howns) with ⟨hpage, hhas⟩
  rcases h.has hall with ⟨t, ht, hp⟩
  have hmaps : heap.Maps .buddy ⟨a.page, buddyAllocatorMaximalAllocation⟩ :=
    ⟨b, i, a, ha, treeRange_of_page hpage⟩
  exact ho (h.maps_unique ht hmaps hp hhas)

omit hall in
theorem block_passes (kernel : Kernel) :
    Passed heap (heap.setBuddy (initialBlock kernel heap.buddy)) := by
  have hopen := initialBlock_opened kernel heap.buddy
  exact passed_of_part (h.setBuddy (BlocksOpened.ok hopen h.buddy) (hopen.grown rfl))
    (others_setBuddy _) (fun _ _ => BlocksOpened.allocated hopen)

end Elsewhere

/-- For a pointer into no tree the slot allocator is asked next. -/
theorem reallocImpl_elsewhere (kernel : Kernel) (rounds size : ℕ)
    (hforeign : ∀ b i a, cell? heap.buddy.blocks b i = some a → a.owns p = false) :
    reallocImpl kernel rounds heap p size = reallocateElsewhere kernel rounds
      (heap.setBuddy (initialBlock kernel heap.buddy)) p size [] := by
  simp only [reallocImpl, blockReallocate_foreign kernel hforeign, Option.bind_eq_bind,
    Option.bind_some, ne_eq, not_true_eq_false, if_false, if_true]

theorem realloc_slot (h : HeapOk heap) (hall : heap.Allocated .slot p k)
    (hpos : 0 < requiredSlots size) (hrun : reallocImpl kernel rounds heap p size = some r) :
    ReallocPost kernel heap ⟨.slot, p, k⟩ size r := by
  rw [reallocImpl_elsewhere kernel rounds size (buddy_foreign h hall (by decide))] at hrun
  have hpass := block_passes h kernel
  have hall' := (hpass.allocated _ _ _).mpr hall
  have hfollows : freeFollows (heap.setBuddy (initialBlock kernel heap.buddy)).slot p =
      freeFollows heap.slot p := rfl
  have hover : overrunsCursor (heap.setBuddy (initialBlock kernel heap.buddy)).slot p size =
      overrunsCursor heap.slot p size := rfl
  generalize heap.setBuddy (initialBlock kernel heap.buddy) = heap₁ at hrun hpass hall' hfollows hover
  simp only [reallocateElsewhere, Option.bind_eq_bind, Option.bind_eq_some_iff] at hrun
  rcases hrun with ⟨res, hslot, hrun⟩
  cases slotReallocate_post hpass.ok.slotOk hall' hpos hslot with
  | moved hpost hcursor =>
    rw [if_pos hpost.nonzero] at hrun
    rcases Option.some.inj hrun with rfl
    refine .moved hpost.nonzero (fun hkeeps => ?_) fun ho => by cases ho
    -- the cursor stays inside unless the request overruns it
    have hcursors := hcursor.mpr (hover.trans (hkeeps rfl))
    refine hpass.moved (moved_of_part hpass.ok hall'
      (hpass.ok.setSlot ⟨hpost.bases, hpost.tiled, hcursors⟩ hpost.grown)
      (others_setSlot _) ?_ hpost.fresh)
    intro z k'
    have hused := hpost.used z k'
    rw [and_comm] at hused
    exact hused
  | refused len hnull hcopies hfails hle hlen hgrew hsame =>
    -- the direct allocator does not know the pointer either
    simp only [hnull, ne_eq, not_true_eq_false, if_false, Option.bind_eq_some_iff] at hrun
    rcases hrun with ⟨d, hdirect, hrun⟩
    rcases Option.some.inj hrun with rfl
    have hforeign : ∀ size, ¬ heap₁.direct.Allocated p size :=
      direct_foreign hpass.ok hall' (by decide)
    have hforeign' : ∀ size, ¬ (heap₁.setSlot res.heap).direct.Allocated p size := hforeign
    rw [directReallocate_foreign kernel (hpass.ok.nonzero hall') hforeign', Option.some.injEq]
      at hdirect
    subst hdirect
    by_cases hfree : freeFollows heap.slot p = true
    · -- the span is longer than before
      refine .lost rfl hfails hfree fun hold => ?_
      have hold : res.heap.Used p k := hold
      rw [hlen] at hold
      rw [hfollows] at hgrew
      have := hgrew.mpr hfree
      omega
    · have hshort : ¬ k < len := by
        rw [hgrew, hfollows]
        exact hfree
      rcases hsame (by omega) with ⟨hok, hgrown, hused⟩
      have hpass' : Passed heap₁ (heap₁.setSlot res.heap) :=
        passed_of_part (hpass.ok.setSlot hok hgrown) (others_setSlot _) hused
      refine .kept rfl (by simp [hcopies]) hfails (by simpa [givesUp] using hfree) ?_
      exact (hpass.trans hpass').trans (table_passes hpass'.ok kernel)

/-- A size that wraps around to no slots at all is served in place. -/
theorem realloc_slot_zero (h : HeapOk heap) (hall : heap.Allocated .slot p k)
    (hzero : requiredSlots size = 0) (hrun : reallocImpl kernel rounds heap p size = some r) :
    r.pointer = p := by
  rw [reallocImpl_elsewhere kernel rounds size (buddy_foreign h hall (by decide))] at hrun
  have hpass := block_passes h kernel
  simp only [reallocateElsewhere, Option.bind_eq_bind, Option.bind_eq_some_iff] at hrun
  rcases hrun with ⟨res, hslot, hrun⟩
  have hpointer := slotReallocate_zero hpass.ok.slotOk ((hpass.allocated _ _ _).mpr hall) hslot hzero
  rw [if_pos (hpointer ▸ h.nonzero hall)] at hrun
  rw [← Option.some.inj hrun]
  exact hpointer

/-! ## Blocks of the direct allocator -/

theorem DirectHeap.Allocated.unique {heap : DirectHeap} (hok : DirectOk heap)
    (hr : RegionsOk (directRegion heap.tables) heap.os) (h : heap.Allocated p k)
    (h' : heap.Allocated p m) : k = m := by
  rcases h with ⟨hp, t, i, he⟩
  rcases h' with ⟨-, t', i', he'⟩
  rcases entry_unique hok hr hp he he' with ⟨rfl, rfl⟩
  have heq := Option.some.inj (he.symm.trans he')
  simp only [DirectAllocation.mk.injEq, and_true] at heq
  exact heq

/-- What `direct_allocator_reallocate` does to the heap. -/
theorem direct_reallocated {d : DirectReallocated} (h : HeapOk heap)
    (hall : heap.Allocated .direct p k)
    (hpost : DirectReallocatePost kernel heap.direct p k size d) :
    d.pointer ≠ 0 ∧ Moved heap ⟨.direct, p, k⟩
        ((⟨.direct, p, k⟩ : Held).regrant (heap.setDirect d.heap) d.pointer size)
        (heap.setDirect d.heap) ∨
      d.pointer = 0 ∧ d.copies = [] ∧ ¬ kernel.Succeeds ∧ Passed heap (heap.setDirect d.heap) := by
  have hp := h.nonzero hall
  cases hpost with
  | same hle hlt =>
    refine .inl ⟨hp, ?_⟩
    simp only [Held.regrant, hle, hlt, and_self, if_true]
    -- nothing changes, not even the recorded size
    refine moved_of_part h hall h (fun _ _ _ _ => Iff.rfl) ?_ (fun hne => absurd rfl hne)
    intro z k'
    constructor
    · intro hz
      by_cases hzp : z = p
      · subst hzp
        exact .inr ⟨rfl, DirectHeap.Allocated.unique h.direct h.directRegions hz hall⟩
      · exact .inl ⟨hz, hzp⟩
    · intro hz
      rcases hz with ⟨hz, -⟩ | ⟨rfl, rfl⟩
      · exact hz
      · exact hall
  | shrunk t i part hshort hold hmoved hos =>
    refine .inl ⟨hp, ?_⟩
    have hsize : ¬ (size ≤ k ∧ k < size + pageSize) := by omega
    simp only [Held.regrant, hsize, if_false]
    have hregions := h.regions.shrink (i := .inr (.inr (.cell t i))) hold hshort
    have hos : part.os = .unmap ⟨p + pageExtent size, k - pageExtent size⟩ :: heap.os := hos
    rw [← hos] at hregions
    exact moved_of_part h hall (h.updateDirect hmoved.ok hmoved.region hregions)
      (others_setDirect part) hmoved.allocated (fun hne => absurd rfl hne)
  | grown t i q part hgrow hq hne hold hmoved hos =>
    subst hq
    refine .inl ⟨hne, ?_⟩
    have hsize : ¬ (size ≤ k ∧ k < size + pageSize) := by omega
    simp only [Held.regrant, hsize, if_false]
    have hpage : kernel.mmap heap.os size ≠ 0 := hne
    have hregions := h.regions.replace (i := .inr (.inr (.cell t i))) hold size hpage
    have hos : part.os = .unmap ⟨p, k⟩ :: .map ⟨kernel.mmap heap.os size, size⟩ :: heap.os := hos
    rw [← hos] at hregions
    refine moved_of_part h hall (h.updateDirect hmoved.ok hmoved.region hregions)
      (others_setDirect part) hmoved.allocated fun _ k' hold => ?_
    -- what is recorded was mapped, the new pages were not
    have hpos : 0 < k' := h.direct _ _ hold
    refine kernel.fresh heap.os size _ hpage (has_base _ (by omega)) ?_
    exact DirectHeap.Allocated.mapped hold h.direct h.directRegions
  | refused hgrow hpage =>
    refine .inr ⟨rfl, rfl, fun hkernel => hkernel _ _ hpage, ?_⟩
    have hgrown : Grown kernel (directRegion heap.tables) heap.os (directRegion heap.tables)
        (.refuse size :: heap.os) := .refuse size .refl hpage
    exact passed_of_part (h.setDirect h.direct hgrown) (others_setDirect _) fun _ _ => Iff.rfl

theorem realloc_direct (h : HeapOk heap) (hall : heap.Allocated .direct p k) (hsize : 1 ≤ size)
    (hrun : reallocImpl kernel rounds heap p size = some r) :
    ReallocPost kernel heap ⟨.direct, p, k⟩ size r := by
  rw [reallocImpl_elsewhere kernel rounds size (buddy_foreign h hall (by decide))] at hrun
  have hpass := block_passes h kernel
  have hall' := (hpass.allocated _ _ _).mpr hall
  generalize heap.setBuddy (initialBlock kernel heap.buddy) = heap₁ at hrun hpass hall'
  cases hinit : initialArena kernel heap₁.slot with
  | none => simp [reallocateElsewhere, slotAllocatorReallocateWithin, hinit] at hrun
  | some =>
    -- neither a tree nor an arena has the pointer
    have hslot := slotReallocate_foreign rounds size (.inr (mapped_pointer hpass.ok hall'))
      (slot_foreign hpass.ok hall' (by decide)) hinit
    have hpass' := hpass.trans (arena_passes hpass.ok hinit)
    have hall'' := (hpass'.allocated _ _ _).mpr hall
    rcases directReallocate_spec hpass'.ok.direct hpass'.ok.directRegions kernel hall'' hsize with
      ⟨d, hdirect, hpost⟩
    simp only [reallocateElsewhere, hslot, hdirect, Option.bind_eq_bind, Option.bind_some, ne_eq,
      not_true_eq_false, if_false] at hrun
    rcases Option.some.inj hrun with rfl
    rcases direct_reallocated hpass'.ok hall'' hpost with
      ⟨hne, hmoved⟩ | ⟨hnull, hcopies, hfails, hkept⟩
    · exact .moved hne (fun _ => hpass'.moved hmoved) fun ho => by cases ho
    · exact .kept hnull (by simp [hcopies]) hfails rfl (hpass'.trans hkept)

/-- What `realloc_impl` does with a block that is handed out. A block of slots must not be
asked for a size that wraps around to no slots at all. -/
theorem realloc_post (h : HeapOk heap) (hall : heap.Allocated x.owner x.pointer x.units)
    (hsize : 1 ≤ size) (hslots : x.owner = .slot → 0 < requiredSlots size)
    (hrun : reallocImpl kernel rounds heap x.pointer size = some r) :
    ReallocPost kernel heap x size r := by
  rcases x with ⟨o, p, k⟩
  cases o with
  | buddy => exact realloc_buddy h hall hsize hrun
  | slot => exact realloc_slot h hall (hslots rfl) hrun
  | direct => exact realloc_direct h hall hsize hrun

end SysProg.Memory
