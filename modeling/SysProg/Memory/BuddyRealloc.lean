import Mathlib.Tactic
import SysProg.Memory.BuddyHeap

/-!
# Reallocation in the buddy blocks

`buddy_block_reallocate` asks the tree of the block first. When there is no room in it the
block has been released already; the data then goes to a block of another tree, and the
old pointer is released a second time, which does nothing. A size above the maximum leaves
the block as it is.

* `blockDeallocate_vacant` — releasing an address that lies in no block;
* `BlockMoved` — the block was replaced by another one, with its data;
* `blockReallocate_spec` — the three outcomes for a block that is handed out.
-/

namespace SysProg.Memory

open ByteMemory HeapTree Rows

variable {kernel : Kernel} {heap heap' : BuddyHeap} {a a' : BuddyAllocator}
  {size p q b i c d n m : ℕ}

/-! ## Releasing an address twice -/

theorem BuddyHeap.Allocated.nonzero (h : heap.Allocated p c) : p ≠ 0 := by
  rcases allocated_iff.mp h with ⟨b, i, a, n, hhands⟩
  have hpage := hhands.page
  have haddress := hhands.node.address
  omega

/-- The page of the first block is requested, or nothing happens. -/
theorem initialBlock_opened (kernel : Kernel) (heap : BuddyHeap) :
    BlocksOpened kernel heap (initialBlock kernel heap) := by
  rcases heap with ⟨blocks, os⟩
  unfold initialBlock
  by_cases hnil : blocks = []
  · subst hnil
    by_cases hpage : kernel.mmap os pageSize = 0
    · simp only [if_true, requestPage, if_pos hpage]
      exact .refused _ hpage
    · simp only [if_true, requestPage, if_neg hpage]
      exact .fresh _ rfl hpage
  · simp only [hnil, if_false]
    exact .same

/-- Every multiple of 16 in the page of a tree is the address of a lowest block. -/
theorem exists_leafAt {page : ℕ} (h16 : 16 ∣ p) (hpage : 4096 ∣ page)
    (hhas : Range.Has ⟨page, buddyAllocatorMaximalAllocation⟩ p) : ∃ leaf, NodeAt page p 8 leaf := by
  have hextent : pageExtent buddyAllocatorMaximalAllocation = 4096 := rfl
  rcases hhas with ⟨hle, hlt⟩
  rw [hextent] at hlt
  simp only at hle hlt
  -- the lowest nodes of the tree start at index 255
  refine ⟨(p - page) / 16 + 255, ⟨by omega, by omega⟩, le_rfl, ?_⟩
  simp only [start]
  omega

/-- Releasing an address that lies in no block changes nothing. -/
theorem blockDeallocate_vacant (kernel : Kernel) (hok : BuddyOk heap)
    (hr : RegionsOk (buddyRegion heap.blocks) heap.os) (hne : heap.blocks ≠ []) (h16 : 16 ∣ p)
    (hfree : ∀ q d, heap.Allocated q d → p < q ∨ q + bucketSize d ≤ p) :
    ∃ found, buddyBlockDeallocate kernel heap p = some (found, heap) := by
  have hinit : initialBlock kernel heap = heap := if_neg hne
  unfold buddyBlockDeallocate
  rw [hinit]
  cases hfind : find (fun a => a.owns p) heap.blocks with
  | none => exact ⟨false, by simp only [hfind]; rfl⟩
  | some x =>
    rcases find_some (t := x.1) (i := x.2) hfind with ⟨a, ha, howns⟩
    rcases owns_iff.mp howns with ⟨hpage, hhas⟩
    have haligned : 4096 ∣ a.page := hr.aligned _ _ (buddyRegion_tree ha hpage)
    rcases exists_leafAt h16 haligned hhas with ⟨leaf, hleaf⟩
    have hvacant : buddyAllocatorDeallocate a p = some a := by
      refine deallocate_vacant (hok.tree _ _ _ ha) (fun m hm => leaf_level hm) hleaf ?_
      intro m hm hbelow
      -- a block above the lowest one contains the address
      rcases leaf_level hm with ⟨d, hd, hlevel⟩
      have hat : NodeAt a.page (a.page + 16 * start 8 d m) d m := ⟨hlevel, hd, rfl⟩
      have hall := hfree _ d (allocated_iff.mpr ⟨x.1, x.2, a, m, ha, hpage, hm, hat⟩)
      have hle := hbelow.start_le hlevel hleaf.level le_rfl
      have haddress := hleaf.address
      rw [bucketSize_eq hd] at hall
      omega
    refine ⟨true, ?_⟩
    simp only [hfind, ha, hvacant, setCell_self ha, Option.bind_eq_bind, Option.bind_some]
    rfl

/-! ## The outcomes -/

/-- The block of bucket `c` at `p` was replaced by one for `size` bytes at `q`. -/
structure BlockMoved (kernel : Kernel) (heap : BuddyHeap) (p c size q : ℕ) (heap' : BuddyHeap)
    (copies : List Copy) : Prop where
  ok : BuddyOk heap'
  grown : Grown kernel (buddyRegion heap.blocks) heap.os (buddyRegion heap'.blocks) heap'.os
  fits : size ≤ buddyAllocatorMaximalAllocation
  allocated : ∀ x d, heap'.Allocated x d ↔
    heap.Allocated x d ∧ x ≠ p ∨ x = q ∧ d = fitBucket size
  fresh : q ≠ p → ∀ d, ¬ heap.Allocated q d
  data : DataMoved p q (bucketSize c) size copies

/-- No new block was found; the old one is still there (`kept`) or not. -/
structure BlockFailed (kernel : Kernel) (heap : BuddyHeap) (p c : ℕ) (kept : Prop)
    (r : BlockReallocated) : Prop where
  null : r.pointer = 0
  current : r.currentAllocationSize = bucketSize c
  copies : r.copies = []
  ok : BuddyOk r.heap
  grown : Grown kernel (buddyRegion heap.blocks) heap.os (buddyRegion r.heap.blocks) r.heap.os
  allocated : ∀ x d, r.heap.Allocated x d ↔ heap.Allocated x d ∧ (kept ∨ x ≠ p)

/-- What `buddy_block_reallocate` does with a block that is handed out. -/
inductive BlockReallocatePost (kernel : Kernel) (heap : BuddyHeap) (p c size : ℕ)
    (r : BlockReallocated) : Prop where
  | moved : BlockMoved kernel heap p c size r.pointer r.heap r.copies →
      BlockReallocatePost kernel heap p c size r
  | released : bucketSize c < size → size ≤ buddyAllocatorMaximalAllocation → ¬ kernel.Succeeds →
      BlockFailed kernel heap p c False r → BlockReallocatePost kernel heap p c size r
  | refused : buddyAllocatorMaximalAllocation < size → BlockFailed kernel heap p c True r →
      BlockReallocatePost kernel heap p c size r

section Outcomes

variable (hok : BuddyOk heap) (hr : RegionsOk (buddyRegion heap.blocks) heap.os)
  (h : Hands heap.blocks b i a n p c)
include hok hr h

/-- The tree itself has a block for the new size. -/
theorem Hands.moved (hpage : a'.page = a.page) (hmax : size ≤ buddyAllocatorMaximalAllocation)
    (hat : NodeAt a.page q (fitBucket size) m) (hm : m ∉ leaves a.nodes \ {n})
    (htracks : Tracks a'.nodes (insert m (leaves a.nodes \ {n}))) {copies : List Copy}
    (hdata : DataMoved p q (bucketSize c) size copies) :
    BlockMoved kernel heap p c size q { heap with blocks := setCell heap.blocks b i a' } copies := by
  have hlevels : ∀ k ∈ insert m (leaves a.nodes \ {n}), ∃ c, c ≤ 8 ∧ AtLevel c k := by
    intro k hk
    rcases hk with rfl | hk
    · exact ⟨_, hat.depth, hat.level⟩
    · exact leaf_level hk.1
  -- first the old block goes, then the new one comes
  rcases tree_deallocate (hok.tree _ _ _ h.cell) h.leaf h.node with ⟨a₀, -, hpage₀, htree₀, hleaves₀⟩
  rcases h.removed hok hr hpage₀ htree₀ hleaves₀ with ⟨hok₀, hregion₀, hallocated₀⟩
  have hserves : Serves { heap with blocks := setCell heap.blocks b i a₀ } b i a₀ a' q
      (fitBucket size) m := by
    refine ⟨by simp [cell?_setCell h.cell], hpage ▸ h.page, fun _ => hpage.trans hpage₀.symm,
      treeOk_of_tracks htracks hlevels, ?_, ?_, hpage ▸ hat⟩
    · rw [leaves_eq htracks hlevels, hleaves₀]
    · rw [hleaves₀]
      exact hm
  have hok' : BuddyOk ⟨setCell (setCell heap.blocks b i a₀) b i a', heap.os⟩ := hserves.ok hok₀
  have hallocated : ∀ x d,
      BuddyHeap.Allocated ⟨setCell (setCell heap.blocks b i a₀) b i a', heap.os⟩ x d ↔
        BuddyHeap.Allocated { heap with blocks := setCell heap.blocks b i a₀ } x d ∨
          x = q ∧ d = fitBucket size := fun x d => hserves.allocated hok₀
  have hregion : buddyRegion (setCell (setCell heap.blocks b i a₀) b i a') =
      buddyRegion heap.blocks := by
    rw [setCell_setCell]
    exact buddyRegion_setCell h.cell hpage
  have hregions : RegionsOk (buddyRegion (setCell (setCell heap.blocks b i a₀) b i a')) heap.os := by
    rw [hregion]
    exact hr
  have hunallocated : ∀ d,
      ¬ BuddyHeap.Allocated { heap with blocks := setCell heap.blocks b i a₀ } q d :=
    fun d => hserves.unallocated hregions
  simp only [setCell_setCell] at hok' hallocated hregion
  refine ⟨hok', ?_, hmax, ?_, ?_, hdata⟩
  · rw [hregion]
    exact .refl
  · intro x d
    rw [hallocated, hallocated₀]
  · intro hne d hall
    exact hunallocated d ((hallocated₀ q d).mpr ⟨hall, hne⟩)

omit hok hr in
/-- A block that `buddy_block_allocate` finds after the release has no byte in common
with the old one: in the same tree there is no room around it. -/
theorem Hands.disjoint_served {heap₁ : BuddyHeap} {r : ℕ × BuddyHeap} (hpage : a'.page = a.page)
    (hleaves : leaves a'.nodes = leaves a.nodes \ {n})
    (hroom : NoRoom (leaves a.nodes \ {n}) size n)
    (hheap₁ : heap₁ = { heap with blocks := setCell heap.blocks b i a' })
    (hr₁ : RegionsOk (buddyRegion heap₁.blocks) heap₁.os)
    (hpost : BlockAllocated kernel heap₁ size r) :
    p + bucketSize c ≤ r.1 ∨ r.1 + bucketSize (fitBucket size) ≤ p := by
  rcases hpost.served with ⟨heap₂, k, j, x, x', m, hopen, hserves, hblocks⟩
  have hcell : cell? heap₁.blocks b i = some a' := by
    rw [hheap₁]
    simp [cell?_setCell h.cell]
  have hcell₂ := hopen.cell_old hcell
  by_cases hkj : b = k ∧ i = j
  · -- the same tree
    rcases hkj with ⟨rfl, rfl⟩
    rcases Option.some.inj (hserves.cell.symm.trans hcell₂) with rfl
    have hsame : x'.page = a.page := (hserves.same (hpage ▸ h.page)).trans hpage
    have hapart : ∀ l ∈ leaves a.nodes \ {n}, Apart l m := by
      intro l hl
      rw [← hleaves] at hl
      refine hserves.tree.apart l ?_ m ?_ ?_
      · rw [hserves.added]
        exact .inr hl
      · rw [hserves.added]
        exact .inl rfl
      · intro heq
        exact hserves.fresh (heq ▸ hl)
    have hat := hserves.node
    rw [hsame] at hat
    exact h.node.disjoint hat (hroom m hat.level hapart)
  · -- another tree, on another page
    have hrr : RegionsOk (buddyRegion r.2.blocks) r.2.os := hpost.grown.regionsOk hr₁
    rw [hblocks] at hrr
    have hold : cell? (setCell heap₂.blocks k j x') b i = some a' := by
      rw [cell?_setCell hserves.cell, if_neg hkj]
      exact hcell₂
    have hhands := hserves.hands
    have hne : RowRegion.cell b i ≠ RowRegion.cell k j := by simpa using hkj
    refine hrr.disjoint (buddyRegion_tree hold (hpage ▸ h.page))
      (buddyRegion_tree hhands.cell hhands.page) hne ?_ hhands.node.holds
      (bucketSize_pos h.node.depth) (bucketSize_pos hhands.node.depth)
    rw [hpage]
    exact h.node.holds

end Outcomes

theorem BuddyHeap.Allocated.dvd (hr : RegionsOk (buddyRegion heap.blocks) heap.os)
    (h : heap.Allocated p c) : 16 ∣ p := by
  rcases allocated_iff.mp h with ⟨b, i, a, n, hhands⟩
  have hbase : 4096 ∣ a.page := hr.aligned _ _ (buddyRegion_tree hhands.cell hhands.page)
  have haddress := hhands.node.address
  omega

/-- The block at `p` has been released, and nothing else has changed. -/
structure Vacated (heap heap₁ : BuddyHeap) (p : ℕ) : Prop where
  ok : BuddyOk heap₁
  region : buddyRegion heap₁.blocks = buddyRegion heap.blocks
  os : heap₁.os = heap.os
  allocated : ∀ x d, heap₁.Allocated x d ↔ heap.Allocated x d ∧ x ≠ p

namespace Vacated

variable {heap₁ heap₂ : BuddyHeap} (h : Vacated heap heap₁ p)
include h

theorem regions (hr : RegionsOk (buddyRegion heap.blocks) heap.os) :
    RegionsOk (buddyRegion heap₁.blocks) heap₁.os := by
  rw [h.region, h.os]
  exact hr

theorem grown (hgrown : Grown kernel (buddyRegion heap₁.blocks) heap₁.os (buddyRegion heap₂.blocks)
      heap₂.os) :
    Grown kernel (buddyRegion heap.blocks) heap.os (buddyRegion heap₂.blocks) heap₂.os := by
  rw [← h.region, ← h.os]
  exact hgrown

/-- With the new block apart from the old one, no block contains the old address any more. -/
theorem deallocate_none (hok : BuddyOk heap) (hr : RegionsOk (buddyRegion heap.blocks) heap.os)
    (hall : heap.Allocated p c) (hpost : BlockAllocated kernel heap₁ size (q, heap₂))
    (hapart : p + bucketSize c ≤ q ∨ q + bucketSize (fitBucket size) ≤ p) :
    ∃ found, buddyBlockDeallocate kernel heap₂ p = some (found, heap₂) := by
  have hnew : heap₂.Allocated q (fitBucket size) := (hpost.allocated _ _).mpr (.inr ⟨rfl, rfl⟩)
  rcases allocated_iff.mp hnew with ⟨k, j, y, m, hhands⟩
  have hpos : 0 < bucketSize c := by
    rcases allocated_iff.mp hall with ⟨_, _, _, _, hold⟩
    exact bucketSize_pos hold.node.depth
  refine blockDeallocate_vacant kernel hpost.ok (hpost.grown.regionsOk (h.regions hr))
    (ne_nil_of_cell? hhands.cell) (hall.dvd hr) ?_
  intro x d hx
  rcases (hpost.allocated x d).mp hx with hold | ⟨rfl, rfl⟩
  · -- blocks that were handed out before were apart from the old one
    rcases (h.allocated x d).mp hold with ⟨hold, hne⟩
    have hother := hall.disjoint hok hr hold hne.symm
    omega
  · omega

/-- A new block was found for the data of the old one. -/
theorem moved (hpost : BlockAllocated kernel heap₁ size (q, heap₂)) (hsize : bucketSize c < size)
    (hmax : size ≤ buddyAllocatorMaximalAllocation)
    (hapart : p + bucketSize c ≤ q ∨ q + bucketSize (fitBucket size) ≤ p) :
    BlockMoved kernel heap p c size q heap₂ [⟨q, p, bucketSize c⟩] := by
  have hwidth : bucketSize c ≤ bucketSize (fitBucket size) :=
    le_trans hsize.le (le_bucketSize_fitBucket hmax)
  -- the two blocks are apart, so the copy does not overlap
  refine ⟨hpost.ok, h.grown hpost.grown, hmax, ?_, ?_, .inr ⟨rfl, hsize, ?_⟩⟩
  · intro x d
    rw [hpost.allocated, h.allocated]
  · intro hne d hold
    exact hpost.fresh d ((h.allocated q d).mpr ⟨hold, hne⟩)
  · rcases hapart with hbefore | hbehind
    · exact .inr hbefore
    · exact .inl (le_trans (Nat.add_le_add_left hwidth q) hbehind)

end Vacated

section Released

variable (hok : BuddyOk heap) (hr : RegionsOk (buddyRegion heap.blocks) heap.os)
  (h : Hands heap.blocks b i a n p c) (hpage : a'.page = a.page)
  (htracks : Tracks a'.nodes (leaves a.nodes \ {n}))
include hok hr h hpage htracks

/-- The tree has released the block. -/
theorem Hands.vacated : Vacated heap { heap with blocks := setCell heap.blocks b i a' } p := by
  have hlevels : ∀ k ∈ leaves a.nodes \ {n}, ∃ c, c ≤ 8 ∧ AtLevel c k := fun k hk => leaf_level hk.1
  rcases h.removed hok hr hpage (treeOk_of_tracks htracks hlevels) (leaves_eq htracks hlevels) with
    ⟨hok₁, hregion, hallocated₁⟩
  exact ⟨hok₁, hregion, rfl, hallocated₁⟩

/-- The block has been released, and `buddy_block_allocate` is asked for another one. -/
theorem Hands.released (kernel : Kernel) (hsize : bucketSize c < size)
    (hmax : size ≤ buddyAllocatorMaximalAllocation)
    (hroom : NoRoom (leaves a.nodes \ {n}) size n) :
    ∃ q heap₂, buddyBlockAllocate kernel { heap with blocks := setCell heap.blocks b i a' } size =
        some (q, heap₂) ∧
      (q = 0 ∧ ¬ kernel.Succeeds ∧
          BlockFailed kernel heap p c False ⟨0, bucketSize c, heap₂, []⟩ ∨
        q ≠ 0 ∧ (∃ found, buddyBlockDeallocate kernel heap₂ p = some (found, heap₂)) ∧
          BlockMoved kernel heap p c size q heap₂ [⟨q, p, bucketSize c⟩]) := by
  have hleaves := leaves_eq htracks fun k hk => leaf_level hk.1
  have hcell : cell? (setCell heap.blocks b i a') b i = some a' := by simp [cell?_setCell h.cell]
  have hvacated := h.vacated hok hr hpage htracks
  have hr₁ := hvacated.regions hr
  have hall : heap.Allocated p c := allocated_iff.mpr ⟨b, i, a, n, h⟩
  have hfirst : FirstBlock kernel { heap with blocks := setCell heap.blocks b i a' } :=
    fun hnil => absurd hnil (ne_nil_of_cell? hcell)
  rcases blockAllocate_ends hvacated.ok hr₁ (show 1 ≤ size by omega) hfirst with
    ⟨⟨q, heap₂⟩, hrun, hpost | hpost⟩
  · have hnew : heap₂.Allocated q (fitBucket size) := (hpost.allocated _ _).mpr (.inr ⟨rfl, rfl⟩)
    have hapart := h.disjoint_served hpage hleaves hroom rfl hr₁ hpost
    exact ⟨q, heap₂, hrun, .inr ⟨hnew.nonzero, hvacated.deallocate_none hok hr hall hpost hapart,
      hvacated.moved hpost hsize hmax hapart⟩⟩
  · -- the block is lost: it was released before the request
    have hfails := hpost.cause.resolve_left (not_lt.mpr hmax)
    refine ⟨q, heap₂, hrun, .inl ⟨hpost.null, hfails, rfl, rfl, rfl, hpost.ok,
      hvacated.grown hpost.grown, ?_⟩⟩
    intro x d
    rw [hpost.allocated, hvacated.allocated]
    simp

end Released

/-- What the tree of a block does. -/
theorem Hands.tree_reallocate (hok : BuddyOk heap) (h : Hands heap.blocks b i a n p c) (size : ℕ) :
    ∃ r, buddyAllocatorReallocate a p size = some r ∧ r.allocator.page = a.page ∧
      r.currentAllocationSize = bucketSize c ∧
      ReallocatePost a (leaves a.nodes \ {n}) p c n size r := by
  have hinsert : insert n (leaves a.nodes \ {n}) = leaves a.nodes := by simp [h.leaf]
  have htree : Tracks a.nodes (insert n (leaves a.nodes \ {n})) := by
    rw [hinsert]
    exact hok.tree _ _ _ h.cell
  exact reallocate_spec size htree (by simp) h.node

/-- No tree has a block for a size above the maximum. -/
theorem Hands.tooLarge (kernel : Kernel) (hok : BuddyOk heap)
    (hr : RegionsOk (buddyRegion heap.blocks) heap.os) (h : Hands heap.blocks b i a n p c)
    (hlarge : buddyAllocatorMaximalAllocation < size) :
    ∃ heap₂, buddyBlockAllocate kernel heap size = some (0, heap₂) ∧
      BlockRefused kernel heap size (0, heap₂) := by
  have hfirst : FirstBlock kernel heap := fun hnil => absurd hnil (ne_nil_of_cell? h.cell)
  rcases blockAllocate_ends hok hr (show 1 ≤ size by omega) hfirst with
    ⟨⟨q, heap₂⟩, halloc, hpost | hpost⟩
  · exact absurd hpost.fits (not_le.mpr hlarge)
  · obtain rfl : q = 0 := hpost.null
    exact ⟨heap₂, halloc, hpost⟩

theorem not_direct_of_le (hmax : size ≤ buddyAllocatorMaximalAllocation) :
    ¬ size > directAllocationThreshold := by
  have hmax : size ≤ 4096 := hmax
  simp only [directAllocationThreshold, pageSize]
  omega

/-- `buddy_block_reallocate` returns for every block that is handed out. -/
theorem blockReallocate_spec (kernel : Kernel) (hok : BuddyOk heap)
    (hr : RegionsOk (buddyRegion heap.blocks) heap.os) (hall : heap.Allocated p c) (size : ℕ) :
    ∃ r, buddyBlockReallocate kernel heap p size = some r ∧
      BlockReallocatePost kernel heap p c size r := by
  rcases allocated_iff.mp hall with ⟨b, i, a, n, h⟩
  rcases h.tree_reallocate hok size with ⟨r, hrun, hpage, hcurrent, hpost⟩
  unfold buddyBlockReallocate
  simp only [initialBlock_of_cell h.cell, h.find hr, h.cell, hrun, Option.bind_eq_bind,
    Option.bind_some, hcurrent]
  cases hpost with
  | moved q m hq hmax hat hm htracks hdata =>
    -- the tree of the block serves the new size
    simp only [hq]
    exact ⟨_, rfl, .moved (h.moved hok hr hpage hmax hat hm htracks hdata)⟩
  | released hq hgrow hmax htracks hroom hcopy =>
    rcases h.released hok hr hpage htracks kernel hgrow hmax hroom with
      ⟨q, heap₂, halloc, hcases⟩
    have hthreshold := not_direct_of_le hmax
    simp only [hq, hcopy, if_neg hthreshold, halloc, Option.bind_some, Option.toList_none,
      List.nil_append]
    rcases hcases with ⟨rfl, hfails, hfailed⟩ | ⟨hne, ⟨found, hvacant⟩, hmoved⟩
    · exact ⟨_, rfl, .released hgrow hmax hfails hfailed⟩
    · simp only [if_neg hne, hvacant, Option.bind_some]
      exact ⟨_, rfl, .moved hmoved⟩
  | refused hq hlarge ha hcopy =>
    simp only [hq, hcopy, ha, setCell_self h.cell, Option.toList_none, List.nil_append]
    by_cases hthreshold : size > directAllocationThreshold
    · -- the caller will ask the direct allocator
      rw [if_pos hthreshold]
      exact ⟨_, rfl, .refused hlarge ⟨rfl, rfl, rfl, hok, .refl, by simp⟩⟩
    · -- no tree has a block for the size
      rcases h.tooLarge kernel hok hr hlarge with ⟨heap₂, halloc, hpost⟩
      simp only [if_neg hthreshold, halloc, Option.bind_some, if_true]
      refine ⟨_, rfl, .refused hlarge ⟨rfl, rfl, rfl, hpost.ok, hpost.grown, ?_⟩⟩
      intro x d
      rw [hpost.allocated]
      simp

section Foreign

variable (kernel : Kernel) (hforeign : ∀ b i a, cell? heap.blocks b i = some a → a.owns p = false)
include hforeign

/-- A pointer into no tree is not found. -/
theorem find_owner_none : find (fun a => a.owns p) (initialBlock kernel heap).blocks = none := by
  cases hfind : find (fun a => a.owns p) (initialBlock kernel heap).blocks with
  | none => rfl
  | some x =>
    rcases find_some (t := x.1) (i := x.2) hfind with ⟨a, ha, howns⟩
    rcases (initialBlock_opened kernel heap).cell_cases ha with hold | rfl
    · rw [hforeign _ _ _ hold] at howns
      cases howns
    · -- the allocators of a new block have no page
      cases howns

theorem blockDeallocate_foreign :
    buddyBlockDeallocate kernel heap p = some (false, initialBlock kernel heap) := by
  unfold buddyBlockDeallocate
  simp only [find_owner_none kernel hforeign]
  rfl

theorem blockReallocate_foreign :
    buddyBlockReallocate kernel heap p size = some ⟨0, 0, initialBlock kernel heap, []⟩ := by
  unfold buddyBlockReallocate
  simp only [find_owner_none kernel hforeign]
  rfl

end Foreign

end SysProg.Memory
