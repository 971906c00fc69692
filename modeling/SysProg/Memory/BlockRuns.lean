import Mathlib.Tactic
import SysProg.Lib.Lts
import SysProg.Memory.BuddyBounds

/-!
# Runs of the buddy blocks

The three functions of `buddy_block.c` are called on live blocks, and on pointers that belong to
no tree, as `free_impl` and `realloc_impl` do. In between, the rest of the process maps and unmaps
other pages, and page requests may fail.

* `blockSystem` — the transition system; the state pairs the blocks with the account of what
  is live;
* `BlockInv`, `block_reachable_inv` — the live blocks are those that the trees have handed out,
  and the trees that have pages are the first ones;
* `release_vacant` — releasing an address that lies in no live block;
* `malloc_in_bitmap_iff` — when `malloc_impl` uses the nodes of the trees only.
-/

namespace SysProg.Memory

open HeapTree Rows Lts

/-! ## The system -/

structure BlockState where
  heap : BuddyHeap
  live : List Block

inductive BlockOp where
  | allocate (size : ℕ)
  | deallocate (block : Block)
  | reallocate (block : Block) (size : ℕ)
  | deallocateForeign (pointer : ℕ)
  | reallocateForeign (pointer size : ℕ)
  | other (events : List OsEvent)

/-- No tree has the pointer in its page. -/
def BuddyHeap.Foreign (heap : BuddyHeap) (pointer : ℕ) : Prop :=
  ∀ b i a, cell? heap.blocks b i = some a → a.owns pointer = false

/-- Requests are for at least one byte, or do no harm; blocks are live; other pointers belong to
no tree; and nobody else unmaps the pages of the buddy blocks. -/
def BlockOp.Allowed (kernel : Kernel) (s : BlockState) : BlockOp → Prop
  | .allocate size => 1 ≤ size ∨ AllocatesInBitmap kernel s.heap size
  | .deallocate x => x ∈ s.live
  | .reallocate x _ => x ∈ s.live
  | .deallocateForeign pointer | .reallocateForeign pointer _ => s.heap.Foreign pointer
  | .other events => ∀ i r y, buddyRegion s.heap.blocks i = some r → r.Has y →
      Mapped (events ++ s.heap.os) y

/-- One call, and what it does to the account. A failed reallocation keeps the block when the
size exceeds the maximum of a tree and loses it otherwise. -/
def blockCall (kernel : Kernel) (op : BlockOp) (s : BlockState) : Option BlockState :=
  match op with
  | .allocate size => do
      let (p, heap) ← buddyBlockAllocate kernel s.heap size
      if p = 0 then return ⟨heap, s.live⟩
      return ⟨heap, ⟨p, size⟩ :: s.live⟩
  | .deallocate x => do
      let (_, heap) ← buddyBlockDeallocate kernel s.heap x.pointer
      return ⟨heap, release x.pointer s.live⟩
  | .reallocate x size => do
      let r ← buddyBlockReallocate kernel s.heap x.pointer size
      if r.pointer ≠ 0 then return ⟨r.heap, ⟨r.pointer, size⟩ :: release x.pointer s.live⟩
      if size > buddyAllocatorMaximalAllocation then return ⟨r.heap, s.live⟩
      return ⟨r.heap, release x.pointer s.live⟩
  | .deallocateForeign pointer => do
      let (_, heap) ← buddyBlockDeallocate kernel s.heap pointer
      return ⟨heap, s.live⟩
  | .reallocateForeign pointer size => do
      let r ← buddyBlockReallocate kernel s.heap pointer size
      return ⟨r.heap, s.live⟩
  | .other events => some ⟨{ s.heap with os := events ++ s.heap.os }, s.live⟩

def blockSystem (kernel : Kernel) : System BlockState BlockOp where
  Init s := s = ⟨⟨[], []⟩, []⟩
  Next op s s' := op.Allowed kernel s ∧ blockCall kernel op s = some s'

/-! ## The invariant -/

/-- The live blocks are those that the trees have handed out. -/
structure BlockInv (s : BlockState) : Prop where
  ok : BuddyOk s.heap
  regions : RegionsOk (buddyRegion s.heap.blocks) s.heap.os
  packed : Packed s.heap.blocks
  issued : ∀ p c, s.heap.Allocated p c ↔ ∃ x ∈ s.live, x.pointer = p ∧ x.bucket = c
  distinct : (s.live.map Block.pointer).Nodup

variable {kernel : Kernel} {heap heap' : BuddyHeap} {live : List Block} {s s' : BlockState}
  {x y : Block} {op : BlockOp} {p q c size page : ℕ}

namespace BlockInv

variable (h : BlockInv s)
include h

theorem allocated (hx : x ∈ s.live) : s.heap.Allocated x.pointer x.bucket :=
  (h.issued _ _).mpr ⟨x, hx, rfl, rfl⟩

/-- Nothing that is handed out changes. -/
theorem pass (hok : BuddyOk heap') (hregions : RegionsOk (buddyRegion heap'.blocks) heap'.os)
    (hpacked : Packed heap'.blocks)
    (hallocated : ∀ q c, heap'.Allocated q c ↔ s.heap.Allocated q c) : BlockInv ⟨heap', s.live⟩ :=
  ⟨hok, hregions, hpacked, fun p c => by rw [hallocated, h.issued], h.distinct⟩

/-- Before a pointer is looked for, the first block is created. -/
theorem opened (kernel : Kernel) : BlockInv ⟨initialBlock kernel s.heap, s.live⟩ := by
  have hopen := initialBlock_opened kernel s.heap
  exact h.pass (BlocksOpened.ok hopen h.ok) ((hopen.grown rfl).regionsOk h.regions)
    (SameTrees.packed (BlocksOpened.sameTrees hopen) h.packed)
    fun _ _ => BlocksOpened.allocated hopen

theorem add {r : ℕ × BuddyHeap} (hpost : BlockAllocated kernel s.heap size r)
    (hpacked : Packed r.2.blocks) : BlockInv ⟨r.2, ⟨r.1, size⟩ :: s.live⟩ := by
  refine ⟨hpost.ok, hpost.grown.regionsOk h.regions, hpacked, ?_, ?_⟩
  · intro p c
    rw [hpost.allocated, h.issued]
    simp only [List.mem_cons, exists_eq_or_imp, Block.bucket]
    rw [or_comm]
    exact or_congr_left (and_congr eq_comm eq_comm)
  · rw [List.map_cons, List.nodup_cons]
    refine ⟨fun hmem => ?_, h.distinct⟩
    rcases List.mem_map.mp hmem with ⟨y, hy, hyp⟩
    exact hpost.fresh _ (hyp ▸ h.allocated hy)

omit h in
theorem distinct_release (hdistinct : (live.map Block.pointer).Nodup) :
    ((release p live).map Block.pointer).Nodup :=
  hdistinct.sublist (List.filter_sublist.map _)

omit h in
/-- The blocks that are left are those with other pointers. -/
theorem issued_release (hissued : ∀ p c, heap.Allocated p c ↔
      ∃ x ∈ live, x.pointer = p ∧ x.bucket = c) :
    heap.Allocated q c ∧ q ≠ p ↔ ∃ x ∈ release p live, x.pointer = q ∧ x.bucket = c := by
  rw [hissued]
  constructor
  · rintro ⟨⟨x, hx, rfl, rfl⟩, hne⟩
    exact ⟨x, mem_release.mpr ⟨hx, hne⟩, rfl, rfl⟩
  · rintro ⟨x, hx, rfl, rfl⟩
    rcases mem_release.mp hx with ⟨hx, hne⟩
    exact ⟨⟨x, hx, rfl, rfl⟩, hne⟩

theorem drop (hok : BuddyOk heap') (hregions : RegionsOk (buddyRegion heap'.blocks) heap'.os)
    (hpacked : Packed heap'.blocks)
    (hallocated : ∀ q c, heap'.Allocated q c ↔ s.heap.Allocated q c ∧ q ≠ p) :
    BlockInv ⟨heap', release p s.live⟩ :=
  ⟨hok, hregions, hpacked, fun q c => (hallocated q c).trans (issued_release h.issued),
    distinct_release h.distinct⟩

theorem move {copies : List ByteMemory.Copy}
    (hpost : BlockMoved kernel s.heap p c size q heap' copies) (hpacked : Packed heap'.blocks) :
    BlockInv ⟨heap', ⟨q, size⟩ :: release p s.live⟩ := by
  refine ⟨hpost.ok, hpost.grown.regionsOk h.regions, hpacked, ?_, ?_⟩
  · intro q' d
    rw [hpost.allocated, issued_release h.issued]
    simp only [List.mem_cons, exists_eq_or_imp, Block.bucket]
    rw [or_comm]
    exact or_congr_left (and_congr eq_comm eq_comm)
  · rw [List.map_cons, List.nodup_cons]
    refine ⟨fun hmem => ?_, distinct_release h.distinct⟩
    rcases List.mem_map.mp hmem with ⟨y, hy, hyq⟩
    rcases mem_release.mp hy with ⟨hy, hne⟩
    have hyq : y.pointer = q := hyq
    -- the new pointer is the old one, or no block had it
    exact hpost.fresh (hyq ▸ hne) _ (hyq ▸ h.allocated hy)

end BlockInv

theorem block_init_inv : BlockInv ⟨⟨[], []⟩, []⟩ := by
  have hempty := malloc_init_inv
  refine ⟨hempty.ok.buddy, hempty.ok.buddyRegions, packed_nil, ?_, by simp⟩
  intro p c
  have hnone : ¬ BuddyHeap.Allocated ⟨[], []⟩ p c := by
    rintro ⟨b, i, a, n, ha, -⟩
    simp [cell?] at ha
  simp [hnone]

/-- A request keeps the invariant. -/
theorem allocate_inv (h : BlockInv s) (hallowed : 1 ≤ size ∨ AllocatesInBitmap kernel s.heap size)
    {r : ℕ × BuddyHeap} (hrun : buddyBlockAllocate kernel s.heap size = some r) :
    BlockInv (if r.1 = 0 then ⟨r.2, s.live⟩ else ⟨r.2, ⟨r.1, size⟩ :: s.live⟩) := by
  by_cases hsize : 1 ≤ size
  · have hpacked := (blockAllocate_trees h.ok hsize hrun).packed h.packed
    rcases blockAllocate_post h.ok h.regions hsize hrun with hpost | hpost
    · have hnew : r.2.Allocated r.1 (fitBucket size) := (hpost.allocated _ _).mpr (.inr ⟨rfl, rfl⟩)
      rw [if_neg hnew.nonzero]
      exact h.add hpost hpacked
    · rw [if_pos hpost.null]
      exact h.pass hpost.ok (hpost.grown.regionsOk h.regions) hpacked hpost.allocated
  · -- no bytes, and all trees in full use
    obtain rfl : size = 0 := by omega
    have hzero := zero_refused h.ok h.packed (hallowed.resolve_left hsize) hrun
    rw [if_pos hzero.refused.null]
    exact h.pass hzero.refused.ok (hzero.refused.grown.regionsOk h.regions)
      (SameTrees.packed hzero.same h.packed) hzero.refused.allocated

/-- So does a reallocation. -/
theorem reallocate_inv (h : BlockInv s) (hx : x ∈ s.live) {r : BlockReallocated}
    (hrun : buddyBlockReallocate kernel s.heap x.pointer size = some r)
    (hstep : (if r.pointer ≠ 0 then some ⟨r.heap, ⟨r.pointer, size⟩ :: release x.pointer s.live⟩
      else if size > buddyAllocatorMaximalAllocation then some ⟨r.heap, s.live⟩
      else some ⟨r.heap, release x.pointer s.live⟩) = some s') : BlockInv s' := by
  have hall := h.allocated hx
  have hpacked := blockReallocate_packed h.ok h.regions h.packed hall hrun
  rcases blockReallocate_spec kernel h.ok h.regions hall size with ⟨r', hrun', hpost⟩
  rcases Option.some.inj (hrun.symm.trans hrun') with rfl
  cases hpost with
  | moved hmoved =>
    have hnew : r.heap.Allocated r.pointer (fitBucket size) :=
      (hmoved.allocated _ _).mpr (.inr ⟨rfl, rfl⟩)
    rw [if_pos hnew.nonzero] at hstep
    exact Option.some.inj hstep ▸ h.move hmoved hpacked
  | released hgrow hmax hfails hfailed =>
    -- the block was released first, and then there was no other one
    rw [if_neg (by simp [hfailed.null]), if_neg (not_lt.mpr hmax)] at hstep
    refine Option.some.inj hstep ▸ h.drop hfailed.ok (hfailed.grown.regionsOk h.regions) hpacked ?_
    simpa using hfailed.allocated
  | refused hlarge hfailed =>
    -- the trees did not touch the block
    rw [if_neg (by simp [hfailed.null]), if_pos hlarge] at hstep
    refine Option.some.inj hstep ▸ h.pass hfailed.ok (hfailed.grown.regionsOk h.regions) hpacked ?_
    simpa using hfailed.allocated

theorem block_step (h : BlockInv s) (hallowed : op.Allowed kernel s)
    (hstep : blockCall kernel op s = some s') : BlockInv s' := by
  cases op with
  | allocate =>
    simp only [blockCall, Option.bind_eq_bind, Option.bind_eq_some_iff] at hstep
    rcases hstep with ⟨r, hrun, hstep⟩
    have hinv := allocate_inv h hallowed hrun
    split at hstep
    · rename_i hzero
      rw [if_pos hzero] at hinv
      exact Option.some.inj hstep ▸ hinv
    · rename_i hzero
      rw [if_neg hzero] at hinv
      exact Option.some.inj hstep ▸ hinv
  | deallocate =>
    simp only [blockCall, Option.bind_eq_bind, Option.bind_eq_some_iff] at hstep
    rcases hstep with ⟨⟨found, heap'⟩, hrun, hstep⟩
    rcases blockDeallocate_spec kernel h.ok h.regions (h.allocated hallowed) with
      ⟨heap'', hrun', hok, hos, hregion, hallocated⟩
    rcases Prod.mk.inj (Option.some.inj (hrun.symm.trans hrun')) with ⟨-, rfl⟩
    rcases Option.some.inj hstep with rfl
    refine h.drop hok ?_ (SameTrees.packed (blockDeallocate_trees hrun) h.packed) hallocated
    rw [hos, hregion]
    exact h.regions
  | reallocate =>
    simp only [blockCall, Option.bind_eq_bind, Option.bind_eq_some_iff] at hstep
    rcases hstep with ⟨r, hrun, hstep⟩
    exact reallocate_inv h hallowed hrun hstep
  | deallocateForeign =>
    -- no tree owns the pointer
    rw [blockCall, blockDeallocate_foreign kernel hallowed] at hstep
    exact Option.some.inj hstep ▸ h.opened kernel
  | reallocateForeign =>
    rw [blockCall, blockReallocate_foreign kernel hallowed] at hstep
    exact Option.some.inj hstep ▸ h.opened kernel
  | other =>
    rcases Option.some.inj hstep with rfl
    -- events of others change nothing but the history of pages
    exact ⟨⟨h.ok.tree, h.ok.unused⟩, ⟨h.regions.aligned, h.regions.nonzero, hallowed, h.regions.apart⟩,
      h.packed, h.issued, h.distinct⟩

theorem block_reachable_inv (hr : Reachable (blockSystem kernel) s) : BlockInv s := by
  refine hr.invariant ?_ ?_
  · intro s hs
    rw [show s = ⟨⟨[], []⟩, []⟩ from hs]
    exact block_init_inv
  · intro op s s' h hnext
    exact block_step h hnext.1 hnext.2

/-- The step of an allowed call; requests are for at least one byte, and nobody else maps
pages. -/
def blockNext (kernel : Kernel) (op : BlockOp) (s : BlockState) : Option BlockState :=
  match op with
  | .allocate size => if 1 ≤ size then blockCall kernel op s else none
  | .deallocate x => if x ∈ s.live then blockCall kernel op s else none
  | .reallocate x _ => if x ∈ s.live then blockCall kernel op s else none
  | _ => none

theorem reachable_of_blockNext {ops : List BlockOp} {history : List (BlockOp × BlockState)}
    (h : exec (blockNext kernel) ops [] ⟨⟨[], []⟩, []⟩ = some (history, s)) :
    Reachable (blockSystem kernel) s := by
  have h0 : Run (blockSystem kernel) [] ⟨⟨[], []⟩, []⟩ := .init rfl
  refine (h0.exec (fun op t t' ht => ?_) h).reachable
  cases op with
  | allocate =>
    simp only [blockNext] at ht
    split at ht
    · exact ⟨.inl ‹_›, ht⟩
    · cases ht
  | deallocate | reallocate =>
    simp only [blockNext] at ht
    split at ht
    · exact ⟨‹_›, ht⟩
    · cases ht
  | _ => cases ht

/-! ## Releasing an address twice -/

/-- An aligned address of the page that lies in no live block. -/
structure VacantAddress (page : ℕ) (live : List Block) (p : ℕ) : Prop where
  start : page ≤ p
  inside : p < page + buddyAllocatorMaximalAllocation
  aligned : allocationGranularity ∣ p - page
  free : ∀ x ∈ live, p < x.pointer ∨ x.pointer + bucketSize x.bucket ≤ p

/-- The blocks when `buddy_block_reallocate` releases the old pointer at its end, if it comes to
that. -/
def secondRelease (kernel : Kernel) (heap : BuddyHeap) (pointer size : ℕ) : Option BuddyHeap := do
  let heap := initialBlock kernel heap
  let (b, i) ← find (fun a => a.owns pointer) heap.blocks
  let allocator ← cell? heap.blocks b i
  let r ← buddyAllocatorReallocate allocator pointer size
  let heap := { heap with blocks := setCell heap.blocks b i r.allocator }
  if r.pointer.isSome then none
  else if size > directAllocationThreshold then none
  else
    let (insertion, heap) ← buddyBlockAllocate kernel heap size
    if insertion = 0 then none else some heap

theorem VacantAddress.deallocate {s : BuddyState} (h : VacantAddress page s.live p) (hinv : BuddyInv page s) :
    (∃ r, findBuddy s.allocator p = some r) ∧
      buddyAllocatorDeallocate s.allocator p = some s.allocator := by
  rcases h with ⟨hstart, hinside, ⟨k, hk⟩, hfree⟩
  have hgranularity : allocationGranularity = 16 := rfl
  have hmax : buddyAllocatorMaximalAllocation = 4096 := rfl
  rw [hgranularity] at hk
  rw [hmax] at hinside
  have hat : NodeAt s.allocator.page p 8 (255 + k) := by
    refine ⟨⟨by omega, by omega⟩, le_rfl, ?_⟩
    -- the lowest nodes of the tree start at index 255
    rw [hinv.page_eq]
    simp only [HeapTree.start]
    omega
  rcases findBuddy_leaf hat with ⟨i, c, hfind, -⟩
  refine ⟨⟨_, hfind⟩, deallocate_vacant hinv.tracks (fun m => liveNodes_level m) hat ?_⟩
  -- a block above the leaf contains the address
  rintro m ⟨x, hx, hm⟩ hbelow
  have hle := hbelow.start_le hm.level hat.level le_rfl
  have hout := hfree x hx
  rw [bucketSize_eq hm.depth, hm.address] at hout
  have haddress := hat.address
  rw [hinv.page_eq] at haddress
  omega

/-- The tree of a live block has given it up, and another block was found. -/
theorem secondRelease_cases (hok : BuddyOk heap) (hr : RegionsOk (buddyRegion heap.blocks) heap.os)
    (hall : heap.Allocated p c) (hsecond : secondRelease kernel heap p size = some heap') :
    ∃ r, buddyBlockReallocate kernel heap p size = some r ∧ r.heap = heap' ∧
      (∃ found, buddyBlockDeallocate kernel heap' p = some (found, heap')) ∧
      ∀ q d, heap.Allocated q d → q ≠ p → heap'.Allocated q d := by
  rcases allocated_iff.mp hall with ⟨b, i, a, n, h⟩
  rcases h.tree_reallocate hok size with ⟨t, htrun, hpage, hcurrent, hpost⟩
  simp only [secondRelease, initialBlock_of_cell h.cell, h.find hr, h.cell, htrun,
    Option.bind_eq_bind, Option.bind_some] at hsecond
  cases hpost with
  | moved q m hq hmax hat hm htracks hdata => simp [hq] at hsecond -- the tree itself has served it
  | released hq hgrow hmax htracks hroom hcopy =>
    -- only here is the old address released a second time
    rcases h.released hok hr hpage htracks kernel hgrow hmax hroom with ⟨q, heap₂, halloc, hcases⟩
    have hthreshold := not_direct_of_le hmax
    simp only [hq, Option.isSome_none, Bool.false_eq_true, if_false, if_neg hthreshold, halloc,
      Option.bind_some] at hsecond
    rcases hcases with ⟨rfl, -, -⟩ | ⟨hne, ⟨found, hvacant⟩, hmoved⟩
    · simp at hsecond
    · rw [if_neg hne] at hsecond
      rcases Option.some.inj hsecond with rfl
      have hcall : buddyBlockReallocate kernel heap p size = some ⟨q, t.currentAllocationSize, heap₂,
          t.copy.toList ++ [⟨q, p, t.currentAllocationSize⟩]⟩ := by
        simp only [buddyBlockReallocate, initialBlock_of_cell h.cell, h.find hr, h.cell, htrun, hq,
          Option.bind_eq_bind, Option.bind_some, if_neg hthreshold, halloc, if_neg hne, hvacant]
        rfl
      exact ⟨_, hcall, rfl, ⟨found, hvacant⟩,
        fun x d hx hxp => (hmoved.allocated x d).mpr (.inl ⟨hx, hxp⟩)⟩
  | refused hq hlarge ha hcopy =>
    -- no block was found for a size that no tree can have
    rcases h.tooLarge kernel hok hr hlarge with ⟨heap₂, halloc, -⟩
    simp only [hq, ha, setCell_self h.cell, Option.isSome_none, Bool.false_eq_true, if_false, halloc,
      Option.bind_some, if_true] at hsecond
    split at hsecond <;> cases hsecond

/-- Releasing an address that lies in no live block changes nothing. So the second release of
`buddy_block_reallocate` leaves all blocks as they are. -/
theorem release_vacant (kernel : Kernel) :
    (∀ page s p, Reachable (buddySystem page) s → VacantAddress page s.live p →
      (∃ r, findBuddy s.allocator p = some r) ∧
        buddyAllocatorDeallocate s.allocator p = some s.allocator) ∧
    ∀ s x size heap', Reachable (blockSystem kernel) s → x ∈ s.live →
      secondRelease kernel s.heap x.pointer size = some heap' →
      (∃ found, buddyBlockDeallocate kernel heap' x.pointer = some (found, heap')) ∧
        (∃ r, buddyBlockReallocate kernel s.heap x.pointer size = some r ∧ r.heap = heap') ∧
        ∀ y ∈ s.live, y ≠ x → heap'.Allocated y.pointer y.bucket := by
  refine ⟨fun page s p hr hvacant => hvacant.deallocate (buddy_reachable_inv hr), ?_⟩
  intro s x size heap' hr hx hsecond
  have h := block_reachable_inv hr
  rcases secondRelease_cases h.ok h.regions (h.allocated hx) hsecond with
    ⟨r, hrun, hheap, hvacant, hothers⟩
  refine ⟨hvacant, ⟨r, hrun, hheap⟩, fun y hy hne => hothers _ _ (h.allocated hy) fun heq => hne ?_⟩
  exact List.inj_on_of_nodup_map h.distinct hy hx heq

/-- The second half of a page is in use when a block of 16 bytes grows to the whole page: it moves
to another tree, and its old address is released twice. -/
theorem release_vacant_twice :
    ∃ s heap', Reachable (blockSystem bumpKernel) s ∧ s.live = [⟨10240, 2048⟩, ⟨8192, 16⟩] ∧
      secondRelease bumpKernel s.heap 8192 4096 = some heap' ∧
      (∃ found, buddyBlockDeallocate bumpKernel heap' 8192 = some (found, heap')) ∧
      heap'.Allocated 10240 1 := by
  have hrun : (exec (blockNext bumpKernel) [.allocate 16, .allocate 2048] [] ⟨⟨[], []⟩, []⟩).map
      (fun x => (x.2.live, (secondRelease bumpKernel x.2.heap 8192 4096).isSome)) =
      some ([⟨10240, 2048⟩, ⟨8192, 16⟩], true) := by
    decide +kernel
  rcases Option.map_eq_some_iff.mp hrun with ⟨t, ht, hresult⟩
  rcases Prod.mk.inj hresult with ⟨hlive, hsome⟩
  rcases Option.isSome_iff_exists.mp hsome with ⟨heap', hsecond⟩
  have hr := reachable_of_blockNext ht
  have hx : (⟨8192, 16⟩ : Block) ∈ t.2.live := by
    rw [hlive]
    decide
  have hy : (⟨10240, 2048⟩ : Block) ∈ t.2.live := by
    rw [hlive]
    decide
  have hrelease := (release_vacant bumpKernel).2 t.2 ⟨8192, 16⟩ 4096 heap' hr hx hsecond
  exact ⟨t.2, heap', hr, hlive, hsecond, hrelease.1, hrelease.2.2 ⟨10240, 2048⟩ hy (by decide)⟩

/-! ## Staying in the bitmap -/

/-- All trees are in full use, and there is no page for another one. -/
def NoPlace (kernel : Kernel) (s : BlockState) : Prop :=
  (∀ b i a, cell? s.heap.blocks b i = some a → a.page ≠ 0 → ∀ p, AlignedBlock a.page 8 p →
    ∃ x ∈ s.live, x.Overlaps p (bucketSize 8)) ∧
  nextTreePage kernel s.heap = 0

theorem BlockInv.full_iff (h : BlockInv s) :
    (∀ b i a, cell? s.heap.blocks b i = some a → a.page ≠ 0 → ¬ a.Room 0) ↔
      ∀ b i a, cell? s.heap.blocks b i = some a → a.page ≠ 0 → ∀ p, AlignedBlock a.page 8 p →
        ∃ x ∈ s.live, x.Overlaps p (bucketSize 8) := by
  refine forall₅_congr fun b i a ha hpage => ?_
  rw [not_room_iff h.regions ha hpage (Nat.zero_le _), fitBucket_zero]
  refine forall₂_congr fun p _ => ?_
  constructor
  · rintro ⟨q, d, hq, hover⟩
    rcases (h.issued q d).mp hq with ⟨x, hx, rfl, rfl⟩
    exact ⟨x, hx, hover⟩
  · rintro ⟨x, hx, hover⟩
    exact ⟨_, _, h.allocated hx, hover⟩

/-- `malloc_impl` returns, and uses the nodes of the trees only, for at least one byte, or if it
finds no place at all. -/
theorem malloc_in_bitmap_iff (kernel : Kernel) (s : BlockState)
    (hr : Reachable (blockSystem kernel) s) (heap : Heap) (hheap : heap.buddy = s.heap) (size : ℕ)
    (hsize : size < slotAllocatorThreshold) :
    ((∃ r, mallocImpl kernel heap size = some r) ∧ AllocatesInBitmap kernel heap.buddy size) ↔
      FirstBlock kernel s.heap ∧ (1 ≤ size ∨ NoPlace kernel s) := by
  have h := block_reachable_inv hr
  have hmalloc : (∃ r, mallocImpl kernel heap size = some r) ↔
      ∃ r, buddyBlockAllocate kernel s.heap size = some r := by
    simp only [mallocImpl, if_pos hsize, hheap, Option.bind_eq_bind, Option.bind_eq_some_iff]
    constructor
    · rintro ⟨-, r, hrun, -⟩
      exact ⟨r, hrun⟩
    · rintro ⟨r, hrun⟩
      exact ⟨_, r, hrun, rfl⟩
  rw [hmalloc, hheap]
  constructor
  · rintro ⟨⟨r, hrun⟩, hin⟩
    -- without a page for the first block the request does not return
    have hfirst : FirstBlock kernel s.heap := by
      by_contra hnot
      rw [blockAllocate_noFirst hnot] at hrun
      cases hrun
    refine ⟨hfirst, ?_⟩
    by_cases hpos : 1 ≤ size
    · exact .inl hpos
    · obtain rfl : size = 0 := by omega
      have hzero := zero_refused h.ok h.packed hin hrun
      exact .inr ⟨h.full_iff.mp hzero.full, hzero.noPage⟩
  · rintro ⟨hfirst, hcases⟩
    by_cases hpos : 1 ≤ size
    · rcases blockAllocate_ends h.ok h.regions hpos hfirst with ⟨r, hrun, -⟩
      exact ⟨⟨r, hrun⟩, allocatesInBitmap_pos h.ok h.regions hpos⟩
    · obtain rfl : size = 0 := by omega
      rcases hcases.resolve_left hpos with ⟨hfull, hnone⟩
      exact zero_inBitmap h.ok h.packed hfirst (h.full_iff.mpr hfull) hnone

/-- With one block of 4096 bytes and no memory for anything else, also a request for no bytes
does no harm. -/
theorem malloc_in_bitmap_full :
    ∃ s, Reachable (blockSystem (limitKernel 2)) s ∧ s.live = [⟨8192, 4096⟩] ∧
      (∃ r, mallocImpl (limitKernel 2) ⟨s.heap.blocks, [], [], s.heap.os⟩ 0 = some r) ∧
      AllocatesInBitmap (limitKernel 2) s.heap 0 ∧ AllocatesInBitmap (limitKernel 2) s.heap 16 := by
  have hrun : (exec (blockNext (limitKernel 2)) [.allocate 4096] [] ⟨⟨[], []⟩, []⟩).map
      (fun x => (x.2.live, nextTreePage (limitKernel 2) x.2.heap, x.2.heap.blocks.map
        fun row => row.cells.toList.map BuddyAllocator.page)) =
      some ([⟨8192, 4096⟩], 0, [8192 :: List.replicate 29 0]) := by
    decide +kernel
  rcases Option.map_eq_some_iff.mp hrun with ⟨t, ht, hresult⟩
  simp only [Prod.mk.injEq] at hresult
  rcases hresult with ⟨hlive, hnone, hpages⟩
  have hr := reachable_of_blockNext ht
  -- one tree, whose only page is taken by the block
  have hpage : ∀ b i a, cell? t.2.heap.blocks b i = some a → a.page ≠ 0 → a.page = 8192 := by
    intro b i a ha hne
    rcases cell?_eq_some.mp ha with ⟨row, hrow, hcell⟩
    have hmem := List.mem_map_of_mem (f := fun row : BuddyBlock =>
      row.cells.toList.map BuddyAllocator.page) (List.mem_of_getElem? hrow)
    rw [hpages, List.mem_singleton] at hmem
    have hin := List.mem_map_of_mem (f := BuddyAllocator.page)
      (Vector.mem_toList_iff.mpr (Vector.mem_of_getElem? hcell))
    rw [hmem, List.mem_cons, List.mem_replicate] at hin
    omega
  have hplace : NoPlace (limitKernel 2) t.2 := by
    refine ⟨fun b i a ha hne p hp => ?_, hnone⟩
    refine ⟨⟨8192, 4096⟩, by rw [hlive]; decide, ?_⟩
    rcases hp with ⟨hstart, -, hfits⟩
    rw [hpage b i a ha hne] at hstart hfits
    have hbucket : bucketSize (Block.bucket ⟨8192, 4096⟩) = 4096 := by decide
    have hunit : bucketSize 8 = 16 := by decide
    have hmax : buddyAllocatorMaximalAllocation = 4096 := rfl
    simp only [Block.Overlaps, hbucket, hunit]
    omega
  -- the first table exists already
  have hfirst : FirstBlock (limitKernel 2) t.2.heap := by
    intro hnil
    rw [hnil] at hpages
    cases hpages
  have hzero := (malloc_in_bitmap_iff (limitKernel 2) t.2 hr ⟨t.2.heap.blocks, [], [], t.2.heap.os⟩
    rfl 0 (by decide)).mpr ⟨hfirst, .inr hplace⟩
  have hsome := (malloc_in_bitmap_iff (limitKernel 2) t.2 hr ⟨t.2.heap.blocks, [], [], t.2.heap.os⟩
    rfl 16 (by decide)).mpr ⟨hfirst, .inl (by decide)⟩
  exact ⟨t.2, hr, hlive, hzero.1, hzero.2, hsome.2⟩

/-- The first `malloc(0)` passes index 511 to `is_marked`, one behind the last node. -/
theorem malloc_zero_leaves_bitmap :
    Reachable (blockSystem bumpKernel) ⟨emptyHeap.heap.buddy, []⟩ ∧ 0 < slotAllocatorThreshold ∧
      (∃ s nodes t, Loop.Reaches (blockStep bumpKernel 0) ⟨emptyHeap.heap.buddy, 0, 0⟩ s ∧
        searched bumpKernel s = some nodes ∧
        Loop.Reaches (allocateStep 0) (allocateStart nodes) t ∧ 511 ∈ touched 0 t) ∧
      ¬ 511 < buddyAllocatorNodeCount ∧ ¬ AllocatesInBitmap bumpKernel emptyHeap.heap.buddy 0 := by
  have hrun : ((Loop.after (blockStep bumpKernel 0) 1 ⟨emptyHeap.heap.buddy, 0, 0⟩).bind fun s =>
      (searched bumpKernel s).bind fun nodes =>
        (Loop.after (allocateStep 0) 9 (allocateStart nodes)).map (touched 0)) = some [511] := by
    decide +kernel
  simp only [Option.bind_eq_some_iff, Option.map_eq_some_iff] at hrun
  rcases hrun with ⟨s, hs, nodes, hnodes, t, ht, htouched⟩
  have hblock := Loop.reaches_of_after hs
  have htree := Loop.reaches_of_after ht
  have hmem : 511 ∈ touched 0 t := by
    rw [htouched]
    decide
  refine ⟨.init rfl, by decide, ⟨s, nodes, t, hblock, hnodes, htree, hmem⟩, by decide, fun hin => ?_⟩
  exact absurd (hin s hblock nodes hnodes (Nat.zero_le _) t htree 511 hmem) (by decide)

end SysProg.Memory
