import Mathlib.Tactic
import SysProg.Memory.BuddyBlock
import SysProg.Memory.BuddySpec
import SysProg.Memory.PageRows

/-!
# The trees of the buddy blocks

* `Leaf nodes c n` — the bitmap says that node `n` is handed out as a block of bucket `c`;
* `TreeOk nodes` — the marks of the bitmap are exactly those of its leaves;
* `BuddyHeap.Allocated heap p c` — some tree has handed out the block at `p`;
* `BlockOutcome` — a new block, or null and nothing handed out;
* `blockAllocate_ends`, `blockDeallocate_spec` — how the allocated blocks change.
-/

namespace SysProg.Memory

open HeapTree Rows

/-! ## The blocks a bitmap records -/

/-- Node `n` of bucket `c` is handed out: it is marked and not split. -/
structure Leaf (nodes : Bitmap) (c n : ℕ) : Prop where
  level : AtLevel c n
  depth : c < buddyAllocatorDepth
  marked : isMarked nodes n = true
  unsplit : isSplit nodes n c = false

/-- The nodes that are handed out. -/
def leaves (nodes : Bitmap) : Set ℕ :=
  {n | ∃ c, Leaf nodes c n}

/-- The marks are those of the nodes that are handed out. -/
def TreeOk (nodes : Bitmap) : Prop :=
  Tracks nodes (leaves nodes)

variable {nodes : Bitmap} {L : Set ℕ} {kernel : Kernel} {heap heap' heap₁ : BuddyHeap}
  {a a' : BuddyAllocator} {size page p q b i c d n m : ℕ} {s : BlockLoop}

/-- A bitmap that tracks some blocks of the tree has exactly these as its leaves. -/
theorem leaves_eq (h : Tracks nodes L) (hL : ∀ n ∈ L, ∃ c, c ≤ 8 ∧ AtLevel c n) :
    leaves nodes = L := by
  ext n
  constructor
  · intro hn
    rcases hn with ⟨c, hlevel, hdepth, hmarked, hunsplit⟩
    rcases (h.mark_iff n).mp hmarked with ⟨m, hm, hbelow⟩
    by_cases heq : n = m
    · exact heq ▸ hm
    · -- a proper ancestor of a block has a marked child
      exfalso
      rcases hL m hm with ⟨d, hd, hmlevel⟩
      have hchild := h.child_marked hm hbelow heq
      have hle := hbelow.start_le (d := 8) hlevel hmlevel hd
      have hlt : c < 8 := by
        by_contra hge
        have hdepth : c < 9 := hdepth
        obtain rfl : c = d := by omega
        have hdis := start_disjoint_of_ne (d := 8) hlevel hmlevel heq
        have hpos := Nat.two_pow_pos (8 - c)
        omega
      have hsplit : isSplit nodes n c = true := by
        simp only [isSplit, Bool.and_eq_true, Bool.or_eq_true, decide_eq_true_eq]
        exact ⟨hlt, hchild⟩
      rw [hsplit] at hunsplit
      cases hunsplit
  · intro hn
    rcases hL n hn with ⟨c, hc, hlevel⟩
    refine ⟨c, hlevel, Nat.lt_succ_of_le hc, (h.mark_iff n).mpr ⟨n, hn, .refl⟩, ?_⟩
    by_contra hs
    exact not_mem_of_isSplit h (by simpa using hs) hn

theorem leaf_level (hn : n ∈ leaves nodes) : ∃ c, c ≤ 8 ∧ AtLevel c n := by
  rcases hn with ⟨c, hleaf⟩
  exact ⟨c, Nat.le_of_lt_succ hleaf.depth, hleaf.level⟩

/-- The bucket of a leaf is its level. -/
theorem leaf_iff (hlevel : AtLevel c n) : Leaf nodes c n ↔ n ∈ leaves nodes := by
  constructor
  · intro h
    exact ⟨c, h⟩
  · intro h
    rcases h with ⟨d, hleaf⟩
    rcases hleaf.level.unique hlevel with rfl
    exact hleaf

/-- After an operation that is specified over sets of blocks. -/
theorem treeOk_of_tracks (h : Tracks nodes L) (hL : ∀ n ∈ L, ∃ c, c ≤ 8 ∧ AtLevel c n) :
    TreeOk nodes := by
  unfold TreeOk
  rw [leaves_eq h hL]
  exact h

theorem leaves_emptyBitmap : leaves emptyBitmap = ∅ :=
  leaves_eq tracks_emptyBitmap (by simp)

theorem treeOk_emptyBitmap : TreeOk emptyBitmap :=
  treeOk_of_tracks tracks_emptyBitmap (by simp)

/-! ## The heap -/

/-- Some tree has handed out the block of bucket `c` at `p`. -/
def BuddyHeap.Allocated (heap : BuddyHeap) (p c : ℕ) : Prop :=
  ∃ b i a n, cell? heap.blocks b i = some a ∧ a.page ≠ 0 ∧ Leaf a.nodes c n ∧
    p = nodeToPointer a.page n c

/-- Every bitmap is an account of its leaves, and unused allocators are zeroed. -/
structure BuddyOk (heap : BuddyHeap) : Prop where
  tree : ∀ b i a, cell? heap.blocks b i = some a → TreeOk a.nodes
  unused : ∀ b i a, cell? heap.blocks b i = some a → a.page = 0 → a.nodes = emptyBitmap

/-- The page of an allocator's tree. -/
def treeRange (a : BuddyAllocator) : Option Range :=
  if a.page = 0 then none else some ⟨a.page, buddyAllocatorMaximalAllocation⟩

/-- The mappings of the buddy blocks: the pages of the blocks and of the trees. -/
abbrev buddyRegion (blocks : List BuddyBlock) : RowRegion → Option Range :=
  rowRegion treeRange blocks

theorem treeRange_of_page (hpage : a.page ≠ 0) :
    treeRange a = some ⟨a.page, buddyAllocatorMaximalAllocation⟩ :=
  if_neg hpage

theorem buddyRegion_tree {blocks : List BuddyBlock} (ha : cell? blocks b i = some a)
    (hpage : a.page ≠ 0) :
    buddyRegion blocks (.cell b i) = some ⟨a.page, buddyAllocatorMaximalAllocation⟩ :=
  rowRegion_cell ha (treeRange_of_page hpage)

/-- A block of a tree lies on the page of the tree. -/
theorem NodeAt.holds (h : NodeAt page p c n) :
    Range.Holds ⟨page, buddyAllocatorMaximalAllocation⟩ p (bucketSize c) := by
  have hend := start_add_le h.level h.depth
  have haddr := h.address
  have hextent : pageExtent buddyAllocatorMaximalAllocation = 4096 := rfl
  unfold Range.Holds
  rw [hextent, bucketSize_eq h.depth]
  simp only
  omega

/-- Node `n` of the tree of allocator `(b, i)` is handed out as the block at `p`. -/
structure Hands (blocks : List BuddyBlock) (b i : ℕ) (a : BuddyAllocator) (n p c : ℕ) : Prop where
  cell : cell? blocks b i = some a
  page : a.page ≠ 0
  leaf : n ∈ leaves a.nodes
  node : NodeAt a.page p c n

theorem allocated_iff : heap.Allocated p c ↔ ∃ b i a n, Hands heap.blocks b i a n p c := by
  constructor
  · intro h
    rcases h with ⟨b, i, a, n, ha, hpage, hleaf, hp⟩
    have hc : c ≤ 8 := Nat.le_of_lt_succ hleaf.depth
    refine ⟨b, i, a, n, ha, hpage, ⟨c, hleaf⟩, hleaf.level, hc, ?_⟩
    rw [hp, nodeToPointer_eq _ hc]
  · intro h
    rcases h with ⟨b, i, a, n, ha, hpage, hn, hat⟩
    refine ⟨b, i, a, n, ha, hpage, (leaf_iff hat.level).mpr hn, ?_⟩
    rw [nodeToPointer_eq _ hat.depth]
    exact hat.address

/-- Blocks that are handed out are disjoint. -/
theorem Hands.disjoint {blocks : List BuddyBlock} {os : List OsEvent} {k j : ℕ}
    (hr : RegionsOk (buddyRegion blocks) os) (htree : TreeOk a.nodes)
    (h : Hands blocks b i a n p c) (h' : Hands blocks k j a' m q d)
    (hne : (k, j, m) ≠ (b, i, n)) : p + bucketSize c ≤ q ∨ q + bucketSize d ≤ p := by
  by_cases hkj : k = b ∧ j = i
  · -- two different leaves of one tree
    rcases hkj with ⟨rfl, rfl⟩
    rcases Option.some.inj (h.cell.symm.trans h'.cell) with rfl
    have hnm : n ≠ m := fun heq => hne (by rw [heq])
    exact h.node.disjoint h'.node (htree.apart n h.leaf m h'.leaf hnm)
  · -- the pages of two trees
    refine hr.disjoint (buddyRegion_tree h.cell h.page) (buddyRegion_tree h'.cell h'.page) ?_
      h.node.holds h'.node.holds (bucketSize_pos h.node.depth) (bucketSize_pos h'.node.depth)
    intro heq
    simp only [RowRegion.cell.injEq] at heq
    exact hkj ⟨heq.1.symm, heq.2.symm⟩

theorem BuddyHeap.Allocated.disjoint (hok : BuddyOk heap)
    (hr : RegionsOk (buddyRegion heap.blocks) heap.os) (h : heap.Allocated p c)
    (h' : heap.Allocated q d) (hne : p ≠ q) :
    p + bucketSize c ≤ q ∨ q + bucketSize d ≤ p := by
  rcases allocated_iff.mp h with ⟨b, i, a, n, hp⟩
  rcases allocated_iff.mp h' with ⟨k, j, x, m, hq⟩
  refine hp.disjoint hr (hok.tree _ _ _ hp.cell) hq ?_
  intro heq
  simp only [Prod.mk.injEq] at heq
  rcases heq with ⟨rfl, rfl, rfl⟩
  rcases Option.some.inj (hp.cell.symm.trans hq.cell) with rfl
  exact hne (hp.node.unique hq.node).1

/-- An allocator that keeps its page keeps the regions. -/
theorem buddyRegion_setCell (ha : cell? heap.blocks b i = some a) (hpage : a'.page = a.page) :
    buddyRegion (setCell heap.blocks b i a') = buddyRegion heap.blocks :=
  rowRegion_setCell_same ha (by simp [treeRange, hpage])

/-- An allocator that gets a page adds the region of its tree. -/
theorem buddyRegion_newPage (ha : cell? heap.blocks b i = some a) (hpage : a'.page ≠ 0) :
    buddyRegion (setCell heap.blocks b i a') = Function.update (buddyRegion heap.blocks) (.cell b i)
      (some ⟨a'.page, buddyAllocatorMaximalAllocation⟩) := by
  rw [buddyRegion, rowRegion_setCell ha, treeRange_of_page hpage]

/-! ## One tree -/

/-- An allocation takes one more leaf, or finds the root taken. -/
theorem tree_allocate (h : TreeOk a.nodes) (hsize : 1 ≤ size)
    (hmax : size ≤ buddyAllocatorMaximalAllocation) :
    ∃ r a', buddyAllocatorAllocate a size = some (r, a') ∧ a'.page = a.page ∧
      (r = none ∧ a' = a ∧ isMarked a.nodes 0 = true ∨
        ∃ p n, r = some p ∧ NodeAt a.page p (fitBucket size) n ∧ n ∉ leaves a.nodes ∧
          TreeOk a'.nodes ∧ leaves a'.nodes = insert n (leaves a.nodes)) := by
  rcases allocate_spec h hsize with ⟨r, a', hrun, hpage, hcases⟩
  refine ⟨r, a', hrun, hpage, ?_⟩
  rcases hcases with ⟨hr, ha, hfull⟩ | ⟨p, n, hr, -, hat, hapart, htracks⟩
  · exact .inl ⟨hr, ha, hfull hmax⟩
  · have hlevels : ∀ m ∈ insert n (leaves a.nodes), ∃ c, c ≤ 8 ∧ AtLevel c m := by
      intro m hm
      rcases hm with rfl | hm
      · exact ⟨_, hat.depth, hat.level⟩
      · exact leaf_level hm
    exact .inr ⟨p, n, hr, hat, fun hn => (hapart n hn).1 .refl, treeOk_of_tracks htracks hlevels,
      leaves_eq htracks hlevels⟩

/-- A deallocation gives its leaf back. -/
theorem tree_deallocate (h : TreeOk a.nodes) (hn : n ∈ leaves a.nodes) (hat : NodeAt a.page p c n) :
    ∃ a', buddyAllocatorDeallocate a p = some a' ∧ a'.page = a.page ∧ TreeOk a'.nodes ∧
      leaves a'.nodes = leaves a.nodes \ {n} := by
  have hinsert : insert n (leaves a.nodes \ {n}) = leaves a.nodes := by simp [hn]
  have htracks : Tracks a.nodes (insert n (leaves a.nodes \ {n})) := by
    rw [hinsert]
    exact h
  rcases deallocate_spec htracks (by simp) hat with ⟨a', hrun, hpage, hrest⟩
  have hlevels : ∀ m ∈ leaves a.nodes \ {n}, ∃ c, c ≤ 8 ∧ AtLevel c m :=
    fun m hm => leaf_level hm.1
  exact ⟨a', hrun, hpage, treeOk_of_tracks hrest hlevels, leaves_eq hrest hlevels⟩

/-! ## Allocation -/

/-- Only allocator `(b, i)` is changed: it hands out one more block. -/
structure Serves (heap : BuddyHeap) (b i : ℕ) (a a' : BuddyAllocator) (p c n : ℕ) : Prop where
  cell : cell? heap.blocks b i = some a
  page : a'.page ≠ 0
  same : a.page ≠ 0 → a'.page = a.page
  tree : TreeOk a'.nodes
  added : leaves a'.nodes = insert n (leaves a.nodes)
  fresh : n ∉ leaves a.nodes
  node : NodeAt a'.page p c n

namespace Serves

variable {os : List OsEvent} (h : Serves heap b i a a' p c n)
include h

theorem ok (hok : BuddyOk heap) : BuddyOk ⟨setCell heap.blocks b i a', os⟩ := by
  constructor
  · intro k j x hx
    rw [cell?_setCell h.cell] at hx
    split at hx
    · exact Option.some.inj hx ▸ h.tree
    · exact hok.tree k j x hx
  · intro k j x hx hzero
    rw [cell?_setCell h.cell] at hx
    split at hx
    · exact absurd (Option.some.inj hx ▸ hzero) h.page
    · exact hok.unused k j x hx hzero

theorem hands : Hands (setCell heap.blocks b i a') b i a' n p c := by
  refine ⟨by simp [cell?_setCell h.cell], h.page, ?_, h.node⟩
  rw [h.added]
  exact .inl rfl

/-- What was handed out before still is. -/
theorem hands_old {k j : ℕ} {x : BuddyAllocator} (hx : Hands heap.blocks k j x m q d) :
    ∃ y, Hands (setCell heap.blocks b i a') k j y m q d := by
  by_cases hkj : k = b ∧ j = i
  · rcases hkj with ⟨rfl, rfl⟩
    rcases Option.some.inj (hx.cell.symm.trans h.cell) with rfl
    refine ⟨a', by simp [cell?_setCell h.cell], h.page, ?_, h.same hx.page ▸ hx.node⟩
    rw [h.added]
    exact .inr hx.leaf
  · exact ⟨x, by simp [cell?_setCell h.cell, hkj, hx.cell], hx.page, hx.leaf, hx.node⟩

theorem allocated (hok : BuddyOk heap) :
    BuddyHeap.Allocated ⟨setCell heap.blocks b i a', os⟩ q d ↔
      heap.Allocated q d ∨ q = p ∧ d = c := by
  rw [allocated_iff, allocated_iff]
  constructor
  · intro hall
    rcases hall with ⟨k, j, x, m, hx, hpage, hleaf, hat⟩
    rw [cell?_setCell h.cell] at hx
    split at hx
    · rcases Option.some.inj hx with rfl
      rw [h.added] at hleaf
      rcases hleaf with rfl | hleaf
      · exact .inr (hat.unique h.node)
      · -- an old block of this tree, so the tree had its page before
        left
        have hold : a.page ≠ 0 := by
          intro hzero
          rw [hok.unused b i a h.cell hzero, leaves_emptyBitmap] at hleaf
          exact hleaf
        exact ⟨b, i, a, m, h.cell, hold, hleaf, h.same hold ▸ hat⟩
    · exact .inl ⟨k, j, x, m, hx, hpage, hleaf, hat⟩
  · intro hall
    rcases hall with ⟨k, j, x, m, hx⟩ | ⟨rfl, rfl⟩
    · rcases h.hands_old hx with ⟨y, hy⟩
      exact ⟨k, j, y, m, hy⟩
    · exact ⟨b, i, a', n, h.hands⟩

/-- The block was not handed out before. -/
theorem unallocated (hr : RegionsOk (buddyRegion (setCell heap.blocks b i a')) os) :
    ¬ heap.Allocated p d := by
  rw [allocated_iff]
  intro hall
  rcases hall with ⟨k, j, x, m, hx⟩
  rcases h.hands_old hx with ⟨y, hy⟩
  have hne : (k, j, m) ≠ (b, i, n) := by
    intro heq
    simp only [Prod.mk.injEq] at heq
    rcases heq with ⟨rfl, rfl, rfl⟩
    rcases Option.some.inj (hx.cell.symm.trans h.cell) with rfl
    exact h.fresh hx.leaf
  have hdis := h.hands.disjoint hr h.tree hy hne
  have h1 := bucketSize_pos hy.node.depth
  have h2 := bucketSize_pos h.node.depth
  omega

end Serves

/-- The heap, or the heap with a new block at its end. -/
abbrev BlocksOpened (kernel : Kernel) (heap heap₁ : BuddyHeap) : Prop :=
  RowsOpened kernel ⟨0, emptyBitmap⟩ heap.blocks heap.os heap₁.blocks heap₁.os

namespace BlocksOpened

variable {heap₁ : BuddyHeap} (h : BlocksOpened kernel heap heap₁)
include h

theorem ok (hok : BuddyOk heap) : BuddyOk heap₁ := by
  constructor
  · intro b i a ha
    rcases h.cell_cases ha with hold | rfl
    · exact hok.tree b i a hold
    · exact treeOk_emptyBitmap
  · intro b i a ha hzero
    rcases h.cell_cases ha with hold | rfl
    · exact hok.unused b i a hold hzero
    · rfl

theorem allocated : heap₁.Allocated p c ↔ heap.Allocated p c := by
  rw [allocated_iff, allocated_iff]
  constructor
  · intro hall
    rcases hall with ⟨b, i, a, n, hcell, hpage, hleaf, hat⟩
    rcases h.cell_cases hcell with hold | rfl
    · exact ⟨b, i, a, n, hold, hpage, hleaf, hat⟩
    · exact absurd rfl hpage
  · intro hall
    rcases hall with ⟨b, i, a, n, hcell, hpage, hleaf, hat⟩
    exact ⟨b, i, a, n, h.cell_old hcell, hpage, hleaf, hat⟩

end BlocksOpened

/-- The outcome of `buddy_block_allocate`: the pointer and the heap after it. -/
structure BlockAllocated (kernel : Kernel) (heap : BuddyHeap) (size : ℕ) (r : ℕ × BuddyHeap) :
    Prop where
  ok : BuddyOk r.2
  grown : Grown kernel (buddyRegion heap.blocks) heap.os (buddyRegion r.2.blocks) r.2.os
  fits : size ≤ buddyAllocatorMaximalAllocation
  allocated : ∀ q c, r.2.Allocated q c ↔ heap.Allocated q c ∨ q = r.1 ∧ c = fitBucket size
  fresh : ∀ c, ¬ heap.Allocated r.1 c
  served : ∃ heap₁ b i a a' n, BlocksOpened kernel heap heap₁ ∧
    Serves heap₁ b i a a' r.1 (fitBucket size) n ∧ r.2.blocks = setCell heap₁.blocks b i a'

/-- Serving a request from one allocator of the opened heap. -/
theorem Serves.blockAllocated {os : List OsEvent}
    (h : Serves heap₁ b i a a' p (fitBucket size) n) (hopen : BlocksOpened kernel heap heap₁)
    (hok : BuddyOk heap) (hr : RegionsOk (buddyRegion heap.blocks) heap.os)
    (hmax : size ≤ buddyAllocatorMaximalAllocation)
    (hgrown : Grown kernel (buddyRegion heap.blocks) heap.os
      (buddyRegion (setCell heap₁.blocks b i a')) os) :
    BlockAllocated kernel heap size (p, ⟨setCell heap₁.blocks b i a', os⟩) := by
  refine ⟨h.ok (BlocksOpened.ok hopen hok), hgrown, hmax, ?_, ?_, heap₁, b, i, a, a', n, hopen, h, rfl⟩
  · intro q c
    rw [← BlocksOpened.allocated hopen]
    exact h.allocated (BlocksOpened.ok hopen hok)
  · intro c
    rw [← BlocksOpened.allocated hopen]
    exact h.unallocated (hgrown.regionsOk hr)

/-- The search stands in the old heap, or at the start of a new block. -/
inductive BlockScan (kernel : Kernel) (heap : BuddyHeap) : BlockLoop → Prop where
  | old (b i : ℕ) : b ≤ heap.blocks.length → i ≤ buddyCapacity →
      (b = heap.blocks.length → i = 0) → BlockScan kernel heap ⟨heap, b, i⟩
  | new (page : ℕ) : page = kernel.mmap heap.os pageSize → page ≠ 0 →
      BlockScan kernel heap
        ⟨⟨heap.blocks ++ [emptyBlock page], .map ⟨page, pageSize⟩ :: heap.os⟩,
          heap.blocks.length, 0⟩

theorem BlockScan.opened {s : BlockLoop} (h : BlockScan kernel heap s) :
    BlocksOpened kernel heap s.heap := by
  cases h with
  | old => exact .same
  | new page heq hpage => exact .fresh page heq hpage

/-- The allocators and blocks that are still to be searched. -/
def scanLeft (heap : BuddyHeap) (s : BlockLoop) : ℕ :=
  (heap.blocks.length - s.b) * 32 + (31 - s.i) + (heap.blocks.length + 1 - s.heap.blocks.length)

/-- The search goes on behind an allocator with a page. -/
theorem BlockScan.next {s : BlockLoop} (h : BlockScan kernel heap s)
    (ha : cell? s.heap.blocks s.b s.i = some a) (hpage : a.page ≠ 0) :
    BlockScan kernel heap { s with i := s.i + 1 } ∧
      scanLeft heap { s with i := s.i + 1 } < scanLeft heap s := by
  have hlt := lt_of_cell? ha
  have hcapacity : buddyCapacity = 30 := rfl
  cases h with
  | old b i hb hi hend =>
    simp only at hlt
    refine ⟨.old b (i + 1) hb (by omega) (by omega), ?_⟩
    simp only [scanLeft]
    omega
  | new page heq hnew =>
    -- the allocators of a new block have no page
    simp only [cell?_append, if_true] at ha
    exact absurd (by rw [emptyRow_cell ha]) hpage

/-- Without an allocator at its place the search is at the end of an old block, or behind the
last one. -/
theorem BlockScan.cell_none (h : BlockScan kernel heap s)
    (hnone : cell? s.heap.blocks s.b s.i = none) :
    ∃ b i, s = ⟨heap, b, i⟩ ∧
      (b < heap.blocks.length ∧ i = buddyCapacity ∨ b = heap.blocks.length ∧ i = 0) := by
  cases h with
  | new page heq hnew =>
    obtain ⟨a, hsome⟩ : ∃ a, cell? (heap.blocks ++ [emptyBlock page]) heap.blocks.length 0 = some a :=
      exists_cell? (by simp) (by decide)
    rw [hnone] at hsome
    cases hsome
  | old b i hb hi hend =>
    refine ⟨b, i, rfl, ?_⟩
    rcases Nat.lt_or_eq_of_le hb with hlt | heq
    · refine .inl ⟨hlt, ?_⟩
      by_contra hne
      obtain ⟨a, hsome⟩ : ∃ a, cell? heap.blocks b i = some a := exists_cell? hlt (by omega)
      rw [hnone] at hsome
      cases hsome
    · exact .inr ⟨heq, hend heq⟩

/-- The search goes on with the next block. -/
theorem BlockScan.rowEnd (kernel : Kernel) (hlt : b < heap.blocks.length) :
    BlockScan kernel heap ⟨heap, b + 1, 0⟩ ∧
      scanLeft heap ⟨heap, b + 1, 0⟩ < scanLeft heap ⟨heap, b, buddyCapacity⟩ := by
  have hcapacity : buddyCapacity = 30 := rfl
  refine ⟨.old (b + 1) 0 (by omega) (by omega) (fun _ => rfl), ?_⟩
  simp only [scanLeft]
  omega

/-- The search goes on with a new block. -/
theorem BlockScan.newBlock {page : ℕ} (heq : kernel.mmap heap.os pageSize = page) (hnew : page ≠ 0) :
    BlockScan kernel heap ⟨⟨heap.blocks ++ [emptyBlock page], .map ⟨page, pageSize⟩ :: heap.os⟩,
        heap.blocks.length, 0⟩ ∧
      scanLeft heap ⟨⟨heap.blocks ++ [emptyBlock page], .map ⟨page, pageSize⟩ :: heap.os⟩,
        heap.blocks.length, 0⟩ < scanLeft heap ⟨heap, heap.blocks.length, 0⟩ := by
  refine ⟨.new page heq.symm hnew, ?_⟩
  simp only [scanLeft, List.length_append, List.length_cons, List.length_nil]
  omega

/-- `buddy_block_allocate` returned null. Pages may have been mapped, but no block was
handed out: the size is too large for a tree, or a page request failed. -/
structure BlockRefused (kernel : Kernel) (heap : BuddyHeap) (size : ℕ) (r : ℕ × BuddyHeap) :
    Prop where
  null : r.1 = 0
  ok : BuddyOk r.2
  grown : Grown kernel (buddyRegion heap.blocks) heap.os (buddyRegion r.2.blocks) r.2.os
  allocated : ∀ q c, r.2.Allocated q c ↔ heap.Allocated q c
  cause : buddyAllocatorMaximalAllocation < size ∨ ¬ kernel.Succeeds

/-- What `buddy_block_allocate` returns. -/
abbrev BlockOutcome (kernel : Kernel) (heap : BuddyHeap) (size : ℕ) (r : ℕ × BuddyHeap) : Prop :=
  BlockAllocated kernel heap size r ∨ BlockRefused kernel heap size r

/-- A failed page request ends the search. -/
theorem BlocksOpened.noPage {n : ℕ} (hopen : BlocksOpened kernel heap heap₁) (hok : BuddyOk heap)
    (hfail : kernel.mmap heap₁.os n = 0) :
    BlockRefused kernel heap size (0, { heap₁ with os := .refuse n :: heap₁.os }) := by
  have hok₁ := BlocksOpened.ok hopen hok
  have hall : ∀ q c, heap₁.Allocated q c ↔ heap.Allocated q c :=
    fun _ _ => BlocksOpened.allocated hopen
  exact ⟨rfl, ⟨hok₁.tree, hok₁.unused⟩, .refuse n (hopen.grown rfl) hfail, hall,
    .inr fun hkernel => hkernel _ _ hfail⟩

/-- A new page for an empty tree hands out nothing. -/
theorem allocated_newPage {os : List OsEvent} (ha : cell? heap.blocks b i = some a)
    (hpage : a.page = 0) (hnodes : a.nodes = emptyBitmap) :
    BuddyHeap.Allocated ⟨setCell heap.blocks b i { a with page := page }, os⟩ q d ↔
      heap.Allocated q d := by
  rw [allocated_iff, allocated_iff]
  constructor
  · intro hall
    rcases hall with ⟨k, j, x, m, hcell, hxpage, hleaf, hat⟩
    rw [cell?_setCell ha] at hcell
    split at hcell
    · rcases Option.some.inj hcell with rfl
      simp [hnodes, leaves_emptyBitmap] at hleaf
    · exact ⟨k, j, x, m, hcell, hxpage, hleaf, hat⟩
  · intro hall
    rcases hall with ⟨k, j, x, m, hcell, hxpage, hleaf, hat⟩
    have hkj : ¬ (k = b ∧ j = i) := by
      intro heq
      rcases heq with ⟨rfl, rfl⟩
      rcases Option.some.inj (hcell.symm.trans ha) with rfl
      exact hxpage hpage
    exact ⟨k, j, x, m, by simp [cell?_setCell ha, hkj, hcell], hxpage, hleaf, hat⟩

/-- A size too large for a tree is not served from a new page either. -/
theorem BlocksOpened.refused_newPage (hopen : BlocksOpened kernel heap heap₁)
    (hok : BuddyOk heap) (ha : cell? heap₁.blocks b i = some a) (hpage : a.page = 0)
    (hnew : kernel.mmap heap₁.os buddyAllocatorMaximalAllocation ≠ 0)
    (hmax : buddyAllocatorMaximalAllocation < size) :
    BlockRefused kernel heap size
      (0, ⟨setCell heap₁.blocks b i
          { a with page := kernel.mmap heap₁.os buddyAllocatorMaximalAllocation },
        .map ⟨kernel.mmap heap₁.os buddyAllocatorMaximalAllocation,
          buddyAllocatorMaximalAllocation⟩ :: heap₁.os⟩) := by
  have hok₁ := BlocksOpened.ok hopen hok
  have hnodes := hok₁.unused _ _ _ ha hpage
  -- the page stays with the tree, whose nodes are unmarked
  refine ⟨rfl, ⟨?_, ?_⟩, ?_, ?_, .inl hmax⟩
  · intro k j x hx
    rw [cell?_setCell ha] at hx
    split at hx
    · have htree : TreeOk a.nodes := hok₁.tree _ _ _ ha
      rw [← Option.some.inj hx]
      exact htree
    · exact hok₁.tree k j x hx
  · intro k j x hx hzero
    rw [cell?_setCell ha] at hx
    split at hx
    · rw [← Option.some.inj hx]
      exact hnodes
    · exact hok₁.unused k j x hx hzero
  · rw [buddyRegion_newPage ha hnew]
    exact (hopen.grown rfl).add _ _ hnew
  · intro q c
    rw [← BlocksOpened.allocated hopen]
    exact allocated_newPage ha hpage hnodes

/-- There is a first block, or a page for it. -/
def FirstBlock (kernel : Kernel) (heap : BuddyHeap) : Prop :=
  heap.blocks = [] → kernel.mmap heap.os pageSize ≠ 0

/-- What a step of the search has to establish. -/
def ScanPost (kernel : Kernel) (heap : BuddyHeap) (size : ℕ) (s : BlockLoop) :
    BlockLoop ⊕ (ℕ × BuddyHeap) → Prop
  | .inl s' => BlockScan kernel heap s' ∧
      (FirstBlock kernel heap → scanLeft heap s' < scanLeft heap s)
  | .inr r => BlockOutcome kernel heap size r

section Search

variable (hok : BuddyOk heap) (hr : RegionsOk (buddyRegion heap.blocks) heap.os) (hsize : 1 ≤ size)
include hok hr hsize

/-- An allocator without a page gets one and serves the request from it. -/
theorem scan_unused (hscan : BlockScan kernel heap s)
    (ha : cell? s.heap.blocks s.b s.i = some a) (hpage : a.page = 0) :
    ScanPost kernel heap size s (blockStep kernel size s) := by
  have hopen := hscan.opened
  let page := kernel.mmap s.heap.os buddyAllocatorMaximalAllocation
  by_cases hnew : page = 0
  · rw [blockStep_noPage ha hpage hnew]
    exact .inr (BlocksOpened.noPage hopen hok hnew)
  have hnodes := (BlocksOpened.ok hopen hok).unused _ _ _ ha hpage
  have htree : TreeOk ({ a with page := page } : BuddyAllocator).nodes := hnodes ▸ treeOk_emptyBitmap
  by_cases hmax : size ≤ buddyAllocatorMaximalAllocation
  · rcases tree_allocate htree hsize hmax with ⟨r, a', hrun, hpage', hcases⟩
    rcases hcases with ⟨-, -, hfull⟩ | ⟨p, n, rfl, hat, hfresh, htree', hadded⟩
    · -- an empty tree is not full
      exfalso
      have hfull : isMarked a.nodes 0 = true := hfull
      rw [hnodes, isMarked_emptyBitmap] at hfull
      cases hfull
    · rw [blockStep_newPage ha hpage rfl hnew hrun]
      have hpage'' : a'.page = page := hpage'
      have hserves : Serves s.heap s.b s.i a a' p (fitBucket size) n :=
        ⟨ha, hpage'' ▸ hnew, fun h => absurd hpage h, htree', hadded, hfresh, hpage'' ▸ hat⟩
      refine .inl (hserves.blockAllocated hopen hok hr hmax ?_)
      rw [buddyRegion_newPage ha (hpage'' ▸ hnew), hpage'']
      exact (hopen.grown rfl).add _ _ hnew
  · have hrun : buddyAllocatorAllocate { a with page := page } size =
        some (none, { a with page := page }) := if_pos (not_le.mp hmax)
    rw [blockStep_newPage ha hpage rfl hnew hrun]
    exact .inr (BlocksOpened.refused_newPage hopen hok ha hpage hnew (not_le.mp hmax))

/-- An allocator with a page serves the request, or the search goes on behind it. -/
theorem scan_used (hscan : BlockScan kernel heap s)
    (ha : cell? s.heap.blocks s.b s.i = some a) (hpage : a.page ≠ 0) :
    ScanPost kernel heap size s (blockStep kernel size s) := by
  have hopen := hscan.opened
  have hcases : buddyAllocatorAllocate a size = some (none, a) ∨
      size ≤ buddyAllocatorMaximalAllocation ∧
      ∃ p n a', buddyAllocatorAllocate a size = some (some p, a') ∧ a'.page = a.page ∧
        NodeAt a.page p (fitBucket size) n ∧ n ∉ leaves a.nodes ∧ TreeOk a'.nodes ∧
        leaves a'.nodes = insert n (leaves a.nodes) := by
    by_cases hmax : size ≤ buddyAllocatorMaximalAllocation
    · rcases tree_allocate ((BlocksOpened.ok hopen hok).tree _ _ _ ha) hsize hmax with
        ⟨r, a', hrun, hpage', ⟨rfl, rfl, -⟩ | ⟨p, n, rfl, hpost⟩⟩
      · exact .inl hrun
      · exact .inr ⟨hmax, p, n, a', hrun, hpage', hpost⟩
    · exact .inl (if_pos (not_le.mp hmax))
  rcases hcases with hrun | ⟨hmax, p, n, a', hrun, hpage', hat, hfresh, htree', hadded⟩
  · -- no room: on to the next allocator
    rw [blockStep_full ha hpage hrun]
    rcases hscan.next ha hpage with ⟨hnext, hless⟩
    exact ⟨hnext, fun _ => hless⟩
  · rw [blockStep_serves ha hpage hrun]
    have hserves : Serves s.heap s.b s.i a a' p (fitBucket size) n :=
      ⟨ha, hpage' ▸ hpage, fun _ => hpage', htree', hadded, hfresh, hpage' ▸ hat⟩
    refine .inl (hserves.blockAllocated hopen hok hr hmax ?_)
    rw [buddyRegion_setCell ha hpage']
    exact hopen.grown rfl

omit hr hsize in
/-- Behind the last block a new one is created. With no page for it the search fails, or
stands still if it would be the first block. -/
theorem scan_end : ScanPost kernel heap size ⟨heap, heap.blocks.length, 0⟩
    (blockStep kernel size ⟨heap, heap.blocks.length, 0⟩) := by
  by_cases hnew : kernel.mmap heap.os pageSize = 0
  · by_cases hfirst : heap.blocks.length = 0
    · have hnil : heap.blocks = [] := List.eq_nil_of_length_eq_zero hfirst
      rw [blockStep_noFirst (lt_irrefl _) hfirst hnew]
      exact ⟨.old _ 0 le_rfl (Nat.zero_le _) (fun _ => rfl), fun h => absurd hnew (h hnil)⟩
    · rw [blockStep_noBlock (lt_irrefl _) hfirst hnew]
      exact .inr (BlocksOpened.noPage .same hok hnew)
  · rw [blockStep_newBlock (lt_irrefl _) rfl hnew]
    rcases BlockScan.newBlock rfl hnew with ⟨hnext, hless⟩
    exact ⟨hnext, fun _ => hless⟩

theorem scan_step (hscan : BlockScan kernel heap s) :
    ScanPost kernel heap size s (blockStep kernel size s) := by
  cases ha : cell? s.heap.blocks s.b s.i with
  | some a =>
    by_cases hpage : a.page = 0
    · exact scan_unused hok hr hsize hscan ha hpage
    · exact scan_used hok hr hsize hscan ha hpage
  | none =>
    rcases hscan.cell_none ha with ⟨b, i, rfl, ⟨hlt, rfl⟩ | ⟨rfl, rfl⟩⟩
    · rw [blockStep_rowEnd hlt ha]
      rcases BlockScan.rowEnd kernel hlt with ⟨hnext, hless⟩
      exact ⟨hnext, fun _ => hless⟩
    · exact scan_end hok

/-- Whatever `buddy_block_allocate` returns is a new block or null. -/
theorem blockAllocate_post {r : ℕ × BuddyHeap} (hrun : buddyBlockAllocate kernel heap size = some r) :
    BlockOutcome kernel heap size r := by
  refine Loop.run_post (BlockScan kernel heap) (BlockOutcome kernel heap size) ?_ ?_
    (.old 0 0 (by omega) (by omega) (fun _ => rfl)) hrun
  · intro s s' hscan hstep
    have hpost := scan_step hok hr hsize hscan
    rw [hstep] at hpost
    exact hpost.1
  · intro s r hscan hstep
    have hpost := scan_step hok hr hsize hscan
    rw [hstep] at hpost
    exact hpost

/-- `buddy_block_allocate` returns, unless there is no page for the first block. -/
theorem blockAllocate_ends (hfirst : FirstBlock kernel heap) :
    ∃ r, buddyBlockAllocate kernel heap size = some r ∧ BlockOutcome kernel heap size r := by
  refine Loop.run_of_measure (BlockScan kernel heap) (BlockOutcome kernel heap size)
    (scanLeft heap) ?_ ?_ (.old 0 0 (by omega) (by omega) (fun _ => rfl)) ?_
  · intro s s' hscan hstep
    have hpost := scan_step hok hr hsize hscan
    rw [hstep] at hpost
    exact ⟨hpost.1, hpost.2 hfirst⟩
  · intro s r hscan hstep
    have hpost := scan_step hok hr hsize hscan
    rw [hstep] at hpost
    exact hpost
  · simp only [scanLeft]
    omega

/-- With memory for it `buddy_block_allocate` returns a block that was not handed out
before. -/
theorem blockAllocate_spec (hkernel : kernel.Succeeds)
    (hmax : size ≤ buddyAllocatorMaximalAllocation) :
    ∃ r, buddyBlockAllocate kernel heap size = some r ∧ BlockAllocated kernel heap size r := by
  rcases blockAllocate_ends hok hr hsize (fun _ => hkernel _ _) with ⟨r, hrun, hpost | hpost⟩
  · exact ⟨r, hrun, hpost⟩
  · rcases hpost.cause with hlarge | hfails
    · exact absurd hmax (not_le.mpr hlarge)
    · exact absurd hkernel hfails

end Search

/-! ## Deallocation -/

theorem owns_iff : a.owns p = true ↔
    a.page ≠ 0 ∧ Range.Has ⟨a.page, buddyAllocatorMaximalAllocation⟩ p := by
  have hextent : pageExtent buddyAllocatorMaximalAllocation = 4096 := rfl
  have hmax : buddyAllocatorMaximalAllocation = 4096 := rfl
  unfold BuddyAllocator.owns Range.Has
  rw [hextent, hmax]
  simp only [Bool.not_eq_true', Bool.or_eq_false_iff, decide_eq_false_iff_not]
  constructor
  · intro h
    exact ⟨h.1.1, by omega, by omega⟩
  · intro h
    exact ⟨⟨h.1, by omega⟩, by omega⟩

theorem Hands.has (h : Hands heap.blocks b i a n p c) :
    Range.Has ⟨a.page, buddyAllocatorMaximalAllocation⟩ p :=
  h.node.holds.has le_rfl (Nat.lt_add_of_pos_right (bucketSize_pos h.node.depth))

/-- The allocator that handed the block out is found. -/
theorem Hands.find (hr : RegionsOk (buddyRegion heap.blocks) heap.os)
    (h : Hands heap.blocks b i a n p c) :
    Rows.find (fun a => a.owns p) heap.blocks = some (b, i) := by
  refine find_unique h.cell (owns_iff.mpr ⟨h.page, h.has⟩) ?_
  intro k j x hx howns
  rcases owns_iff.mp howns with ⟨hpage, hhas⟩
  have heq := hr.apart _ _ _ _ p (buddyRegion_tree hx hpage) (buddyRegion_tree h.cell h.page)
    hhas h.has
  simpa using heq

theorem initialBlock_of_cell (ha : cell? heap.blocks b i = some a) :
    initialBlock kernel heap = heap := by
  have hlt := (lt_of_cell? ha).1
  have hne : heap.blocks ≠ [] := List.ne_nil_of_length_pos (by omega)
  simp [initialBlock, hne]

section

variable (hok : BuddyOk heap) (hr : RegionsOk (buddyRegion heap.blocks) heap.os)
  (h : Hands heap.blocks b i a n p c) (hpage : a'.page = a.page)
include hok hr h hpage

/-- What is handed out after node `n` of one tree has been given back. -/
theorem allocated_setCell (hleaves : leaves a'.nodes = leaves a.nodes \ {n}) :
    BuddyHeap.Allocated { heap with blocks := setCell heap.blocks b i a' } q d ↔
      heap.Allocated q d ∧ q ≠ p := by
  rw [allocated_iff, allocated_iff]
  constructor
  · intro hall
    rcases hall with ⟨k, j, x, m, hx⟩
    have hcell := hx.cell
    -- the block is another one of the old heap
    have hold : ∃ y, Hands heap.blocks k j y m q d ∧ (k, j, m) ≠ (b, i, n) := by
      rw [cell?_setCell h.cell] at hcell
      split at hcell
      · rename_i hkj
        rcases hkj with ⟨rfl, rfl⟩
        rcases Option.some.inj hcell with rfl
        have hleaf := hx.leaf
        rw [hleaves] at hleaf
        refine ⟨a, ⟨h.cell, h.page, hleaf.1, hpage ▸ hx.node⟩, fun heq => hleaf.2 ?_⟩
        simpa using heq
      · rename_i hkj
        refine ⟨x, ⟨hcell, hx.page, hx.leaf, hx.node⟩, fun heq => hkj ?_⟩
        simp only [Prod.mk.injEq] at heq
        exact ⟨heq.1, heq.2.1⟩
    rcases hold with ⟨y, hy, hne⟩
    refine ⟨⟨k, j, y, m, hy⟩, ?_⟩
    have hdis := h.disjoint hr (hok.tree _ _ _ h.cell) hy hne
    have h1 := bucketSize_pos hy.node.depth
    have h2 := bucketSize_pos h.node.depth
    omega
  · intro hall
    rcases hall with ⟨⟨k, j, x, m, hx⟩, hq⟩
    by_cases hkj : k = b ∧ j = i
    · rcases hkj with ⟨rfl, rfl⟩
      rcases Option.some.inj (hx.cell.symm.trans h.cell) with rfl
      refine ⟨k, j, a', m, by simp [cell?_setCell h.cell], hpage ▸ h.page, ?_, hpage ▸ hx.node⟩
      rw [hleaves]
      refine ⟨hx.leaf, fun heq => hq ?_⟩
      obtain rfl : m = n := by simpa using heq
      exact (hx.node.unique h.node).1
    · exact ⟨k, j, x, m, by simp [cell?_setCell h.cell, hkj, hx.cell], hx.page, hx.leaf, hx.node⟩

/-- Node `n` of one tree is given back, and nothing else changes. -/
theorem Hands.removed (htree : TreeOk a'.nodes) (hleaves : leaves a'.nodes = leaves a.nodes \ {n}) :
    BuddyOk { heap with blocks := setCell heap.blocks b i a' } ∧
      buddyRegion (setCell heap.blocks b i a') = buddyRegion heap.blocks ∧
      ∀ q d, BuddyHeap.Allocated { heap with blocks := setCell heap.blocks b i a' } q d ↔
        heap.Allocated q d ∧ q ≠ p := by
  refine ⟨⟨?_, ?_⟩, buddyRegion_setCell h.cell hpage,
    fun q d => allocated_setCell hok hr h hpage hleaves⟩
  · intro k j x hx
    rw [cell?_setCell h.cell] at hx
    split at hx
    · exact Option.some.inj hx ▸ htree
    · exact hok.tree k j x hx
  · intro k j x hx hzero
    rw [cell?_setCell h.cell] at hx
    split at hx
    · exact absurd (hpage ▸ Option.some.inj hx ▸ hzero) h.page
    · exact hok.unused k j x hx hzero

end

/-- `buddy_block_deallocate` gives back a block that is handed out. -/
theorem blockDeallocate_spec (kernel : Kernel) (hok : BuddyOk heap)
    (hr : RegionsOk (buddyRegion heap.blocks) heap.os) (hall : heap.Allocated p c) :
    ∃ heap', buddyBlockDeallocate kernel heap p = some (true, heap') ∧ BuddyOk heap' ∧
      heap'.os = heap.os ∧ buddyRegion heap'.blocks = buddyRegion heap.blocks ∧
      ∀ q d, heap'.Allocated q d ↔ heap.Allocated q d ∧ q ≠ p := by
  rcases allocated_iff.mp hall with ⟨b, i, a, n, h⟩
  rcases tree_deallocate (hok.tree _ _ _ h.cell) h.leaf h.node with
    ⟨a', hrun, hpage, htree, hleaves⟩
  rcases h.removed hok hr hpage htree hleaves with ⟨hok', hregion, hallocated⟩
  refine ⟨{ heap with blocks := setCell heap.blocks b i a' }, ?_, hok', rfl, hregion, hallocated⟩
  unfold buddyBlockDeallocate
  simp only [initialBlock_of_cell h.cell, h.find hr, h.cell, hrun, Option.bind_eq_bind,
    Option.bind_some]
  rfl

end SysProg.Memory
