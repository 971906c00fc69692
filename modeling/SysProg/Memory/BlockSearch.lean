import Mathlib.Tactic
import SysProg.Memory.BuddyRealloc
import SysProg.Memory.BuddySearch

/-!
# Where `buddy_block_allocate` takes a block from

The allocators are tried in order. One gets a page only when it is reached, so the trees that
have pages are the first ones, and all of them are full for the size when another page is
mapped.

* `BuddyAllocator.Room` — a tree has a place for the size;
* `Skipped` — the allocators that the search has passed have pages and no room;
* `TreesGrow` — what becomes of the trees, with the condition on those that get a page;
* `blockAllocate_trees` — a new page is mapped for a request that no tree has room for, and
  serves it;
* `blockReallocate_way` — a reallocation stays in its tree, allocates elsewhere, or asks for
  more than a tree can hold;
* `Packed` — the trees that have pages are the first ones.
-/

namespace SysProg.Memory

open HeapTree Rows

variable {kernel : Kernel} {heap heap' heap₁ : BuddyHeap} {a a' x : BuddyAllocator}
  {size p q b i c d n m k j w : ℕ}

/-! ## Room in a tree -/

/-- The tree has a place for the size. -/
def BuddyAllocator.Room (a : BuddyAllocator) (size : ℕ) : Prop :=
  size ≤ buddyAllocatorMaximalAllocation ∧ ∃ w, FreeNode (leaves a.nodes) size w

theorem tree_refuses (h : TreeOk a.nodes) (hsize : 1 ≤ size)
    (hrun : buddyAllocatorAllocate a size = some (none, a')) : ¬ a.Room size := by
  rintro ⟨hmax, w, hw⟩
  rcases allocate_first h (fun m hm => leaf_level hm) (.inl hsize) hmax with
    ⟨⟨offset, nodes⟩, hloop, -, hfirst⟩
  rw [buddyAllocatorAllocate, if_neg (not_lt.mpr hmax), hloop] at hrun
  simp only [Option.map_some, Option.some.injEq, Prod.mk.injEq, Option.map_eq_none_iff] at hrun
  rcases hrun with ⟨rfl, -⟩
  exact hfirst w hw

/-- A block has a byte in common with `length` bytes at `p`. -/
def Overlap (q d p length : ℕ) : Prop :=
  q < p + length ∧ p < q + bucketSize d

/-- A tree has no room just when every aligned place in it overlaps a block. -/
theorem not_room_iff (hr : RegionsOk (buddyRegion heap.blocks) heap.os)
    (ha : cell? heap.blocks b i = some a) (hpage : a.page ≠ 0)
    (hmax : size ≤ buddyAllocatorMaximalAllocation) :
    ¬ a.Room size ↔ ∀ p, AlignedBlock a.page (fitBucket size) p →
      ∃ q d, heap.Allocated q d ∧ Overlap q d p (bucketSize (fitBucket size)) := by
  constructor
  · intro hfull p hp
    rcases (aligned_iff (fitBucket_le size)).mp hp with ⟨w, hw⟩
    by_contra hnone
    -- a place without blocks is a free node
    refine hfull ⟨hmax, w, hw.level, fun m hm => ?_⟩
    rcases leaf_level hm with ⟨d, hd, hlevel⟩
    have hat : NodeAt a.page (a.page + 16 * start 8 d m) d m := ⟨hlevel, hd, rfl⟩
    refine (apart_iff hat hw).mpr ?_
    by_contra hover
    refine hnone ⟨_, d, allocated_iff.mpr ⟨b, i, a, m, ha, hpage, hm, hat⟩, ?_⟩
    unfold Overlap
    omega
  · rintro hall ⟨-, w, hw⟩
    have hat : NodeAt a.page (a.page + 16 * start 8 (fitBucket size) w) (fitBucket size) w :=
      ⟨hw.level, fitBucket_le size, rfl⟩
    rcases hall _ ((aligned_iff (fitBucket_le size)).mpr ⟨w, hat⟩) with ⟨q, d, hq, hover⟩
    rcases allocated_iff.mp hq with ⟨k, j, x, m, hx⟩
    have hdisjoint : q + bucketSize d ≤ a.page + 16 * start 8 (fitBucket size) w ∨
        a.page + 16 * start 8 (fitBucket size) w + bucketSize (fitBucket size) ≤ q := by
      by_cases hkj : k = b ∧ j = i
      · -- the block of the same tree
        rcases hkj with ⟨rfl, rfl⟩
        rcases Option.some.inj (ha.symm.trans hx.cell) with rfl
        exact (apart_iff hx.node hat).mp (hw.apart m hx.leaf)
      · -- the block of another tree
        refine hr.disjoint (buddyRegion_tree hx.cell hx.page) (buddyRegion_tree ha hpage)
          (by simpa using hkj) hx.node.holds hat.holds (bucketSize_pos hx.node.depth)
          (bucketSize_pos hat.depth)
    unfold Overlap at hover
    omega

/-! ## The trees of two heaps -/

/-- No tree loses its page, and those that get one satisfy `New`. -/
structure TreesGrow (blocks blocks' : List BuddyBlock) (New : ℕ → ℕ → ℕ → Prop) : Prop where
  kept : ∀ b i a, cell? blocks b i = some a → a.page ≠ 0 →
    ∃ a', cell? blocks' b i = some a' ∧ a'.page = a.page
  opened : ∀ b i a', cell? blocks' b i = some a' → a'.page ≠ 0 →
    (∃ a, cell? blocks b i = some a ∧ a.page = a'.page) ∨ New b i a'.page

/-- The same trees have the same pages. -/
abbrev SameTrees (blocks blocks' : List BuddyBlock) : Prop :=
  TreesGrow blocks blocks' fun _ _ _ => False

namespace TreesGrow

variable {blocks blocks' blocks₁ : List BuddyBlock} {New : ℕ → ℕ → ℕ → Prop}

theorem refl : TreesGrow blocks blocks New :=
  ⟨fun _ _ a ha _ => ⟨a, ha, rfl⟩, fun _ _ a ha _ => .inl ⟨a, ha, rfl⟩⟩

theorem mono {New' : ℕ → ℕ → ℕ → Prop} (h : TreesGrow blocks blocks' New)
    (himp : ∀ b i page, New b i page → New' b i page) : TreesGrow blocks blocks' New' :=
  ⟨h.kept, fun b i a ha hpage => (h.opened b i a ha hpage).imp_right (himp b i _)⟩

/-- First nothing changes. -/
theorem of_same (hsame : SameTrees blocks blocks₁) (h : TreesGrow blocks₁ blocks' New) :
    TreesGrow blocks blocks' New := by
  constructor
  · intro b i a ha hpage
    rcases hsame.kept b i a ha hpage with ⟨a₁, ha₁, heq⟩
    rcases h.kept b i a₁ ha₁ (heq ▸ hpage) with ⟨a', ha', heq'⟩
    exact ⟨a', ha', heq'.trans heq⟩
  · intro b i a' ha' hpage
    rcases h.opened b i a' ha' hpage with ⟨a₁, ha₁, heq⟩ | hnew
    · rcases hsame.opened b i a₁ ha₁ (heq ▸ hpage) with ⟨a, ha, heq'⟩ | hfalse
      · exact .inl ⟨a, ha, heq'.trans heq⟩
      · exact hfalse.elim
    · exact .inr hnew

end TreesGrow

/-- A new block has no trees yet. -/
theorem BlocksOpened.sameTrees (h : BlocksOpened kernel heap heap₁) :
    SameTrees heap.blocks heap₁.blocks := by
  constructor
  · intro b i a ha _
    exact ⟨a, h.cell_old ha, rfl⟩
  · intro b i a ha hpage
    rcases h.cell_cases ha with hold | rfl
    · exact .inl ⟨a, hold, rfl⟩
    · exact absurd rfl hpage

/-- One allocator is set; if its page is another one, it had none. -/
theorem setCell_trees {blocks : List BuddyBlock} {New : ℕ → ℕ → ℕ → Prop}
    (ha : cell? blocks b i = some a) (hsame : a.page ≠ 0 → a'.page = a.page)
    (hnew : a.page = 0 → a'.page ≠ 0 → New b i a'.page) :
    TreesGrow blocks (setCell blocks b i a') New := by
  constructor
  · intro k j x hx hpage
    by_cases hkj : k = b ∧ j = i
    · rcases hkj with ⟨rfl, rfl⟩
      rcases Option.some.inj (ha.symm.trans hx) with rfl
      exact ⟨a', by simp [cell?_setCell ha], hsame hpage⟩
    · exact ⟨x, by rw [cell?_setCell ha, if_neg hkj, hx], rfl⟩
  · intro k j x hx hpage
    rw [cell?_setCell ha] at hx
    split at hx
    · rename_i hkj
      rcases hkj with ⟨rfl, rfl⟩
      rcases Option.some.inj hx with rfl
      by_cases hzero : a.page = 0
      · exact .inr (hnew hzero hpage)
      · exact .inl ⟨a, ha, (hsame hzero).symm⟩
    · exact .inl ⟨x, hx, rfl⟩

/-! ## The search -/

/-- The allocators that the search has passed have pages and no room. -/
structure Skipped (kernel : Kernel) (heap : BuddyHeap) (size : ℕ) (s : BlockLoop) : Prop where
  scan : BlockScan kernel heap s
  passed : ∀ k j x, Before k j s.b s.i → cell? heap.blocks k j = some x →
    x.page ≠ 0 ∧ ¬ x.Room size

namespace Skipped

variable {s : BlockLoop}

theorem start (kernel : Kernel) (heap : BuddyHeap) (size : ℕ) :
    Skipped kernel heap size ⟨heap, 0, 0⟩ := by
  refine ⟨.old 0 0 (Nat.zero_le _) (Nat.zero_le _) (fun _ => rfl), fun k j x hbefore => ?_⟩
  simp only [Before] at hbefore
  omega

theorem next (h : Skipped kernel heap size s) (ha : cell? s.heap.blocks s.b s.i = some a)
    (hpage : a.page ≠ 0) (hroom : ¬ a.Room size) :
    Skipped kernel heap size { s with i := s.i + 1 } := by
  refine ⟨(h.scan.next ha hpage).1, fun k j x hbefore hx => ?_⟩
  by_cases hkj : k = s.b ∧ j = s.i
  · rcases hkj with ⟨rfl, rfl⟩
    rcases Option.some.inj (ha.symm.trans (h.scan.opened.cell_old hx)) with rfl
    exact ⟨hpage, hroom⟩
  · refine h.passed k j x ?_ hx
    simp only [Before] at hbefore ⊢
    omega

theorem rowEnd (h : Skipped kernel heap size ⟨heap, b, buddyCapacity⟩)
    (hlt : b < heap.blocks.length) : Skipped kernel heap size ⟨heap, b + 1, 0⟩ := by
  refine ⟨(BlockScan.rowEnd kernel hlt).1, fun k j x hbefore hx => ?_⟩
  refine h.passed k j x ?_ hx
  have hj := (lt_of_cell? hx).2
  simp only [Before] at hbefore ⊢
  omega

theorem newBlock (h : Skipped kernel heap size ⟨heap, heap.blocks.length, 0⟩) {page : ℕ}
    (heq : kernel.mmap heap.os pageSize = page) (hnew : page ≠ 0) :
    Skipped kernel heap size ⟨⟨heap.blocks ++ [emptyBlock page], .map ⟨page, pageSize⟩ :: heap.os⟩,
      heap.blocks.length, 0⟩ :=
  ⟨(BlockScan.newBlock heq hnew).1, h.passed⟩

/-- Where the search stands: at an old allocator, or at the first one of the next block. -/
theorem place (h : Skipped kernel heap size s) (ha : cell? s.heap.blocks s.b s.i = some a) :
    s.b < heap.blocks.length ∨ s.b = heap.blocks.length ∧ s.i = 0 := by
  cases h.scan with
  | old => exact .inl (lt_of_cell? ha).1
  | new => exact .inr ⟨rfl, rfl⟩

end Skipped

/-- The tree gets its page from a request for `size` bytes that returned `p`. -/
structure NewTree (heap : BuddyHeap) (size p b i page : ℕ) : Prop where
  bound : i < buddyCapacity
  place : b < heap.blocks.length ∨ b = heap.blocks.length ∧ i = 0
  unused : ∀ a, cell? heap.blocks b i = some a → a.page = 0
  before : ∀ k j x, Before k j b i → cell? heap.blocks k j = some x →
    x.page ≠ 0 ∧ ¬ x.Room size
  inside : size ≤ buddyAllocatorMaximalAllocation → ∃ n, NodeAt page p (fitBucket size) n

/-- What a step of the search has to establish. -/
def TreesPost (kernel : Kernel) (heap : BuddyHeap) (size : ℕ) : BlockLoop ⊕ (ℕ × BuddyHeap) → Prop
  | .inl s => Skipped kernel heap size s
  | .inr r => TreesGrow heap.blocks r.2.blocks (NewTree heap size r.1)

section Search

variable (hok : BuddyOk heap) (hsize : 1 ≤ size)
include hok hsize

theorem skipped_used {s : BlockLoop} (h : Skipped kernel heap size s)
    (ha : cell? s.heap.blocks s.b s.i = some a) (hpage : a.page ≠ 0) :
    TreesPost kernel heap size (blockStep kernel size s) := by
  have htree := (BlocksOpened.ok h.scan.opened hok).tree _ _ _ ha
  rcases allocate_spec htree hsize with ⟨r, a', hrun, hpage', hcases⟩
  cases r with
  | none =>
    -- a tree without room stays as it is
    have hsame : a' = a := by
      rcases hcases with ⟨-, hsame, -⟩ | ⟨p, n, hp, -⟩
      · exact hsame
      · cases hp
    rw [hsame] at hrun
    rw [blockStep_full ha hpage hrun]
    exact h.next ha hpage (tree_refuses htree hsize hrun)
  | some =>
    rw [blockStep_serves ha hpage hrun]
    exact .of_same (BlocksOpened.sameTrees h.scan.opened)
      (setCell_trees ha (fun _ => hpage') (fun hzero => absurd hzero hpage))

theorem skipped_unused {s : BlockLoop} (h : Skipped kernel heap size s)
    (ha : cell? s.heap.blocks s.b s.i = some a) (hpage : a.page = 0) :
    TreesPost kernel heap size (blockStep kernel size s) := by
  have hok₁ := BlocksOpened.ok h.scan.opened hok
  have hsame := BlocksOpened.sameTrees h.scan.opened
  by_cases hnew : kernel.mmap s.heap.os buddyAllocatorMaximalAllocation = 0
  · rw [blockStep_noPage ha hpage hnew]
    exact .of_same hsame .refl
  · have htree : TreeOk a.nodes := hok₁.tree _ _ _ ha
    rcases allocate_spec
      (a := { a with page := kernel.mmap s.heap.os buddyAllocatorMaximalAllocation }) htree hsize with
      ⟨r, a', hrun, hpage', hcases⟩
    rw [blockStep_newPage ha hpage rfl hnew hrun]
    -- the tree that gets the page serves the request
    refine .of_same hsame (setCell_trees ha (fun hne => absurd hpage hne) fun _ _ => ?_)
    refine ⟨(lt_of_cell? ha).2, h.place ha, fun x hx => ?_, fun k j x => h.passed k j x, fun hmax => ?_⟩
    · rw [h.scan.opened.cell_old hx] at ha
      exact Option.some.inj ha ▸ hpage
    · rcases hcases with ⟨-, -, hfull⟩ | ⟨p, n, rfl, -, hat, -⟩
      · -- an empty tree is not full
        have hfull : isMarked a.nodes 0 = true := hfull hmax
        rw [hok₁.unused _ _ _ ha hpage, isMarked_emptyBitmap] at hfull
        cases hfull
      · exact ⟨n, hpage' ▸ hat⟩

theorem skipped_step {s : BlockLoop} (h : Skipped kernel heap size s) :
    TreesPost kernel heap size (blockStep kernel size s) := by
  cases ha : cell? s.heap.blocks s.b s.i with
  | some a =>
    by_cases hpage : a.page = 0
    · exact skipped_unused hok hsize h ha hpage
    · exact skipped_used hok hsize h ha hpage
  | none =>
    rcases h.scan.cell_none ha with ⟨b, i, rfl, ⟨hlt, rfl⟩ | ⟨rfl, rfl⟩⟩
    · rw [blockStep_rowEnd hlt ha]
      exact h.rowEnd hlt
    · by_cases hnew : kernel.mmap heap.os pageSize = 0
      · by_cases hb : heap.blocks.length = 0
        · rw [blockStep_noFirst (lt_irrefl _) hb hnew]
          exact h
        · rw [blockStep_noBlock (lt_irrefl _) hb hnew]
          exact .refl
      · rw [blockStep_newBlock (lt_irrefl _) rfl hnew]
        exact h.newBlock rfl hnew

/-- A new page is mapped for a request that no tree has room for, and serves it. -/
theorem blockAllocate_trees {r : ℕ × BuddyHeap} (hrun : buddyBlockAllocate kernel heap size = some r) :
    TreesGrow heap.blocks r.2.blocks (NewTree heap size r.1) := by
  refine Loop.run_post (Skipped kernel heap size)
    (fun r => TreesGrow heap.blocks r.2.blocks (NewTree heap size r.1)) ?_ ?_
    (.start kernel heap size) hrun
  · intro s s' h hstep
    have hpost := skipped_step hok hsize h
    rw [hstep] at hpost
    exact hpost
  · intro s r h hstep
    have hpost := skipped_step hok hsize h
    rw [hstep] at hpost
    exact hpost

end Search

/-! ## Reallocation -/

/-- How `buddy_block_reallocate` came to its result. -/
inductive ReallocateWay (kernel : Kernel) (heap : BuddyHeap) (p size : ℕ) (r : BlockReallocated) :
    Prop where
  /-- The tree of the block answered. -/
  | inTree : SameTrees heap.blocks r.heap.blocks → ReallocateWay kernel heap p size r
  /-- The block was released, and another one requested. -/
  | elsewhere (heap₁ : BuddyHeap) : Vacated heap heap₁ p → SameTrees heap.blocks heap₁.blocks →
      1 ≤ size → size ≤ buddyAllocatorMaximalAllocation →
      buddyBlockAllocate kernel heap₁ size = some (r.pointer, r.heap) →
      ReallocateWay kernel heap p size r
  /-- A block was requested that no tree can have. -/
  | tooLarge : buddyAllocatorMaximalAllocation < size → size ≤ directAllocationThreshold →
      buddyBlockAllocate kernel heap size = some (r.pointer, r.heap) →
      ReallocateWay kernel heap p size r

theorem blockReallocate_way (hok : BuddyOk heap) (hr : RegionsOk (buddyRegion heap.blocks) heap.os)
    (hall : heap.Allocated p c) {r : BlockReallocated}
    (hrun : buddyBlockReallocate kernel heap p size = some r) :
    ReallocateWay kernel heap p size r := by
  rcases allocated_iff.mp hall with ⟨b, i, a, n, h⟩
  rcases h.tree_reallocate hok size with ⟨t, htrun, hpage, hcurrent, hpost⟩
  have hsame : SameTrees heap.blocks (setCell heap.blocks b i t.allocator) :=
    setCell_trees h.cell (fun _ => hpage) (fun hzero => absurd hzero h.page)
  unfold buddyBlockReallocate at hrun
  simp only [initialBlock_of_cell h.cell, h.find hr, h.cell, htrun, Option.bind_eq_bind,
    Option.bind_some, hcurrent] at hrun
  cases hpost with
  | moved q m hq hmax hat hm htracks hdata =>
    simp only [hq] at hrun
    rcases Option.some.inj hrun with rfl
    exact .inTree hsame
  | released hq hgrow hmax htracks hroom hcopy =>
    -- the tree has given the block up and has no room for the larger one
    rcases h.released hok hr hpage htracks kernel hgrow hmax hroom with
      ⟨q, heap₂, halloc, hcases⟩
    have hthreshold := not_direct_of_le hmax
    have hvacated := h.vacated hok hr hpage htracks
    simp only [hq, if_neg hthreshold, halloc, Option.bind_some] at hrun
    rcases hcases with ⟨rfl, -, -⟩ | ⟨hne, ⟨found, hvacant⟩, -⟩
    · rcases Option.some.inj hrun with rfl
      exact .elsewhere _ hvacated hsame (by omega) hmax halloc
    · simp only [if_neg hne, hvacant, Option.bind_some] at hrun
      rcases Option.some.inj hrun with rfl
      exact .elsewhere _ hvacated hsame (by omega) hmax halloc
  | refused hq hlarge ha hcopy =>
    -- no tree can serve the size, but up to the threshold all of them are asked
    simp only [hq, ha, setCell_self h.cell] at hrun
    by_cases hthreshold : size > directAllocationThreshold
    · -- nothing has happened
      rw [if_pos hthreshold] at hrun
      rcases Option.some.inj hrun with rfl
      exact .inTree .refl
    · rcases h.tooLarge kernel hok hr hlarge with ⟨heap₂, halloc, -⟩
      simp only [if_neg hthreshold, halloc, Option.bind_some, if_true] at hrun
      rcases Option.some.inj hrun with rfl
      exact .tooLarge hlarge (not_lt.mp hthreshold) halloc

/-! ## Deallocation -/

theorem deallocate_page (hrun : buddyAllocatorDeallocate a p = some a') : a'.page = a.page := by
  simp only [buddyAllocatorDeallocate, Option.bind_eq_bind, Option.bind_eq_some_iff] at hrun
  rcases hrun with ⟨x, -, nodes, -, hrun⟩
  rcases Option.some.inj hrun with rfl
  rfl

/-- No tree gets or loses its page. -/
theorem blockDeallocate_trees {found : Bool}
    (hrun : buddyBlockDeallocate kernel heap p = some (found, heap')) :
    SameTrees heap.blocks heap'.blocks := by
  have hopen := BlocksOpened.sameTrees (initialBlock_opened kernel heap)
  unfold buddyBlockDeallocate at hrun
  cases hfind : find (fun a => a.owns p) (initialBlock kernel heap).blocks with
  | none =>
    simp only [hfind] at hrun
    rcases Prod.mk.inj (Option.some.inj hrun) with ⟨-, rfl⟩
    exact hopen
  | some place =>
    rcases find_some (t := place.1) (i := place.2) hfind with ⟨a, ha, howns⟩
    simp only [hfind, ha, Option.bind_eq_bind, Option.bind_some, Option.bind_eq_some_iff] at hrun
    rcases hrun with ⟨a', ha', hrun⟩
    rcases Prod.mk.inj (Option.some.inj hrun) with ⟨-, rfl⟩
    exact .of_same hopen (setCell_trees ha (fun _ => deallocate_page ha')
      (fun hzero => absurd hzero (owns_iff.mp howns).1))

/-! ## The trees in use -/

/-- The trees that have pages are the first ones. -/
def Packed (blocks : List BuddyBlock) : Prop :=
  ∀ b i a k j x, cell? blocks b i = some a → a.page ≠ 0 → Before k j b i →
    cell? blocks k j = some x → x.page ≠ 0

theorem packed_nil : Packed [] := by
  intro b i a k j x ha
  simp [cell?] at ha

theorem TreesGrow.packed (h : TreesGrow heap.blocks heap'.blocks (NewTree heap size p))
    (hpacked : Packed heap.blocks) : Packed heap'.blocks := by
  intro b i a k j x ha hpage hbefore hx
  -- an allocator that had a page still has it
  have hkept : ∀ y, cell? heap.blocks k j = some y → y.page ≠ 0 → x.page ≠ 0 := by
    intro y hy hypage
    rcases h.kept k j y hy hypage with ⟨x', hx', heq⟩
    rcases Option.some.inj (hx.symm.trans hx') with rfl
    exact heq ▸ hypage
  have hj := (lt_of_cell? hx).2
  rcases h.opened b i a ha hpage with ⟨a₀, ha₀, heq⟩ | hnew
  · have hb := (lt_of_cell? ha₀).1
    obtain ⟨y, hy⟩ : ∃ y, cell? heap.blocks k j = some y :=
      exists_cell? (by simp only [Before] at hbefore; omega) hj
    exact hkept y hy (hpacked b i a₀ k j y ha₀ (heq ▸ hpage) hbefore hy)
  · -- the search has passed all trees before the new one
    obtain ⟨y, hy⟩ : ∃ y, cell? heap.blocks k j = some y := by
      refine exists_cell? ?_ hj
      have hplace := hnew.place
      simp only [Before] at hbefore
      omega
    exact hkept y hy (hnew.before k j y hbefore hy).1

theorem SameTrees.packed (h : SameTrees heap.blocks heap'.blocks) (hpacked : Packed heap.blocks) :
    Packed heap'.blocks :=
  (h.mono fun _ _ _ hfalse => hfalse.elim : TreesGrow heap.blocks heap'.blocks
    (NewTree heap 0 0)).packed hpacked

theorem blockReallocate_packed (hok : BuddyOk heap)
    (hr : RegionsOk (buddyRegion heap.blocks) heap.os) (hpacked : Packed heap.blocks)
    (hall : heap.Allocated p c) {r : BlockReallocated}
    (hrun : buddyBlockReallocate kernel heap p size = some r) : Packed r.heap.blocks := by
  cases blockReallocate_way hok hr hall hrun with
  | inTree hsame => exact SameTrees.packed hsame hpacked
  | elsewhere heap₁ hvacated hsame hsize hmax halloc =>
    exact (blockAllocate_trees hvacated.ok hsize halloc).packed (SameTrees.packed hsame hpacked)
  | tooLarge hlarge hmax halloc =>
    exact (blockAllocate_trees hok (by omega) halloc).packed hpacked

/-- Every tree with a page comes before a place without one. -/
theorem Packed.before {blocks : List BuddyBlock} (h : Packed blocks) (hi : i < buddyCapacity)
    (hunused : ∀ a, cell? blocks b i = some a → a.page = 0) (hx : cell? blocks k j = some x)
    (hpage : x.page ≠ 0) : Before k j b i := by
  by_contra hnot
  have hk := (lt_of_cell? hx).1
  simp only [Before] at hnot
  by_cases hkj : k = b ∧ j = i
  · rcases hkj with ⟨rfl, rfl⟩
    exact hpage (hunused x hx)
  · -- otherwise the place without a page would come before the tree
    obtain ⟨y, hy⟩ : ∃ y, cell? blocks b i = some y := exists_cell? (by omega) hi
    refine h k j x b i y hx hpage ?_ hy (hunused y hy)
    simp only [Before]
    omega

end SysProg.Memory
