import Mathlib.Tactic
import SysProg.Memory.BlockSearch
import SysProg.Memory.Malloc

/-!
# The indices that `buddy_allocator_allocate` uses

The bitmap has a bit for each node of the tree. A search for at least one byte ends at the
leaves at the latest. With size zero it goes on below a free leaf, since `bucket_size` of the
level below the leaves is zero too.

* `touched` — the indices that one round passes to `is_marked` and `mark`;
* `InBitmap` — all of them are nodes of the tree, in every round;
* `inBitmap_of_inside`, `inBitmap_zero_iff` — for which trees and sizes that is so;
* `AllocatesInBitmap` — the same for all calls of one `buddy_block_allocate`.
-/

namespace SysProg.Memory

open HeapTree Rows

variable {kernel : Kernel} {heap : BuddyHeap} {nodes : Bitmap} {L : Set ℕ} {a : BuddyAllocator}
  {size i b w : ℕ}

/-! ## One search -/

/-- The indices that `is_split` passes to `is_marked`. -/
def isSplitIndices (nodes : Bitmap) (i bucket : ℕ) : List ℕ :=
  if bucket < buddyAllocatorDepth - 1 then
    if isMarked nodes (left i) then [left i] else [left i, right i]
  else []

/-- The indices that one round of `buddy_allocator_allocate` passes to `is_marked` and `mark`. -/
def touched (size : ℕ) (s : AllocateLoop) : List ℕ :=
  match s.pc with
  | .visit =>
      s.i ::
        if isMarked s.nodes s.i then
          if size > bucketSize (s.bucket + 1) then []
          else isSplitIndices s.nodes s.i s.bucket
        else if size ≤ bucketSize (s.bucket + 1) then []
        else [s.i]
  | .climb => []
  | .markUp => if s.i = 0 then [] else [parent s.i]

/-- Every index that the search passes to `is_marked` or `mark` is that of a node. -/
def InBitmap (nodes : Bitmap) (size : ℕ) : Prop :=
  size ≤ buddyAllocatorMaximalAllocation →
    ∀ s, Loop.Reaches (allocateStep size) (allocateStart nodes) s →
      ∀ i ∈ touched size s, i < buddyAllocatorNodeCount

theorem isSplitIndices_lt (hlevel : AtLevel b i) (hj : w ∈ isSplitIndices nodes i b) : w < 511 := by
  unfold isSplitIndices at hj
  split at hj
  · rename_i hb
    have hb : b + 1 ≤ 8 := hb
    have hleft := AtLevel_lt hlevel.left hb
    have hright := AtLevel_lt hlevel.right hb
    split at hj
    · simp only [List.mem_singleton, left] at hj
      omega
    · simp only [List.mem_cons, List.not_mem_nil, or_false, left, right] at hj
      omega
  · simp at hj

theorem touched_lt {s : AllocateLoop} (hinv : AllocateInv nodes L size s) (hj : w ∈ touched size s) :
    w < buddyAllocatorNodeCount := by
  have hcount : buddyAllocatorNodeCount = 511 := rfl
  rw [hcount]
  cases hpc : s.pc with
  | visit =>
    simp only [AllocateInv, hpc] at hinv
    have hlt := AtLevel_lt hinv.node.level hinv.node.depth
    simp only [touched, hpc, List.mem_cons] at hj
    rcases hj with rfl | hj
    · exact hlt
    · -- a marked node is asked for its split, a free one of the bucket is marked
      split at hj
      · split at hj
        · simp at hj
        · exact isSplitIndices_lt hinv.node.level hj
      · split at hj
        · simp at hj
        · simp only [List.mem_singleton] at hj
          omega
  | climb => simp [touched, hpc] at hj
  | markUp =>
    simp only [AllocateInv, hpc] at hinv
    rcases hinv with ⟨n, hnode, -, hpath, -⟩
    have hlt : s.i < 511 := lt_of_le_of_lt hpath.le (AtLevel_lt hnode.level hnode.depth)
    simp only [touched, hpc] at hj
    split at hj
    · simp at hj
    · rename_i hne
      have hp := (siblings_of_ne_zero (by omega) hne).lt
      simp only [List.mem_singleton] at hj
      omega

/-- A search for at least one byte, or in a full tree, uses the nodes of the tree only. -/
theorem inBitmap_of_inside (h : Tracks nodes L) (hinside : 1 ≤ size ∨ ∀ w, ¬ FreeNode L size w) :
    InBitmap nodes size := by
  intro hmax s hreach i hi
  have hinv := hreach.invariant (AllocateInv nodes L size)
    (fun s s' hinv hstep => (allocate_step h hinv (descend_inside h hinside hinv hstep) hstep).1)
    (allocate_start nodes L hmax)
  exact touched_lt hinv hi

/-- A search for no bytes never chooses a node. -/
theorem zero_not_markUp {s s' : AllocateLoop} (hpc : s.pc ≠ .markUp)
    (hstep : allocateStep 0 s = .inl s') : s'.pc ≠ .markUp := by
  cases allocateStep_inl hstep with
  | choose _ _ hgt => exact absurd hgt (Nat.not_lt_zero _)
  | markUp hmark => exact absurd hmark hpc
  | used | descend | up | across => simp

/-- What holds of a search for no bytes that has used the nodes of the tree only. -/
structure ZeroSearch (nodes : Bitmap) (L : Set ℕ) (s : AllocateLoop) : Prop where
  reached : Loop.Reaches (allocateStep 0) (allocateStart nodes) s
  inv : AllocateInv nodes L 0 s
  passed : PassedInv L 0 s
  searching : s.pc ≠ .markUp

theorem zero_start (nodes : Bitmap) (L : Set ℕ) : ZeroSearch nodes L (allocateStart nodes) :=
  ⟨.refl, allocate_start nodes L (Nat.zero_le _), passed_start nodes L 0, by simp [allocateStart]⟩

theorem zero_step {s s' : AllocateLoop} (h : Tracks nodes L)
    (hL : ∀ m ∈ L, ∃ c, c ≤ 8 ∧ AtLevel c m) (hin : InBitmap nodes 0) (hs : ZeroSearch nodes L s)
    (hstep : allocateStep 0 s = .inl s') :
    ZeroSearch nodes L s' ∧ allocateMeasure s' < allocateMeasure s := by
  have hreached := hs.reached.next hstep
  have hdescend : s.pc = .visit → s'.pc = .visit → s.bucket < 8 := by
    intro hpc hpc'
    by_contra hb
    have hinv := hs.inv
    simp only [AllocateInv, hpc] at hinv
    -- the children of a leaf are no nodes
    have hge := hinv.node.level.1
    rw [show s.bucket = 8 from le_antisymm hinv.node.depth (not_lt.mp hb)] at hge
    have hi := (visit_descends hpc hpc' hstep).1
    have htouched : s'.i ∈ touched 0 s' := by simp [touched, hpc']
    have hlt := hin (Nat.zero_le _) s' hreached s'.i htouched
    have hcount : buddyAllocatorNodeCount = 511 := rfl
    rw [hi, hcount] at hlt
    simp only [left] at hlt
    omega
  rcases allocate_step h hs.inv hdescend hstep with ⟨hinv', hless⟩
  exact ⟨⟨hreached, hinv', passed_step h hL hs.inv hdescend hs.passed hstep,
    zero_not_markUp hs.searching hstep⟩, hless⟩

/-- A search for no bytes uses the nodes of the tree only just when no leaf is free. -/
theorem inBitmap_zero_iff (h : Tracks nodes L) (hL : ∀ m ∈ L, ∃ c, c ≤ 8 ∧ AtLevel c m) :
    InBitmap nodes 0 ↔ ∀ w, ¬ FreeNode L 0 w := by
  refine ⟨fun hin => ?_, fun hfull => inBitmap_of_inside h (.inr hfull)⟩
  have hdone : ∀ s r, ZeroSearch nodes L s → allocateStep 0 s = .inr r →
      ∀ w, ¬ FreeNode L 0 w := by
    intro s r hs hstep
    have hfirst := passed_done hs.inv hs.passed hstep
    have hnone : r.1 = none := by
      cases allocateStep_inr hstep with
      | full => rfl
      | found hmark => exact absurd hmark hs.searching
    simp only [FirstPost, hnone] at hfirst
    exact hfirst
  rcases Loop.run_of_measure (ZeroSearch nodes L) (fun _ => ∀ w, ¬ FreeNode L 0 w) allocateMeasure
    (fun s s' hs hstep => zero_step h hL hin hs hstep) hdone (zero_start nodes L)
    (measure_start nodes) with ⟨r, -, hpost⟩
  exact hpost

/-! ## All searches of one request -/

/-- The bitmap that one round of `buddy_block_allocate` calls `buddy_allocator_allocate` on. -/
def searched (kernel : Kernel) (s : BlockLoop) : Option Bitmap :=
  if s.b < s.heap.blocks.length then
    match cell? s.heap.blocks s.b s.i with
    | none => none
    | some allocator =>
        if allocator.page ≠ 0 then some allocator.nodes
        else
          let (page, _) := requestPage kernel s.heap.os buddyAllocatorMaximalAllocation
          if page = 0 then none else some allocator.nodes
  else none

/-- Every search of `buddy_block_allocate` uses the nodes of its tree only. -/
def AllocatesInBitmap (kernel : Kernel) (heap : BuddyHeap) (size : ℕ) : Prop :=
  ∀ s, Loop.Reaches (blockStep kernel size) ⟨heap, 0, 0⟩ s →
    ∀ nodes, searched kernel s = some nodes → InBitmap nodes size

/-- The page that the next tree gets, `0` if a request on the way to it fails. -/
def nextTreePage (kernel : Kernel) (heap : BuddyHeap) : ℕ :=
  match find (fun a => decide (a.page = 0)) heap.blocks with
  | some _ => kernel.mmap heap.os buddyAllocatorMaximalAllocation
  | none =>
      let (page, os) := requestPage kernel heap.os pageSize
      if page = 0 then 0 else kernel.mmap os buddyAllocatorMaximalAllocation

section Requests

variable {s : BlockLoop}

theorem searched_used (ha : cell? s.heap.blocks s.b s.i = some a) (hpage : a.page ≠ 0) :
    searched kernel s = some a.nodes := by
  simp only [searched, if_pos (lt_of_cell? ha).1, ha, if_pos hpage]

theorem searched_unused (ha : cell? s.heap.blocks s.b s.i = some a) (hpage : a.page = 0) :
    searched kernel s = if kernel.mmap s.heap.os buddyAllocatorMaximalAllocation = 0 then none
      else some a.nodes := by
  simp only [searched, if_pos (lt_of_cell? ha).1, ha, hpage, ne_eq, not_true_eq_false, if_false,
    requestPage]
  rfl

/-- A search is one in an allocator of the heap. -/
theorem searched_cell (h : searched kernel s = some nodes) :
    ∃ a, cell? s.heap.blocks s.b s.i = some a ∧ nodes = a.nodes ∧
      (a.page = 0 → kernel.mmap s.heap.os buddyAllocatorMaximalAllocation ≠ 0) := by
  cases ha : cell? s.heap.blocks s.b s.i with
  | none => simp [searched, ha] at h
  | some a =>
    by_cases hpage : a.page = 0
    · rw [searched_unused ha hpage] at h
      split at h
      · cases h
      · exact ⟨a, rfl, (Option.some.inj h).symm, fun _ => ‹_›⟩
    · rw [searched_used ha hpage] at h
      exact ⟨a, rfl, (Option.some.inj h).symm, fun hzero => absurd hzero hpage⟩

/-- Requests for at least one byte use the nodes of the trees only. -/
theorem allocatesInBitmap_pos (hok : BuddyOk heap)
    (hr : RegionsOk (buddyRegion heap.blocks) heap.os) (hsize : 1 ≤ size) :
    AllocatesInBitmap kernel heap size := by
  intro s hreach nodes hsearched
  have hscan := hreach.invariant (BlockScan kernel heap)
    (fun s s' hscan hstep => by
      have hpost := scan_step hok hr hsize hscan
      rw [hstep] at hpost
      exact hpost.1)
    (.old 0 0 (Nat.zero_le _) (Nat.zero_le _) (fun _ => rfl))
  rcases searched_cell hsearched with ⟨a, ha, rfl, -⟩
  exact inBitmap_of_inside ((BlocksOpened.ok hscan.opened hok).tree _ _ _ ha) (.inl hsize)

/-- Without a page for the first block the request follows a null pointer. -/
theorem blockAllocate_noFirst (hfirst : ¬ FirstBlock kernel heap) :
    buddyBlockAllocate kernel heap size = none := by
  rcases Classical.not_imp.mp hfirst with ⟨hnil, hpage⟩
  refine Loop.run_stuck (blockStep_noFirst ?_ rfl (not_not.mp hpage)) _
  simp [hnil]

end Requests

/-! ## Requests for no bytes -/

section Zero

variable {s : BlockLoop}

theorem fitBucket_zero : fitBucket 0 = 8 := by
  decide

/-- A tree in which every leaf is in use has no block of no bytes. -/
theorem allocate_zero (h : TreeOk a.nodes) (hfull : ¬ a.Room 0) :
    buddyAllocatorAllocate a 0 = some (none, a) := by
  have hnone : ∀ w, ¬ FreeNode (leaves a.nodes) 0 w := fun w hw => hfull ⟨Nat.zero_le _, w, hw⟩
  rcases allocate_first h (fun m hm => leaf_level hm) (.inr hnone) (Nat.zero_le _) with
    ⟨⟨offset, nodes⟩, hrun, hpost, -⟩
  rw [buddyAllocatorAllocate, if_neg (by simp), hrun]
  cases offset with
  | none =>
    obtain ⟨rfl, -⟩ : nodes = a.nodes ∧ _ := hpost
    rfl
  | some =>
    rcases hpost with ⟨n, hat, hapart, -⟩
    exact absurd ⟨hat.level, hapart⟩ (hnone n)

theorem not_room_zero_iff (h : TreeOk a.nodes) : ¬ a.Room 0 ↔ InBitmap a.nodes 0 := by
  rw [inBitmap_zero_iff h (fun m hm => leaf_level hm)]
  constructor
  · intro hfull w hw
    exact hfull ⟨Nat.zero_le _, w, hw⟩
  · rintro hnone ⟨-, w, hw⟩
    exact hnone w hw

/-- The first leaf of an empty tree is free. -/
theorem room_emptyBitmap (hnodes : a.nodes = emptyBitmap) : a.Room 0 := by
  refine ⟨Nat.zero_le _, 255, ?_, ?_⟩
  · rw [fitBucket_zero]
    exact ⟨by decide, by decide⟩
  · intro m hm
    rw [hnodes, leaves_emptyBitmap] at hm
    exact hm.elim

theorem nextTreePage_unused (ha : cell? heap.blocks b i = some a) (hpage : a.page = 0) :
    nextTreePage kernel heap = kernel.mmap heap.os buddyAllocatorMaximalAllocation := by
  unfold nextTreePage
  cases hfind : find (fun a => decide (a.page = 0)) heap.blocks with
  | some => rfl
  | none =>
    have hnot := find_none hfind ha
    rw [hpage] at hnot
    cases hnot

theorem nextTreePage_used (hall : ∀ b i a, cell? heap.blocks b i = some a → a.page ≠ 0) :
    nextTreePage kernel heap = if kernel.mmap heap.os pageSize = 0 then 0
      else kernel.mmap (.map ⟨kernel.mmap heap.os pageSize, pageSize⟩ :: heap.os)
        buddyAllocatorMaximalAllocation := by
  unfold nextTreePage
  cases hfind : find (fun a => decide (a.page = 0)) heap.blocks with
  | some place =>
    rcases find_some (t := place.1) (i := place.2) hfind with ⟨a, ha, hzero⟩
    exact absurd (of_decide_eq_true hzero) (hall _ _ a ha)
  | none =>
    simp only [requestPage]
    split
    · rfl
    · rfl

/-- The page that is requested for the allocator at the place of the search. -/
theorem Skipped.nextTreePage_eq (h : Skipped kernel heap size s)
    (ha : cell? s.heap.blocks s.b s.i = some a) (hpage : a.page = 0) :
    nextTreePage kernel heap = kernel.mmap s.heap.os buddyAllocatorMaximalAllocation := by
  cases h.scan with
  | old => exact nextTreePage_unused ha hpage
  | new page heq hnew =>
    have hall : ∀ b i a, cell? heap.blocks b i = some a → a.page ≠ 0 :=
      fun b i a hcell => (h.passed b i a (.inl (lt_of_cell? hcell).1) hcell).1
    subst heq
    rw [nextTreePage_used hall, if_neg hnew]

/-- There is memory for `size` bytes: a tree has room, or another tree gets its page. -/
def BuddyHeap.Provides (kernel : Kernel) (heap : BuddyHeap) (size : ℕ) : Prop :=
  (∃ b i a, cell? heap.blocks b i = some a ∧ a.page ≠ 0 ∧ a.Room size) ∨ nextTreePage kernel heap ≠ 0

theorem not_provides_iff : ¬ heap.Provides kernel size ↔
    (∀ b i a, cell? heap.blocks b i = some a → a.page ≠ 0 → ¬ a.Room size) ∧
      nextTreePage kernel heap = 0 := by
  simp only [BuddyHeap.Provides, not_or, not_exists, not_and, not_not]

/-- The search has come to an allocator that gets no page. -/
theorem Skipped.noPage (h : Skipped kernel heap size s) (hpacked : Packed heap.blocks)
    (ha : cell? s.heap.blocks s.b s.i = some a) (hpage : a.page = 0)
    (hnone : kernel.mmap s.heap.os buddyAllocatorMaximalAllocation = 0) :
    ¬ heap.Provides kernel size := by
  rw [not_provides_iff]
  refine ⟨?_, (h.nextTreePage_eq ha hpage).trans hnone⟩
  intro k j x hx hxpage
  refine (h.passed k j x (hpacked.before (lt_of_cell? ha).2 ?_ hx hxpage) hx).2
  intro y hy
  exact Option.some.inj ((h.scan.opened.cell_old hy).symm.trans ha) ▸ hpage

/-- The search has come to the end of the blocks, and there is no page for another one. -/
theorem Skipped.noBlock (h : Skipped kernel heap size ⟨heap, heap.blocks.length, 0⟩)
    (hnone : kernel.mmap heap.os pageSize = 0) : ¬ heap.Provides kernel size := by
  have hall : ∀ b i a, cell? heap.blocks b i = some a → a.page ≠ 0 ∧ ¬ a.Room size :=
    fun b i a hcell => h.passed b i a (.inl (lt_of_cell? hcell).1) hcell
  rw [not_provides_iff]
  refine ⟨fun b i a hcell _ => (hall b i a hcell).2, ?_⟩
  rw [nextTreePage_used fun b i a hcell => (hall b i a hcell).1, if_pos hnone]

/-- A request for no bytes has returned null, with all trees in full use. -/
structure ZeroRefused (kernel : Kernel) (heap : BuddyHeap) (r : ℕ × BuddyHeap) : Prop where
  refused : BlockRefused kernel heap 0 r
  same : SameTrees heap.blocks r.2.blocks
  full : ∀ b i a, cell? heap.blocks b i = some a → a.page ≠ 0 → ¬ a.Room 0
  noPage : nextTreePage kernel heap = 0

/-- What a round of a request for no bytes establishes. -/
def ZeroPost (kernel : Kernel) (heap : BuddyHeap) (s : BlockLoop) :
    BlockLoop ⊕ (ℕ × BuddyHeap) → Prop
  | .inl s' => Skipped kernel heap 0 s' ∧
      (FirstBlock kernel heap → scanLeft heap s' < scanLeft heap s)
  | .inr r => ZeroRefused kernel heap r

/-- A round at a tree in full use, or at an allocator that gets no page. -/
theorem skipped_zero (hok : BuddyOk heap) (hpacked : Packed heap.blocks)
    (h : Skipped kernel heap 0 s)
    (hused : ∀ a, cell? s.heap.blocks s.b s.i = some a → a.page ≠ 0 → ¬ a.Room 0)
    (hunused : ∀ a, cell? s.heap.blocks s.b s.i = some a → a.page = 0 →
      kernel.mmap s.heap.os buddyAllocatorMaximalAllocation = 0) :
    ZeroPost kernel heap s (blockStep kernel 0 s) := by
  have hopen := h.scan.opened
  have hsame : SameTrees heap.blocks s.heap.blocks := BlocksOpened.sameTrees hopen
  cases ha : cell? s.heap.blocks s.b s.i with
  | some a =>
    by_cases hpage : a.page = 0
    · -- no page for another tree
      have hnone := hunused a ha hpage
      rcases not_provides_iff.mp (h.noPage hpacked ha hpage hnone) with ⟨hfull, hnext⟩
      rw [blockStep_noPage ha hpage hnone]
      exact ⟨BlocksOpened.noPage hopen hok hnone, hsame, hfull, hnext⟩
    · have hfull := hused a ha hpage
      have htree := (BlocksOpened.ok hopen hok).tree _ _ _ ha
      rw [blockStep_full ha hpage (allocate_zero htree hfull)]
      exact ⟨h.next ha hpage hfull, fun _ => (h.scan.next ha hpage).2⟩
  | none =>
    rcases h.scan.cell_none ha with ⟨b, i, rfl, ⟨hlt, rfl⟩ | ⟨rfl, rfl⟩⟩
    · rw [blockStep_rowEnd hlt ha]
      exact ⟨h.rowEnd hlt, fun _ => (BlockScan.rowEnd kernel hlt).2⟩
    · by_cases hnew : kernel.mmap heap.os pageSize = 0
      · by_cases hb : heap.blocks.length = 0
        · rw [blockStep_noFirst (lt_irrefl _) hb hnew]
          exact ⟨h, fun hfirst => absurd hnew (hfirst (List.eq_nil_of_length_eq_zero hb))⟩
        · -- no page for another block
          rcases not_provides_iff.mp (h.noBlock hnew) with ⟨hfull, hnext⟩
          rw [blockStep_noBlock (lt_irrefl _) hb hnew]
          exact ⟨BlocksOpened.noPage .same hok hnew, .refl, hfull, hnext⟩
      · rw [blockStep_newBlock (lt_irrefl _) rfl hnew]
        exact ⟨h.newBlock rfl hnew, fun _ => (BlockScan.newBlock rfl hnew).2⟩

section Heaps

variable (hok : BuddyOk heap) (hpacked : Packed heap.blocks)
include hok hpacked

/-- A request for no bytes that uses the nodes of the trees only finds them in full use. -/
theorem zero_refused (hin : AllocatesInBitmap kernel heap 0) {r : ℕ × BuddyHeap}
    (hrun : buddyBlockAllocate kernel heap 0 = some r) : ZeroRefused kernel heap r := by
  have hstep : ∀ s, Loop.Reaches (blockStep kernel 0) ⟨heap, 0, 0⟩ s ∧ Skipped kernel heap 0 s →
      ZeroPost kernel heap s (blockStep kernel 0 s) := by
    rintro s ⟨hreach, h⟩
    have hok₁ := BlocksOpened.ok h.scan.opened hok
    refine skipped_zero hok hpacked h ?_ ?_
    · intro a ha hpage
      rw [not_room_zero_iff (hok₁.tree _ _ _ ha)]
      exact hin s hreach a.nodes (searched_used ha hpage)
    · intro a ha hpage
      -- a new page would be searched, and from its empty tree the search leaves the bitmap
      by_contra hnew
      have hsearched := hin s hreach a.nodes (by rw [searched_unused ha hpage, if_neg hnew])
      rw [← not_room_zero_iff (hok₁.tree _ _ _ ha)] at hsearched
      exact hsearched (room_emptyBitmap (hok₁.unused _ _ _ ha hpage))
  refine Loop.run_post
    (fun s => Loop.Reaches (blockStep kernel 0) ⟨heap, 0, 0⟩ s ∧ Skipped kernel heap 0 s)
    (ZeroRefused kernel heap) ?_ ?_ ⟨.refl, .start kernel heap 0⟩ hrun
  · intro s s' hs hnext
    have hpost := hstep s hs
    rw [hnext] at hpost
    exact ⟨hs.1.next hnext, hpost.1⟩
  · intro s r hs hdone
    have hpost := hstep s hs
    rw [hdone] at hpost
    exact hpost

/-- With all trees in full use and no page for another one, a request for no bytes uses the
nodes of the trees only. -/
theorem zero_inBitmap (hfirst : FirstBlock kernel heap)
    (hfull : ∀ b i a, cell? heap.blocks b i = some a → a.page ≠ 0 → ¬ a.Room 0)
    (hnone : nextTreePage kernel heap = 0) :
    (∃ r, buddyBlockAllocate kernel heap 0 = some r) ∧ AllocatesInBitmap kernel heap 0 := by
  have hused : ∀ s, Skipped kernel heap 0 s → ∀ a, cell? s.heap.blocks s.b s.i = some a →
      a.page ≠ 0 → ¬ a.Room 0 := by
    intro s h a ha hpage
    rcases h.scan.opened.cell_cases ha with hold | rfl
    · exact hfull _ _ a hold hpage
    · exact absurd rfl hpage
  have hunused : ∀ s, Skipped kernel heap 0 s → ∀ a, cell? s.heap.blocks s.b s.i = some a →
      a.page = 0 → kernel.mmap s.heap.os buddyAllocatorMaximalAllocation = 0 := by
    intro s h a ha hpage
    rw [← h.nextTreePage_eq ha hpage]
    exact hnone
  -- so every cell is skipped
  have hstep : ∀ s s', Skipped kernel heap 0 s → blockStep kernel 0 s = .inl s' →
      Skipped kernel heap 0 s' ∧ scanLeft heap s' < scanLeft heap s := by
    intro s s' h hnext
    have hpost := skipped_zero hok hpacked h (hused s h) (hunused s h)
    rw [hnext] at hpost
    exact ⟨hpost.1, hpost.2 hfirst⟩
  constructor
  · rcases Loop.run_of_measure (Skipped kernel heap 0) (fun _ => True) (scanLeft heap) hstep
      (fun _ _ _ _ => trivial) (.start kernel heap 0)
      (show scanLeft heap ⟨heap, 0, 0⟩ < 32 * (heap.blocks.length + 2) by
        simp only [scanLeft]; omega) with ⟨r, hrun, -⟩
    exact ⟨r, hrun⟩
  · intro s hreach nodes hsearched
    have h := hreach.invariant (Skipped kernel heap 0) (fun s s' h hnext => (hstep s s' h hnext).1)
      (.start kernel heap 0)
    rcases searched_cell hsearched with ⟨a, ha, rfl, hpage⟩
    by_cases hzero : a.page = 0
    · -- a tree without a page is not searched
      exact absurd (hunused s h a ha hzero) (hpage hzero)
    · have htree := (BlocksOpened.ok h.scan.opened hok).tree _ _ _ ha
      exact (not_room_zero_iff htree).mp (hused s h a ha hzero)

end Heaps

end Zero

end SysProg.Memory
