import Mathlib.Tactic
import SysProg.Memory.BlockPages
import SysProg.Memory.BuddyBounds

/-!
# When there is memory for a request

`malloc_impl` returns null when a page request on its way fails, and follows a null pointer
when it is the request for the first block or the first table. Whether it comes to that is a
matter of the heap and of what `request_page` answers.

* `Heap.Provides` — the sub-allocator of the size has a free place, or gets pages for one;
* `Heap.Opens` — the sub-allocator has its first block or table, or gets it;
* `malloc_returns_iff`, `malloc_serves_iff` — the call returns, and it returns a block;
* `client_packed` — along a run the trees with pages stay the first ones.
-/

namespace SysProg.Memory

open Rows Spans Lts

/-- There is memory for `size` bytes: an arena has room behind its cursor, or there are pages
for another arena. -/
def SlotHeap.Provides (kernel : Kernel) (heap : SlotHeap) (size : ℕ) : Prop :=
  (∃ a ∈ heap.arenas, requiredSlots size ≤ a.room) ∨ kernel.mmap heap.os slotAllocatorSize ≠ 0

/-- There is memory for `size` bytes: an entry is free or there is a page for another table,
and there are pages for the mapping. -/
def DirectHeap.Provides (kernel : Kernel) (heap : DirectHeap) (size : ℕ) : Prop :=
  match find (fun e => decide (e.pages = 0)) heap.tables with
  | some _ => kernel.mmap heap.os size ≠ 0
  | none =>
      let (page, os) := requestPage kernel heap.os pageSize
      page ≠ 0 ∧ kernel.mmap os size ≠ 0

/-- The first table is there, or there is a page for it. -/
def FirstTable (kernel : Kernel) (heap : DirectHeap) : Prop :=
  heap.tables = [] → kernel.mmap heap.os pageSize ≠ 0

/-- There is memory for a block of `size` bytes. -/
def Heap.Provides (kernel : Kernel) (heap : Heap) (size : ℕ) : Prop :=
  match issuer size with
  | .buddy => heap.buddy.Provides kernel size
  | .slot => heap.slot.Provides kernel size
  | .direct => heap.direct.Provides kernel size

/-- No null pointer is followed by a request for `size` bytes. -/
def Heap.Opens (kernel : Kernel) (heap : Heap) (size : ℕ) : Prop :=
  match issuer size with
  | .buddy => FirstBlock kernel heap.buddy
  | .slot => True
  | .direct => FirstTable kernel heap.direct

/-! ## The buddy allocators -/

section Buddy

variable {kernel : Kernel} {heap : BuddyHeap} {a : BuddyAllocator} {s : BlockLoop}
  {r : ℕ × BuddyHeap} {size : ℕ}

theorem BuddyHeap.Provides.first (h : heap.Provides kernel size) : FirstBlock kernel heap := by
  intro hnil hnone
  have hempty : ∀ b i a, ¬ cell? heap.blocks b i = some a := by
    intro b i a ha
    rw [hnil] at ha
    simp [cell?] at ha
  rcases h with ⟨b, i, a, ha, -⟩ | hnext
  · exact hempty b i a ha
  · rw [nextTreePage_used fun b i a ha => absurd ha (hempty b i a), if_pos hnone] at hnext
    exact hnext rfl

variable (hok : BuddyOk heap) (hpacked : Packed heap.blocks) (hsize : 1 ≤ size)
  (hmax : size ≤ buddyAllocatorMaximalAllocation)
include hok hpacked hsize hmax

omit hpacked in
/-- The first request of a new tree is served. -/
theorem Skipped.newPage (h : Skipped kernel heap size s)
    (ha : cell? s.heap.blocks s.b s.i = some a) (hpage : a.page = 0)
    (hsome : kernel.mmap s.heap.os buddyAllocatorMaximalAllocation ≠ 0)
    (hstep : blockStep kernel size s = .inr r) : r.1 ≠ 0 ∧ heap.Provides kernel size := by
  have hok₁ := BlocksOpened.ok h.scan.opened hok
  have htree := hok₁.tree _ _ _ ha
  rcases allocate_spec
    (a := { a with page := kernel.mmap s.heap.os buddyAllocatorMaximalAllocation }) htree hsize
    with ⟨res, a', hrun, -, hcases⟩
  rw [blockStep_newPage ha hpage rfl hsome hrun] at hstep
  rcases Sum.inr.inj hstep with rfl
  refine ⟨?_, .inr ?_⟩
  · rcases hcases with ⟨-, -, hfull⟩ | ⟨p, n, rfl, -, hat, -⟩
    · -- a tree without a page has no marked node
      have hfull : isMarked a.nodes 0 = true := hfull hmax
      rw [hok₁.unused _ _ _ ha hpage, isMarked_emptyBitmap] at hfull
      cases hfull
    · have hp := hat.address
      simp only at hp
      simp only [Option.getD_some]
      omega
  · rw [h.nextTreePage_eq ha hpage]
    exact hsome

/-- What the last round of the search returns tells whether there was memory. -/
theorem Skipped.serves_iff (h : Skipped kernel heap size s)
    (hstep : blockStep kernel size s = .inr r) : r.1 ≠ 0 ↔ heap.Provides kernel size := by
  have hok₁ := BlocksOpened.ok h.scan.opened hok
  cases ha : cell? s.heap.blocks s.b s.i with
  | some a =>
    have htree := hok₁.tree _ _ _ ha
    by_cases hpage : a.page = 0
    · by_cases hnone : kernel.mmap s.heap.os buddyAllocatorMaximalAllocation = 0
      · rw [blockStep_noPage ha hpage hnone] at hstep
        rcases Sum.inr.inj hstep with rfl
        exact iff_of_false (by simp) (h.noPage hpacked ha hpage hnone)
      · rcases h.newPage hok hsize hmax ha hpage hnone hstep with ⟨hserved, hprovides⟩
        exact iff_of_true hserved hprovides
    · rcases allocate_spec htree hsize with ⟨res, a', hrun, -, ⟨rfl, rfl, -⟩ | ⟨p, n, rfl, -, hat, hapart, -⟩⟩
      · rw [blockStep_full ha hpage hrun] at hstep
        cases hstep
      · rw [blockStep_serves ha hpage hrun] at hstep
        rcases Sum.inr.inj hstep with rfl
        -- a tree with a page has been there before the search
        have hold : cell? heap.blocks s.b s.i = some a := by
          rcases h.scan.opened.cell_cases ha with hold | rfl
          · exact hold
          · exact absurd rfl hpage
        have hp := hat.address
        exact iff_of_true (by simp only; omega)
          (.inl ⟨s.b, s.i, a, hold, hpage, hmax, n, hat.level, hapart⟩)
  | none =>
    rcases h.scan.cell_none ha with ⟨b, i, rfl, ⟨hlt, rfl⟩ | ⟨rfl, rfl⟩⟩
    · rw [blockStep_rowEnd hlt ha] at hstep
      cases hstep
    · by_cases hnone : kernel.mmap heap.os pageSize = 0
      · by_cases hb : heap.blocks.length = 0
        · rw [blockStep_noFirst (lt_irrefl _) hb hnone] at hstep
          cases hstep
        · rw [blockStep_noBlock (lt_irrefl _) hb hnone] at hstep
          rcases Sum.inr.inj hstep with rfl
          exact iff_of_false (by simp) (h.noBlock hnone)
      · rw [blockStep_newBlock (lt_irrefl _) rfl hnone] at hstep
        cases hstep

theorem blockAllocate_serves_iff (hrun : buddyBlockAllocate kernel heap size = some r) :
    r.1 ≠ 0 ↔ heap.Provides kernel size := by
  refine Loop.run_post (Skipped kernel heap size) (fun r => r.1 ≠ 0 ↔ heap.Provides kernel size)
    ?_ ?_ (.start kernel heap size) hrun
  · intro s s' h hstep
    have hpost := skipped_step hok hsize h
    rw [hstep] at hpost
    exact hpost
  · intro s r h hstep
    exact h.serves_iff hok hpacked hsize hmax hstep

end Buddy

/-! ## The slot allocator -/

section Slot

variable {kernel : Kernel} {heap heap₁ : SlotHeap} {size : ℕ} {res : ℕ × SlotHeap}

/-- A new arena has room for all its slots. -/
theorem create_room (page : ℕ) : (create page).room = slotCount := by
  have hseg : Seg (create page).slots (create page).cursor [⟨slotCount, false⟩] slotCount :=
    create_tiled page
  rw [room_eq hseg]
  rfl

/-- Opening another arena takes a page, and the arena is there then. -/
theorem Opened.granted (h : Opened kernel heap heap₁) : heap₁ = heap ∨
    kernel.mmap heap.os slotAllocatorSize ≠ 0 ∧ ∃ page, create page ∈ heap₁.arenas := by
  induction h with
  | same => exact .inl rfl
  | @fresh heap₂ _ hpage ih =>
    have hmem : create (kernel.mmap heap₂.os slotAllocatorSize) ∈ (extended kernel heap₂).arenas := by
      simp [extended]
    rcases ih with rfl | ⟨hfirst, -⟩
    · exact .inr ⟨hpage, _, hmem⟩
    · exact .inr ⟨hfirst, _, hmem⟩

theorem slotAllocate_serves_iff (h : SlotOk heap) (hpos : 0 < requiredSlots size)
    (hle : requiredSlots size ≤ slotCount)
    (hrun : slotAllocatorAllocate kernel heap size = some res) :
    res.1 ≠ 0 ↔ heap.Provides kernel size := by
  have hsearchable : ∀ a ∈ heap.arenas, Searchable (requiredSlots size) a :=
    fun a ha => ⟨h.tiled a ha, .inl (h.cursor a ha)⟩
  rcases allocate_arenas_scan hpos hsearchable hrun with ⟨hfirst, hrefused⟩
  constructor
  · intro hne
    rcases hfirst with ⟨heap₁, index, a, b, i, hopen, halloc, hroom, -⟩ | ⟨hnull, -⟩
    · rcases hopen.granted with rfl | ⟨hpage, -⟩
      · exact .inl ⟨a, List.mem_of_getElem? halloc.old, hroom⟩
      · exact .inr hpage
    · exact absurd hnull hne
  · intro hprovides hnull
    rcases hrefused hnull with ⟨heap₁, hno, hrefused⟩
    rcases hrefused.opened.granted with rfl | ⟨-, page, hmem⟩
    · rcases hprovides with hroom | hpage
      · exact hno.not_exists hroom
      · exact hpage hrefused.cause
    · -- a new arena would have served the request
      refine hno.not_exists ⟨_, hmem, ?_⟩
      rw [create_room]
      exact hle

end Slot

/-! ## The direct allocator -/

section Direct

variable {kernel : Kernel} {heap : DirectHeap} {size : ℕ} {r : ℕ × DirectHeap}

theorem provides_free {x : ℕ × ℕ} (hfind : find (fun e => decide (e.pages = 0)) heap.tables = some x) :
    heap.Provides kernel size ↔ kernel.mmap heap.os size ≠ 0 := by
  simp only [DirectHeap.Provides, hfind]

theorem provides_full (hfind : find (fun e => decide (e.pages = 0)) heap.tables = none) :
    heap.Provides kernel size ↔ kernel.mmap heap.os pageSize ≠ 0 ∧
      kernel.mmap (.map ⟨kernel.mmap heap.os pageSize, pageSize⟩ :: heap.os) size ≠ 0 := by
  simp only [DirectHeap.Provides, hfind, requestPage]
  refine and_congr_right fun hpage => ?_
  rw [if_neg hpage]

theorem find_nil (hnil : heap.tables = []) :
    find (fun e => decide (e.pages = 0)) heap.tables = none := by
  rw [hnil]
  rfl

theorem DirectHeap.Provides.first (h : heap.Provides kernel size) : FirstTable kernel heap :=
  fun hnil => ((provides_full (find_nil hnil)).mp h).1

/-- The tables after the first use: there are none, the first one is new, or nothing has
changed. -/
theorem initialTable_cases (kernel : Kernel) (heap : DirectHeap) :
    (heap.tables = [] ∧ kernel.mmap heap.os pageSize = 0 ∧ (initialTable kernel heap).tables = []) ∨
    (heap.tables = [] ∧ kernel.mmap heap.os pageSize ≠ 0 ∧ (initialTable kernel heap).tables ≠ [] ∧
      (initialTable kernel heap).os = .map ⟨kernel.mmap heap.os pageSize, pageSize⟩ :: heap.os) ∨
    heap.tables ≠ [] ∧ initialTable kernel heap = heap := by
  unfold initialTable
  by_cases hnil : heap.tables = []
  · by_cases hpage : kernel.mmap heap.os pageSize = 0
    · simp only [hnil, if_true, requestPage, if_pos hpage]
      exact .inl ⟨trivial, hpage, trivial⟩
    · simp only [hnil, if_true, requestPage, if_neg hpage]
      exact .inr (.inl ⟨trivial, hpage, List.cons_ne_nil _ _, trivial⟩)
  · rw [if_neg hnil]
    exact .inr (.inr ⟨hnil, rfl⟩)

theorem directAllocate_returns_iff :
    (∃ r, directAllocatorAllocate kernel heap size = some r) ↔ FirstTable kernel heap := by
  have hempty : (∃ r, directAllocatorAllocate kernel heap size = some r) ↔
      (initialTable kernel heap).tables ≠ [] := by
    unfold directAllocatorAllocate
    by_cases hnil : (initialTable kernel heap).tables = []
    · simp [hnil]
    · simp only [hnil, if_false, ne_eq, not_false_eq_true, iff_true]
      split
      · exact ⟨_, rfl⟩
      · split <;> exact ⟨_, rfl⟩
  rw [hempty]
  rcases initialTable_cases kernel heap with ⟨hnil, hpage, hnone⟩ | ⟨-, hpage, hsome, -⟩ | ⟨hne, heq⟩
  · exact iff_of_false (not_not.mpr hnone) fun hfirst => hfirst hnil hpage
  · exact iff_of_true hsome fun _ => hpage
  · rw [heq]
    exact iff_of_true hne fun hnil => absurd hnil hne

theorem directAllocate_serves_iff (hrun : directAllocatorAllocate kernel heap size = some r) :
    r.1 ≠ 0 ↔ heap.Provides kernel size := by
  unfold directAllocatorAllocate at hrun
  simp only at hrun
  split at hrun
  · cases hrun
  · rename_i hne
    cases hfind : find (fun e => decide (e.pages = 0)) (initialTable kernel heap).tables with
    | none =>
      -- all entries are in use
      rw [initialTable_of_full hne hfind] at hrun hfind
      rw [provides_full hfind]
      simp only [hfind, requestPage] at hrun
      by_cases hpage : kernel.mmap heap.os pageSize = 0
      · simp only [hpage, if_true, Option.some.injEq] at hrun
        subst hrun
        exact iff_of_false (not_not.mpr rfl) fun hpages => hpages.1 hpage
      · simp only [if_neg hpage, Option.some.injEq] at hrun
        subst hrun
        exact (and_iff_right hpage).symm
    | some =>
      simp only [hfind, Option.some.injEq] at hrun
      have hpointer : r.1 = kernel.mmap (initialTable kernel heap).os size := by
        rw [← hrun]
        rfl
      rw [hpointer]
      rcases initialTable_cases kernel heap with ⟨-, -, hnone⟩ | ⟨hnil, hpage, -, hos⟩ | ⟨-, heq⟩
      · exact absurd hnone hne
      · rw [provides_full (find_nil hnil), hos]
        exact (and_iff_right hpage).symm
      · rw [heq] at hfind
        rw [provides_free hfind, heq]

end Direct

/-! ## The three together -/

section Malloc

variable {kernel : Kernel} {heap heap' : Heap} {size p : ℕ}

theorem Heap.Provides.opens (h : heap.Provides kernel size) : heap.Opens kernel size := by
  unfold Heap.Provides at h
  unfold Heap.Opens
  split at h
  · exact h.first
  · trivial
  · exact h.first

/-- With memory for every request there is memory for this one. -/
theorem provides_of_succeeds (hkernel : kernel.Succeeds) (heap : Heap) (size : ℕ) :
    heap.Provides kernel size := by
  unfold Heap.Provides
  split
  · refine .inr ?_
    unfold nextTreePage
    split
    · exact hkernel _ _
    · simp only [requestPage, if_neg (hkernel _ _)]
      exact hkernel _ _
  · exact .inr (hkernel _ _)
  · unfold DirectHeap.Provides
    split
    · exact hkernel _ _
    · exact ⟨hkernel _ _, hkernel _ _⟩

/-- The sub-allocator of the size is asked. -/
theorem mallocImpl_eq (kernel : Kernel) (heap : Heap) (size : ℕ) :
    mallocImpl kernel heap size = match issuer size with
      | .buddy => (buddyBlockAllocate kernel heap.buddy size).map fun r => (r.1, heap.setBuddy r.2)
      | .slot => (slotAllocatorAllocate kernel heap.slot size).map fun r => (r.1, heap.setSlot r.2)
      | .direct => (directAllocatorAllocate kernel heap.direct size).map
          fun r => (r.1, heap.setDirect r.2) := by
  unfold mallocImpl issuer
  split
  · cases buddyBlockAllocate kernel heap.buddy size <;> rfl
  · split
    · cases slotAllocatorAllocate kernel heap.slot size <;> rfl
    · cases directAllocatorAllocate kernel heap.direct size <;> rfl

theorem issuer_buddy (ho : issuer size = .buddy) : size < slotAllocatorThreshold := by
  unfold issuer at ho
  split at ho
  · assumption
  · split at ho <;> cases ho

theorem issuer_slot (ho : issuer size = .slot) : size < directAllocationThreshold := by
  unfold issuer at ho
  split at ho
  · cases ho
  · split at ho
    · assumption
    · cases ho

variable (h : HeapOk heap) (hsize : 1 ≤ size)
include h hsize

/-- `malloc_impl` returns unless it follows a null pointer. -/
theorem malloc_returns_iff :
    (∃ r, mallocImpl kernel heap size = some r) ↔ heap.Opens kernel size := by
  rw [mallocImpl_eq, Heap.Opens]
  simp only [← Option.isSome_iff_exists]
  cases ho : issuer size with
  | buddy =>
    simp only [Option.isSome_map]
    constructor
    · -- without a page for the first table the null pointer is followed
      intro hsome
      by_contra hnot
      rw [blockAllocate_noFirst hnot] at hsome
      cases hsome
    · intro hfirst
      rcases blockAllocate_ends h.buddy h.buddyRegions hsize hfirst with ⟨r, hrun, -⟩
      rw [hrun]
      rfl
  | slot =>
    rcases requiredSlots_bounds (issuer_slot ho) with ⟨hpos, hle⟩
    rcases slotAllocate_spec kernel h.slotOk hpos hle with ⟨r, hrun, -⟩
    simp [hrun]
  | direct =>
    simp only [Option.isSome_map, Option.isSome_iff_exists]
    exact directAllocate_returns_iff

/-- Whether it returns a block is a matter of the memory that there is. -/
theorem malloc_serves_iff (hpacked : Packed heap.blocks)
    (hrun : mallocImpl kernel heap size = some (p, heap')) :
    p ≠ 0 ↔ heap.Provides kernel size := by
  rw [mallocImpl_eq] at hrun
  rw [Heap.Provides]
  cases ho : issuer size with
  | buddy =>
    simp only [ho, Option.map_eq_some_iff, Prod.mk.injEq] at hrun
    rcases hrun with ⟨r, hrun, rfl, -⟩
    have hmax : size ≤ buddyAllocatorMaximalAllocation :=
      le_trans (issuer_buddy ho).le (by decide)
    exact blockAllocate_serves_iff h.buddy hpacked hsize hmax hrun
  | slot =>
    simp only [ho, Option.map_eq_some_iff, Prod.mk.injEq] at hrun
    rcases hrun with ⟨r, hrun, rfl, -⟩
    rcases requiredSlots_bounds (issuer_slot ho) with ⟨hpos, hle⟩
    exact slotAllocate_serves_iff h.slotOk hpos hle hrun
  | direct =>
    simp only [ho, Option.map_eq_some_iff, Prod.mk.injEq] at hrun
    rcases hrun with ⟨r, hrun, rfl, -⟩
    exact directAllocate_serves_iff hrun

end Malloc

/-! ## Runs -/

section Runs

variable {kernel : Kernel} {s s' : ClientState} {op : ClientOp} {x : Held} {rounds size p : ℕ}
  {heap' : Heap}

theorem malloc_packed (h : HeapOk s.heap) (hpacked : Packed s.heap.blocks) (hsize : 1 ≤ size)
    (hrun : mallocImpl kernel s.heap size = some (p, heap')) : Packed heap'.blocks := by
  by_cases hlt : size < slotAllocatorThreshold
  · simp only [mallocImpl, if_pos hlt, Option.bind_eq_bind, Option.bind_eq_some_iff] at hrun
    rcases hrun with ⟨⟨q, part⟩, halloc, hrun⟩
    rcases Prod.mk.inj (Option.some.inj hrun) with ⟨-, rfl⟩
    exact (blockAllocate_trees h.buddy hsize halloc).packed hpacked
  · rw [mallocImpl_blocks hlt hrun]
    exact hpacked

theorem realloc_packed (h : ClientInv s) (hpacked : Packed s.heap.blocks) (hx : x ∈ s.live)
    {r : HeapReallocated} (hrun : reallocImpl kernel rounds s.heap x.pointer size = some r) :
    Packed r.heap.blocks := by
  rcases reallocImpl_trees hrun with ⟨first, hfirst, hafter, -⟩
  have hall := h.allocated hx
  have hafter : SameTrees first.heap.blocks r.heap.buddy.blocks := hafter
  refine SameTrees.packed hafter ?_
  by_cases howner : x.owner = .buddy
  · rw [howner] at hall
    exact blockReallocate_packed h.ok.buddy h.ok.buddyRegions hpacked hall hfirst
  · -- a pointer into no tree
    rw [blockReallocate_foreign kernel (buddy_foreign h.ok hall howner)] at hfirst
    rcases Option.some.inj hfirst with rfl
    exact SameTrees.packed (BlocksOpened.sameTrees (initialBlock_opened kernel s.heap.buddy)) hpacked

/-- The trees with pages are the first ones after every step, also when page requests fail. -/
theorem client_packed (h : ClientInv s) (hpacked : Packed s.heap.blocks) (hallowed : op.Allowed s)
    (hstep : clientStep kernel rounds op s = some s') : Packed s'.heap.blocks := by
  cases called_of_step hstep with
  | served size p heap' hrun | refused size heap' hrun =>
    exact malloc_packed h.ok hpacked hallowed hrun
  | freed x found heap' hrun =>
    have hsame : SameTrees s.heap.buddy.blocks heap'.buddy.blocks := freeImpl_trees hrun
    exact SameTrees.packed hsame hpacked
  | moved x size rounds' r hrun | failed x size rounds' r hrun =>
    exact realloc_packed h hpacked hallowed.1 hrun
  | wrote | unseen => exact hpacked

end Runs

end SysProg.Memory
