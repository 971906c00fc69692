import Mathlib.Tactic
import SysProg.Lib.Rows
import SysProg.Memory.PageRows

/-!
# The direct allocator of `task5-memory/src/direct_allocator.c`

Large allocations get their own pages. A table is a page with 255 entries, linked to
the next table; an entry with null `pages` is free.

* `DirectHeap.Allocated heap p size` — an entry records the mapping at `p`;
* `directAllocate_post`, `directDeallocate_spec`, `directReallocate_spec` — how the
  mappings change; a request for pages may fail.
-/

namespace SysProg.Memory

open ByteMemory Rows

@[simp] def sizeofDirectAllocator : ℕ := 8
@[simp] def sizeofDirectAllocation : ℕ := 16

/-- `CAPACITY`: entries per table. -/
def directCapacity : ℕ :=
  (pageSize - sizeofDirectAllocator) / sizeofDirectAllocation

/-- `struct DirectAllocation`. -/
structure DirectAllocation where
  size : ℕ
  pages : ℕ
deriving DecidableEq, Repr

/-- `struct DirectAllocator` with the entries behind it. The field `next` is the order
of the list the table stands in. -/
abbrev DirectTable := Row DirectAllocation directCapacity

/-- A table on a zeroed page. -/
def emptyTable (base : ℕ) : DirectTable :=
  emptyRow ⟨0, 0⟩ base

/-- The tables in the order of their `next` pointers, and the page requests so far. -/
structure DirectHeap where
  tables : List DirectTable
  os : List OsEvent

/-- `direct_allocator`: the first table is created at the first use. -/
def initialTable (kernel : Kernel) (heap : DirectHeap) : DirectHeap :=
  if heap.tables = [] then
    let (page, os) := requestPage kernel heap.os pageSize
    if page = 0 then { heap with os := os } else ⟨[emptyTable page], os⟩
  else heap

/-- Map pages for an entry. A failed request leaves the entry free. -/
def DirectHeap.fill (kernel : Kernel) (heap : DirectHeap) (t i size : ℕ) : ℕ × DirectHeap :=
  let (page, os) := requestPage kernel heap.os size
  (page, ⟨setCell heap.tables t i ⟨size, page⟩, os⟩)

/-- `direct_allocator_allocate`: the pointer, `0` for null. When all tables are full the
first entry of a new table is used. With no page for the first table a null pointer is
followed, which is `none`. -/
def directAllocatorAllocate (kernel : Kernel) (heap : DirectHeap) (size : ℕ) :
    Option (ℕ × DirectHeap) :=
  let heap := initialTable kernel heap
  if heap.tables = [] then none
  else
    match find (fun e => e.pages = 0) heap.tables with
    | some (t, i) => some (heap.fill kernel t i size)
    | none =>
        let (page, os) := requestPage kernel heap.os pageSize
        if page = 0 then some (0, { heap with os := os })
        else
          let grown : DirectHeap := ⟨heap.tables ++ [emptyTable page], os⟩
          some (grown.fill kernel heap.tables.length 0 size)

/-- `direct_allocator_deallocate`: false if no entry has these pages. -/
def directAllocatorDeallocate (kernel : Kernel) (heap : DirectHeap) (pointer : ℕ) :
    Option (Bool × DirectHeap) := do
  let heap := initialTable kernel heap
  match find (fun e => e.pages = pointer) heap.tables with
  | none => return (false, heap)
  | some (t, i) =>
      let e ← cell? heap.tables t i
      return (true, ⟨setCell heap.tables t i { e with pages := 0 },
        releasePage heap.os e.pages e.size⟩)

/-- What `direct_allocator_reallocate` leaves behind: the pointer it returns, `0` for null,
the tables and the copies it made. -/
structure DirectReallocated where
  pointer : ℕ
  heap : DirectHeap
  copies : List Copy

/-- `direct_allocator_reallocate`. -/
def directAllocatorReallocate (kernel : Kernel) (heap : DirectHeap) (pointer size : ℕ) :
    Option DirectReallocated := do
  let heap := initialTable kernel heap
  match find (fun e => e.pages = pointer) heap.tables with
  | none => return ⟨0, heap, []⟩
  | some (t, i) =>
      let e ← cell? heap.tables t i
      if e.size ≥ size then
        -- the size difference is not measurable in pages
        if e.size - size < pageSize then return ⟨pointer, heap, []⟩
        let releaseStart := alignUp size pageSize
        return ⟨e.pages, ⟨setCell heap.tables t i { e with size := size },
          releasePage heap.os (e.pages + releaseStart) (e.size - releaseStart)⟩, []⟩
      else
        let (insertion, os) := requestPage kernel heap.os size
        if insertion = 0 then return ⟨0, { heap with os := os }, []⟩
        return ⟨insertion, ⟨setCell heap.tables t i ⟨size, insertion⟩,
          releasePage os e.pages e.size⟩, [⟨insertion, e.pages, e.size⟩]⟩

/-! ## The mappings -/

/-- The mapping of an entry. -/
def entryRange (e : DirectAllocation) : Option Range :=
  if e.pages = 0 then none else some ⟨e.pages, e.size⟩

/-- The mappings of the direct allocator: the pages of the tables and of the entries. -/
abbrev directRegion (tables : List DirectTable) : RowRegion → Option Range :=
  rowRegion entryRange tables

/-- An entry records a mapping of `size` bytes at `p`. -/
def DirectHeap.Allocated (heap : DirectHeap) (p size : ℕ) : Prop :=
  p ≠ 0 ∧ ∃ t i, cell? heap.tables t i = some ⟨size, p⟩

/-- No recorded mapping is empty. -/
def DirectOk (heap : DirectHeap) : Prop :=
  ∀ p size, heap.Allocated p size → 0 < size

variable {kernel : Kernel} {heap heap' heap₁ : DirectHeap} {p q size m t i : ℕ} {os : List OsEvent}
  {e : DirectAllocation}

theorem directRegion_entry (ha : cell? heap.tables t i = some ⟨size, p⟩) (hp : p ≠ 0) :
    directRegion heap.tables (.cell t i) = some ⟨p, size⟩ :=
  rowRegion_cell ha (if_neg hp)

/-- A mapping has its own first byte. -/
theorem has_base (p : ℕ) (hsize : 0 < size) : Range.Has ⟨p, size⟩ p :=
  ⟨le_rfl, Nat.lt_add_of_pos_right (pageExtent_pos hsize)⟩

theorem DirectHeap.Allocated.mapped (h : heap.Allocated p size) (hok : DirectOk heap)
    (hr : RegionsOk (directRegion heap.tables) heap.os) : Mapped heap.os p := by
  have hsize := hok p size h
  rcases h with ⟨hp, t, i, he⟩
  exact hr.mapped _ _ p (directRegion_entry he hp) (has_base p hsize)

/-- The heap, or the heap with a new table at its end. -/
abbrev TablesOpened (kernel : Kernel) (heap heap₁ : DirectHeap) : Prop :=
  RowsOpened kernel ⟨0, 0⟩ heap.tables heap.os heap₁.tables heap₁.os

theorem TablesOpened.allocated (h : TablesOpened kernel heap heap₁) :
    heap₁.Allocated p size ↔ heap.Allocated p size := by
  constructor
  · intro hall
    rcases hall with ⟨hp, t, i, he⟩
    rcases h.cell_cases he with hold | hzero
    · exact ⟨hp, t, i, hold⟩
    · -- a zeroed entry records nothing
      simp only [DirectAllocation.mk.injEq] at hzero
      exact absurd hzero.2 hp
  · intro hall
    rcases hall with ⟨hp, t, i, he⟩
    exact ⟨hp, t, i, h.cell_old he⟩

theorem TablesOpened.ok (h : TablesOpened kernel heap heap₁) (hok : DirectOk heap) :
    DirectOk heap₁ := by
  intro p size hall
  exact hok p size (TablesOpened.allocated h |>.mp hall)

theorem initialTable_opened (kernel : Kernel) (heap : DirectHeap) :
    TablesOpened kernel heap (initialTable kernel heap) := by
  rcases heap with ⟨tables, os⟩
  unfold initialTable
  by_cases hnil : tables = []
  · subst hnil
    by_cases hpage : kernel.mmap os pageSize = 0
    · simp only [if_true, requestPage, if_pos hpage]
      exact .refused _ hpage
    · simp only [if_true, requestPage, if_neg hpage]
      exact .fresh _ rfl hpage
  · simp only [hnil, if_false]
    exact .same

theorem initialTable_nonempty (hkernel : kernel.Succeeds) (heap : DirectHeap) :
    (initialTable kernel heap).tables ≠ [] := by
  unfold initialTable
  by_cases hnil : heap.tables = []
  · have hpage : kernel.mmap heap.os pageSize ≠ 0 := hkernel _ _
    simp only [hnil, if_true, requestPage, if_neg hpage]
    simp
  · simp only [hnil, if_false]
    exact hnil

/-! ## Allocation -/

/-- The outcome of `direct_allocator_allocate`: the pointer and the heap after it. -/
structure DirectAllocated (kernel : Kernel) (heap : DirectHeap) (size : ℕ) (r : ℕ × DirectHeap) :
    Prop where
  ok : DirectOk r.2
  grown : Grown kernel (directRegion heap.tables) heap.os (directRegion r.2.tables) r.2.os
  nonzero : r.1 ≠ 0
  allocated : ∀ q m, r.2.Allocated q m ↔ heap.Allocated q m ∨ q = r.1 ∧ m = size
  fresh : ∀ m, ¬ heap.Allocated r.1 m
  unmapped : ∀ x, Range.Has ⟨r.1, size⟩ x → ¬ Mapped heap.os x

/-- A mapping is recorded in an entry other than `i` of table `t`. -/
def DirectHeap.Elsewhere (heap : DirectHeap) (t i q m : ℕ) : Prop :=
  q ≠ 0 ∧ ∃ k j, ¬ (k = t ∧ j = i) ∧ cell? heap.tables k j = some ⟨m, q⟩

/-- After an entry has been set, it and all other entries are recorded. -/
theorem allocated_writeEntry {x : DirectAllocation} (he : cell? heap.tables t i = some e) :
    DirectHeap.Allocated ⟨setCell heap.tables t i x, os⟩ q m ↔
      heap.Elsewhere t i q m ∨ q ≠ 0 ∧ x = ⟨m, q⟩ := by
  constructor
  · intro hall
    rcases hall with ⟨hq, k, j, hx⟩
    rw [cell?_setCell he] at hx
    split at hx
    · exact .inr ⟨hq, Option.some.inj hx⟩
    · rename_i hkj
      exact .inl ⟨hq, k, j, hkj, hx⟩
  · intro hall
    rcases hall with ⟨hq, k, j, hkj, hx⟩ | ⟨hq, rfl⟩
    · exact ⟨hq, k, j, by rw [cell?_setCell he, if_neg hkj]; exact hx⟩
    · exact ⟨hq, t, i, by rw [cell?_setCell he, if_pos ⟨rfl, rfl⟩]⟩

/-- A free entry records nothing. -/
theorem elsewhere_of_free (he : cell? heap.tables t i = some e) (hfree : e.pages = 0) :
    heap.Elsewhere t i q m ↔ heap.Allocated q m := by
  constructor
  · intro helse
    rcases helse with ⟨hq, k, j, -, hx⟩
    exact ⟨hq, k, j, hx⟩
  · intro hall
    rcases hall with ⟨hq, k, j, hx⟩
    refine ⟨hq, k, j, ?_, hx⟩
    intro hkj
    rcases hkj with ⟨rfl, rfl⟩
    rcases Option.some.inj (hx.symm.trans he) with rfl
    exact hq hfree

/-- Setting a free entry records one more mapping. -/
theorem allocated_setEntry (he : cell? heap.tables t i = some e) (hfree : e.pages = 0)
    (hp : p ≠ 0) : DirectHeap.Allocated ⟨setCell heap.tables t i ⟨size, p⟩, os⟩ q m ↔
      heap.Allocated q m ∨ q = p ∧ m = size := by
  rw [allocated_writeEntry he, elsewhere_of_free he hfree]
  refine or_congr Iff.rfl ?_
  simp only [DirectAllocation.mk.injEq]
  constructor
  · intro hnew
    exact ⟨hnew.2.2.symm, hnew.2.1.symm⟩
  · intro hnew
    rcases hnew with ⟨rfl, rfl⟩
    exact ⟨hp, rfl, rfl⟩

/-- `direct_allocator_allocate` returned null: a page request failed, and no mapping is
recorded that was not. -/
structure DirectRefused (kernel : Kernel) (heap : DirectHeap) (r : ℕ × DirectHeap) : Prop where
  null : r.1 = 0
  ok : DirectOk r.2
  grown : Grown kernel (directRegion heap.tables) heap.os (directRegion r.2.tables) r.2.os
  allocated : ∀ q m, r.2.Allocated q m ↔ heap.Allocated q m
  cause : ¬ kernel.Succeeds

/-- An entry that gets a size but no pages records nothing. -/
theorem allocated_clearEntry (he : cell? heap.tables t i = some e) :
    DirectHeap.Allocated ⟨setCell heap.tables t i ⟨size, 0⟩, os⟩ q m ↔ heap.Elsewhere t i q m := by
  rw [allocated_writeEntry he]
  refine or_iff_left ?_
  intro hnew
  simp only [DirectAllocation.mk.injEq] at hnew
  exact hnew.1 hnew.2.2.symm

/-- A free entry that gets a size but no pages is still free. -/
theorem allocated_sizeEntry (he : cell? heap.tables t i = some e) (hfree : e.pages = 0) :
    DirectHeap.Allocated ⟨setCell heap.tables t i ⟨size, 0⟩, os⟩ q m ↔ heap.Allocated q m := by
  rw [allocated_clearEntry he, elsewhere_of_free he hfree]

section Fill

variable (hok : DirectOk heap) (hr : RegionsOk (directRegion heap.tables) heap.os)
  (hopen : TablesOpened kernel heap heap₁) (he : cell? heap₁.tables t i = some e)
  (hfree : e.pages = 0)
include hok hr hopen he hfree

theorem fill_allocated (hsize : 0 < size) (hpage : kernel.mmap heap₁.os size ≠ 0) :
    DirectAllocated kernel heap size (heap₁.fill kernel t i size) := by
  have hgrown : Grown kernel (directRegion heap.tables) heap.os (directRegion heap₁.tables) heap₁.os :=
    hopen.grown rfl
  have hfill : heap₁.fill kernel t i size = (kernel.mmap heap₁.os size,
      ⟨setCell heap₁.tables t i ⟨size, kernel.mmap heap₁.os size⟩,
        .map ⟨kernel.mmap heap₁.os size, size⟩ :: heap₁.os⟩) := by
    simp only [DirectHeap.fill, requestPage, if_neg hpage]
  have hall : ∀ q m, (heap₁.fill kernel t i size).2.Allocated q m ↔
      heap.Allocated q m ∨ q = kernel.mmap heap₁.os size ∧ m = size := by
    intro q m
    rw [← TablesOpened.allocated hopen, hfill]
    exact allocated_setEntry he hfree hpage
  have hunmapped : ∀ x, Range.Has ⟨kernel.mmap heap₁.os size, size⟩ x → ¬ Mapped heap.os x := by
    intro x hx hmapped
    exact kernel.fresh heap₁.os size x hpage hx (hgrown.mapped hmapped)
  refine ⟨?_, ?_, by rw [hfill]; exact hpage, by rw [hfill] at hall ⊢; exact hall, ?_,
    by rw [hfill]; exact hunmapped⟩
  · intro q m hq
    rcases (hall q m).mp hq with hold | ⟨-, rfl⟩
    · exact hok q m hold
    · exact hsize
  · rw [hfill]
    simp only [directRegion, rowRegion_setCell he]
    -- the entry owns the pages it gets
    have hown : entryRange ⟨size, kernel.mmap heap₁.os size⟩ =
        some ⟨kernel.mmap heap₁.os size, size⟩ := if_neg hpage
    rw [hown]
    exact hgrown.add _ _ hpage
  · -- a recorded mapping was mapped before, the new one was not
    intro m hm
    rw [hfill] at hm
    exact hunmapped _ (has_base _ hsize) (hm.mapped hok hr)

omit hr in
/-- No pages for the entry: its size is set, but it stays free. -/
theorem fill_refused (hpage : kernel.mmap heap₁.os size = 0) :
    DirectRefused kernel heap (heap₁.fill kernel t i size) := by
  have hfill : heap₁.fill kernel t i size =
      (0, ⟨setCell heap₁.tables t i ⟨size, 0⟩, .refuse size :: heap₁.os⟩) := by
    simp only [DirectHeap.fill, requestPage, hpage, if_true]
  have hall : ∀ q m, (heap₁.fill kernel t i size).2.Allocated q m ↔ heap.Allocated q m := by
    intro q m
    rw [← TablesOpened.allocated hopen, hfill]
    exact allocated_sizeEntry he hfree
  refine ⟨by rw [hfill], fun q m hq => hok q m ((hall q m).mp hq), ?_, hall,
    fun hkernel => hkernel _ _ hpage⟩
  rw [hfill]
  have hsame : directRegion (setCell heap₁.tables t i ⟨size, 0⟩) = directRegion heap₁.tables :=
    rowRegion_setCell_same he (by simp [entryRange, hfree])
  rw [hsame]
  exact .refuse size (hopen.grown rfl) hpage

theorem fill_post (hsize : 0 < size) :
    DirectAllocated kernel heap size (heap₁.fill kernel t i size) ∨
      DirectRefused kernel heap (heap₁.fill kernel t i size) := by
  by_cases hpage : kernel.mmap heap₁.os size = 0
  · exact .inr (fill_refused hok hopen he hfree hpage)
  · exact .inl (fill_allocated hok hr hopen he hfree hsize hpage)

end Fill

/-- When all tables are full the first one was not created by the call. -/
theorem initialTable_of_full (hne : (initialTable kernel heap).tables ≠ [])
    (hfind : find (fun e => decide (e.pages = 0)) (initialTable kernel heap).tables = none) :
    initialTable kernel heap = heap := by
  have hcapacity : 0 < directCapacity := by decide
  have hzero : ∃ a, cell? (initialTable kernel heap).tables 0 0 = some a :=
    exists_cell? (List.length_pos_iff.mpr hne) hcapacity
  rcases hzero with ⟨a, ha⟩
  have hfull := find_none hfind ha
  rcases (initialTable_opened kernel heap).cell_cases ha with hold | rfl
  · exact if_neg (ne_nil_of_cell? hold)
  · -- the entries of a new table are free
    cases hfull

/-- What `direct_allocator_allocate` does: it fills a free entry, maybe of a new table, or there
is no page for a new table. -/
theorem directAllocate_cases {r : ℕ × DirectHeap}
    (hrun : directAllocatorAllocate kernel heap size = some r) :
    (∃ heap₁ t i e, TablesOpened kernel heap heap₁ ∧ cell? heap₁.tables t i = some e ∧
        e.pages = 0 ∧ r = heap₁.fill kernel t i size) ∨
      kernel.mmap heap.os pageSize = 0 ∧ r = (0, { heap with os := .refuse pageSize :: heap.os }) := by
  unfold directAllocatorAllocate at hrun
  simp only at hrun
  split at hrun
  · cases hrun
  · rename_i hne
    cases hfind : find (fun e => decide (e.pages = 0)) (initialTable kernel heap).tables with
    | some x =>
      rcases find_some (t := x.1) (i := x.2) hfind with ⟨e, he, hfree⟩
      simp only [hfind, Option.some.injEq] at hrun
      exact .inl ⟨_, x.1, x.2, e, initialTable_opened kernel heap, he, of_decide_eq_true hfree,
        hrun.symm⟩
    | none =>
      -- all entries are in use: a new table
      rw [initialTable_of_full hne hfind] at hrun hfind
      by_cases hpage : kernel.mmap heap.os pageSize = 0
      · simp only [hfind, requestPage, hpage, if_true, Option.some.injEq] at hrun
        exact .inr ⟨hpage, hrun.symm⟩
      · simp only [hfind, requestPage, if_neg hpage, Option.some.injEq] at hrun
        have hcapacity : 0 < directCapacity := by decide
        have hcell : cell? (heap.tables ++ [emptyTable (kernel.mmap heap.os pageSize)])
            heap.tables.length 0 = some ⟨0, 0⟩ := by
          rw [cell?_append, if_pos rfl]
          simp [emptyTable, emptyRow, hcapacity]
        exact .inl ⟨_, _, _, _, .fresh _ rfl hpage, hcell, rfl, hrun.symm⟩

/-- Whatever `direct_allocator_allocate` returns is a mapping that was not recorded before,
or null. -/
theorem directAllocate_post (hok : DirectOk heap)
    (hr : RegionsOk (directRegion heap.tables) heap.os) (hsize : 0 < size) {r : ℕ × DirectHeap}
    (hrun : directAllocatorAllocate kernel heap size = some r) :
    DirectAllocated kernel heap size r ∨ DirectRefused kernel heap r := by
  rcases directAllocate_cases hrun with ⟨heap₁, t, i, e, hopen, he, hfree, rfl⟩ | ⟨hpage, rfl⟩
  · exact fill_post hok hr hopen he hfree hsize
  · exact .inr ⟨rfl, hok, .refuse _ .refl hpage, fun _ _ => Iff.rfl,
      fun hkernel => hkernel _ _ hpage⟩

/-- Every page that is mapped is one of a table or of an entry. -/
theorem directAllocate_cover {r : ℕ × DirectHeap}
    (hc : RegionsCover (directRegion heap.tables) heap.os)
    (hrun : directAllocatorAllocate kernel heap size = some r) :
    RegionsCover (directRegion r.2.tables) r.2.os := by
  rcases directAllocate_cases hrun with ⟨heap₁, t, i, e, hopen, he, hfree, rfl⟩ | ⟨-, rfl⟩
  · have hc₁ : RegionsCover (directRegion heap₁.tables) heap₁.os := hopen.cover rfl hc
    have hnone : entryRange e = none := if_pos hfree
    by_cases hpage : kernel.mmap heap₁.os size = 0
    · simp only [DirectHeap.fill, requestPage, hpage, if_true]
      have hsame : directRegion (setCell heap₁.tables t i ⟨size, 0⟩) = directRegion heap₁.tables :=
        rowRegion_setCell_same he hnone.symm
      rw [hsame]
      exact hc₁
    · simp only [DirectHeap.fill, requestPage, if_neg hpage]
      have hown : entryRange ⟨size, kernel.mmap heap₁.os size⟩ =
          some ⟨kernel.mmap heap₁.os size, size⟩ := if_neg hpage
      rw [directRegion, rowRegion_setCell he, hown]
      exact hc₁.add (by simp [rowRegion, he, hnone])
  · exact hc

/-- With memory for it `direct_allocator_allocate` returns a mapping. -/
theorem directAllocate_spec (hkernel : kernel.Succeeds) (hok : DirectOk heap)
    (hr : RegionsOk (directRegion heap.tables) heap.os) (hsize : 0 < size) :
    ∃ r, directAllocatorAllocate kernel heap size = some r ∧ DirectAllocated kernel heap size r := by
  have hends : ∃ r, directAllocatorAllocate kernel heap size = some r := by
    unfold directAllocatorAllocate
    simp only [initialTable_nonempty hkernel heap, if_false]
    cases find (fun e => decide (e.pages = 0)) (initialTable kernel heap).tables with
    | some => exact ⟨_, rfl⟩
    | none =>
      simp only
      split
      · exact ⟨_, rfl⟩
      · exact ⟨_, rfl⟩
  rcases hends with ⟨r, hrun⟩
  rcases directAllocate_post hok hr hsize hrun with hpost | hpost
  · exact ⟨r, hrun, hpost⟩
  · exact absurd hkernel hpost.cause

/-! ## Deallocation -/

section Entries

variable (hok : DirectOk heap) (hr : RegionsOk (directRegion heap.tables) heap.os)
include hok hr

/-- A mapping is recorded once. -/
theorem entry_unique {k j : ℕ} (hp : p ≠ 0) (he : cell? heap.tables t i = some ⟨size, p⟩)
    (hx : cell? heap.tables k j = some ⟨m, p⟩) : k = t ∧ j = i := by
  have hm := hok p m ⟨hp, k, j, hx⟩
  have hsize := hok p size ⟨hp, t, i, he⟩
  have heq := hr.apart _ _ _ _ p (directRegion_entry hx hp) (directRegion_entry he hp)
    (has_base p hm) (has_base p hsize)
  simpa using heq

theorem DirectHeap.Allocated.disjoint (h : heap.Allocated p size) (h' : heap.Allocated q m)
    (hne : p ≠ q) : p + pageExtent size ≤ q ∨ q + pageExtent m ≤ p := by
  have hsize := pageExtent_pos (hok p size h)
  have hm := pageExtent_pos (hok q m h')
  rcases h with ⟨hp, t, i, he⟩
  rcases h' with ⟨hq, k, j, hx⟩
  refine hr.disjoint (directRegion_entry he hp) (directRegion_entry hx hq) ?_
    ⟨le_rfl, le_rfl⟩ ⟨le_rfl, le_rfl⟩ hsize hm
  intro heq
  simp only [RowRegion.cell.injEq] at heq
  -- one entry has one mapping
  rcases heq with ⟨rfl, rfl⟩
  have hsame := Option.some.inj (he.symm.trans hx)
  simp only [DirectAllocation.mk.injEq] at hsame
  exact hne hsame.2

/-- What is recorded after an entry has been freed. -/
theorem allocated_freeEntry (hp : p ≠ 0) (he : cell? heap.tables t i = some ⟨size, p⟩) :
    DirectHeap.Allocated ⟨setCell heap.tables t i ⟨size, 0⟩, os⟩ q m ↔
      heap.Allocated q m ∧ q ≠ p := by
  rw [allocated_clearEntry he]
  constructor
  · intro helse
    rcases helse with ⟨hq, k, j, hkj, hx⟩
    refine ⟨⟨hq, k, j, hx⟩, ?_⟩
    rintro rfl
    exact hkj (entry_unique hok hr hp he hx)
  · intro hall
    rcases hall with ⟨⟨hq, k, j, hx⟩, hne⟩
    refine ⟨hq, k, j, ?_, hx⟩
    intro hkj
    rcases hkj with ⟨rfl, rfl⟩
    have heq := Option.some.inj (hx.symm.trans he)
    simp only [DirectAllocation.mk.injEq] at heq
    exact hne heq.2

/-- The entry of a recorded mapping is found. -/
theorem find_allocated (kernel : Kernel) (hp : p ≠ 0)
    (he : cell? heap.tables t i = some ⟨size, p⟩) :
    initialTable kernel heap = heap ∧
      find (fun e => decide (e.pages = p)) heap.tables = some (t, i) := by
  constructor
  · exact if_neg (ne_nil_of_cell? he)
  · refine find_unique he (by simp) ?_
    intro k j x hx hpages
    rcases x with ⟨m, q⟩
    obtain rfl : q = p := of_decide_eq_true hpages
    exact entry_unique hok hr hp he hx

/-- `direct_allocator_deallocate` unmaps a recorded mapping. -/
theorem directDeallocate_spec (kernel : Kernel) (hall : heap.Allocated p size) :
    ∃ t i heap', directAllocatorDeallocate kernel heap p = some (true, heap') ∧ DirectOk heap' ∧
      directRegion heap.tables (.cell t i) = some ⟨p, size⟩ ∧
      directRegion heap'.tables = Function.update (directRegion heap.tables) (.cell t i) none ∧
      heap'.os = .unmap ⟨p, size⟩ :: heap.os ∧
      ∀ q m, heap'.Allocated q m ↔ heap.Allocated q m ∧ q ≠ p := by
  rcases hall with ⟨hp, t, i, he⟩
  rcases find_allocated hok hr kernel hp he with ⟨hinit, hfind⟩
  let heap' : DirectHeap := ⟨setCell heap.tables t i ⟨size, 0⟩, .unmap ⟨p, size⟩ :: heap.os⟩
  have hallocated : ∀ q m, heap'.Allocated q m ↔ heap.Allocated q m ∧ q ≠ p :=
    fun q m => allocated_freeEntry hok hr hp he
  refine ⟨t, i, heap', ?_, ?_, directRegion_entry he hp, ?_, rfl, hallocated⟩
  · unfold directAllocatorDeallocate
    simp only [hinit, hfind, he, Option.bind_eq_bind, Option.bind_some]
    rfl
  · intro q m hq
    exact hok q m ((hallocated q m).mp hq).1
  · exact rowRegion_setCell he

end Entries

/-- A pointer to none of the mappings is not found. -/
theorem find_foreign (kernel : Kernel) (hp : p ≠ 0) (hall : ∀ size, ¬ heap.Allocated p size) :
    find (fun e => decide (e.pages = p)) (initialTable kernel heap).tables = none := by
  cases hfind : find (fun e => decide (e.pages = p)) (initialTable kernel heap).tables with
  | none => rfl
  | some x =>
    exfalso
    rcases find_some (t := x.1) (i := x.2) hfind with ⟨e, he, hpages⟩
    rcases e with ⟨m, q⟩
    obtain rfl : q = p := of_decide_eq_true hpages
    exact hall m (TablesOpened.allocated (initialTable_opened kernel heap) |>.mp ⟨hp, x.1, x.2, he⟩)

theorem directDeallocate_foreign (kernel : Kernel) (hp : p ≠ 0)
    (hall : ∀ size, ¬ heap.Allocated p size) :
    directAllocatorDeallocate kernel heap p = some (false, initialTable kernel heap) := by
  unfold directAllocatorDeallocate
  simp only [find_foreign kernel hp hall]
  rfl

/-! ## Reallocation -/

theorem directReallocate_foreign (kernel : Kernel) (hp : p ≠ 0)
    (hall : ∀ size, ¬ heap.Allocated p size) :
    directAllocatorReallocate kernel heap p size = some ⟨0, initialTable kernel heap, []⟩ := by
  unfold directAllocatorReallocate
  simp only [find_foreign kernel hp hall]
  rfl

/-- What the entry `(t, i)` of the mapping at `p` becomes. -/
structure DirectMoved (heap : DirectHeap) (t i p size q : ℕ) (heap' : DirectHeap) : Prop where
  ok : DirectOk heap'
  region : directRegion heap'.tables =
    Function.update (directRegion heap.tables) (.cell t i) (some ⟨q, size⟩)
  allocated : ∀ x m, heap'.Allocated x m ↔ heap.Allocated x m ∧ x ≠ p ∨ x = q ∧ m = size

/-- What `direct_allocator_reallocate` does with a mapping of `old` bytes: nothing that
could be measured in pages, or it releases pages at the end, or it moves the data to new
pages, if there are any. -/
inductive DirectReallocatePost (kernel : Kernel) (heap : DirectHeap) (p old size : ℕ) :
    DirectReallocated → Prop where
  | same : size ≤ old → old < size + pageSize →
      DirectReallocatePost kernel heap p old size ⟨p, heap, []⟩
  | shrunk (t i : ℕ) (heap' : DirectHeap) : size + pageSize ≤ old →
      directRegion heap.tables (.cell t i) = some ⟨p, old⟩ → DirectMoved heap t i p size p heap' →
      heap'.os = .unmap ⟨p + pageExtent size, old - pageExtent size⟩ :: heap.os →
      DirectReallocatePost kernel heap p old size ⟨p, heap', []⟩
  | grown (t i q : ℕ) (heap' : DirectHeap) : old < size → q = kernel.mmap heap.os size → q ≠ 0 →
      directRegion heap.tables (.cell t i) = some ⟨p, old⟩ → DirectMoved heap t i p size q heap' →
      heap'.os = .unmap ⟨p, old⟩ :: .map ⟨q, size⟩ :: heap.os →
      DirectReallocatePost kernel heap p old size ⟨q, heap', [⟨q, p, old⟩]⟩
  | refused : old < size → kernel.mmap heap.os size = 0 →
      DirectReallocatePost kernel heap p old size ⟨0, { heap with os := .refuse size :: heap.os }, []⟩

section Reallocate

variable (hok : DirectOk heap) (hr : RegionsOk (directRegion heap.tables) heap.os)
include hok hr

/-- The entry of the mapping at `p` gets other pages. -/
theorem directMoved_setEntry (hp : p ≠ 0) (he : cell? heap.tables t i = some ⟨m, p⟩)
    (hq : q ≠ 0) (hsize : 0 < size) :
    DirectMoved heap t i p size q ⟨setCell heap.tables t i ⟨size, q⟩, os⟩ := by
  have hall : ∀ x k, DirectHeap.Allocated ⟨setCell heap.tables t i ⟨size, q⟩, os⟩ x k ↔
      heap.Allocated x k ∧ x ≠ p ∨ x = q ∧ k = size := by
    intro x k
    -- first the entry is freed, then it gets the pages
    let freed : DirectHeap := ⟨setCell heap.tables t i ⟨m, 0⟩, os⟩
    have hcell : cell? freed.tables t i = some ⟨m, 0⟩ := by simp [freed, cell?_setCell he]
    have hset : DirectHeap.Allocated ⟨setCell freed.tables t i ⟨size, q⟩, os⟩ x k ↔
        freed.Allocated x k ∨ x = q ∧ k = size := allocated_setEntry hcell rfl hq
    rw [setCell_setCell, allocated_freeEntry hok hr hp he] at hset
    exact hset
  refine ⟨?_, ?_, hall⟩
  · intro x k hx
    rcases (hall x k).mp hx with hold | ⟨-, rfl⟩
    · exact hok x k hold.1
    · exact hsize
  · rw [directRegion, rowRegion_setCell he]
    have hown : entryRange ⟨size, q⟩ = some ⟨q, size⟩ := if_neg hq
    rw [hown]

/-- `direct_allocator_reallocate` returns for every mapping that is recorded. -/
theorem directReallocate_spec (kernel : Kernel) {old : ℕ} (hall : heap.Allocated p old)
    (hsize : 0 < size) :
    ∃ r, directAllocatorReallocate kernel heap p size = some r ∧
      DirectReallocatePost kernel heap p old size r := by
  rcases hall with ⟨hp, t, i, he⟩
  rcases find_allocated hok hr kernel hp he with ⟨hinit, hfind⟩
  have hregion := directRegion_entry he hp
  unfold directAllocatorReallocate
  simp only [hinit, hfind, he, Option.bind_eq_bind, Option.bind_some, requestPage]
  rcases Nat.lt_or_ge old size with hgrow | hfit
  · -- more pages: the data moves
    rw [if_neg (not_le.mpr hgrow)]
    by_cases hpage : kernel.mmap heap.os size = 0
    · simp only [hpage, if_true]
      exact ⟨_, rfl, .refused hgrow hpage⟩
    · simp only [if_neg hpage]
      exact ⟨_, rfl, .grown t i _ _ hgrow rfl hpage hregion
        (directMoved_setEntry hok hr hp he hpage hsize) rfl⟩
  · rw [if_pos hfit]
    by_cases hclose : old - size < pageSize
    · rw [if_pos hclose]
      exact ⟨_, rfl, .same hfit (by omega)⟩
    · -- the pages behind the new size go
      rw [if_neg hclose]
      exact ⟨_, rfl, .shrunk t i _ (by omega) hregion
        (directMoved_setEntry hok hr hp he hp hsize) rfl⟩

end Reallocate

end SysProg.Memory
