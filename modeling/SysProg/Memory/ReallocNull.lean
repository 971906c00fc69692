import Mathlib.Tactic
import SysProg.Memory.ReallocData

/-!
# `realloc_impl` of a null pointer

Null is tested nowhere. It lies in no tree and in no arena, but it is what a free entry of the
direct allocator has for its pages. A free entry that was never used has size zero and gets
new pages, as for `malloc_impl`; in one that was freed the size of the old mapping is left.

* `NullServed` — the call does what `malloc_impl` does;
* `freshEntry` — the first free entry was never used;
* `realloc_null_iff` — the one holds exactly when the other does.
-/

namespace SysProg.Memory

open ByteMemory Rows Spans Lts

variable {kernel kernel' : Kernel} {s : ClientState} {heap heap₁ : Heap} {size t i : ℕ}
  {history : List (ClientOp × ClientState)} {r : HeapReallocated}

/-- The address lies on a page that the allocators have mapped and not released. -/
def Heap.Owns (heap : Heap) (a : ℕ) : Prop :=
  ∃ j range, heapRegion heap j = some range ∧ range.Has a

/-- A new block for the client, and nothing else: what is read or unmapped belongs to the
allocators, and the live blocks are as they were. -/
structure NullServed (s : ClientState) (size : ℕ) (r : HeapReallocated) : Prop where
  nonnull : r.pointer ≠ 0
  block : ∃ y : Held, y.pointer = r.pointer ∧ r.heap.Allocated y.owner y.pointer y.units ∧
    size ≤ y.usable ∧ ∀ z ∈ s.live, y.Apart z
  reads : ∀ c ∈ r.copies, ∀ j, j < c.length → s.heap.Owns (c.source + j)
  unmaps : ∃ events, r.heap.os = events ++ s.heap.os ∧
    ∀ range, .unmap range ∈ events → ∀ a, range.Has a → s.heap.Owns a
  others : ∀ z ∈ s.live, Unchanged s.heap r z

/-- The entry of the direct allocator that a null pointer leads to was never used, or there is
no table yet. -/
def freshEntry (heap : Heap) : Bool :=
  match find (fun e => decide (e.pages = 0)) heap.tables with
  | some (t, i) => (cell? heap.tables t i).any fun e => e.size = 0
  | none => heap.tables.isEmpty

/-! ## The way to the direct allocator -/

/-- A null pointer lies in no tree. -/
theorem null_owned (heap : BuddyHeap) :
    ∀ b i a, cell? heap.blocks b i = some a → a.owns 0 = false := by
  intro b i a _
  by_contra howns
  rcases owns_iff.mp (by simpa using howns) with ⟨hpage, hle, -⟩
  simp only at hle
  omega

/-- The allocators have not mapped address zero. -/
theorem not_owns_zero (h : HeapOk heap) : ¬ heap.Owns 0 := by
  rintro ⟨j, range, hj, hle, -⟩
  have hne := h.regions.nonzero j range hj
  omega

/-- A null pointer lies in no arena. -/
theorem null_outside (h : HeapOk heap) : ∀ b ∈ heap.slot.bases, inArena b 0 = false := by
  intro b hb
  by_contra hin
  rcases List.mem_map.mp hb with ⟨a, ha, rfl⟩
  have hmaps : heap.Maps .slot ⟨a.base, slotAllocatorSize⟩ := ⟨a, ha, rfl⟩
  rcases HeapOk.maps_region hmaps with ⟨j, hj, -⟩
  exact not_owns_zero h ⟨j, _, hj, (has_arena _ _).mpr ((inArena_iff _ _).mp (by simpa using hin))⟩

/-- The trees and the arenas are passed by. -/
theorem reallocImpl_null (hkernel : kernel.Succeeds) (h : HeapOk heap) (size : ℕ) :
    ∃ heap₁, Passed heap heap₁ ∧ heap₁.tables = heap.tables ∧
      (∃ events, heap₁.os = events ++ heap.os ∧ ∀ range, OsEvent.unmap range ∉ events) ∧
      ∀ rounds, reallocImpl kernel rounds heap 0 size =
        (directAllocatorReallocate kernel heap₁.direct 0 size).bind fun d =>
          some ⟨d.pointer, heap₁.setDirect d.heap, d.copies⟩ := by
  have hpass := block_passes h kernel
  have hcall : ∀ rounds, reallocImpl kernel rounds heap 0 size = _ := fun rounds =>
    reallocImpl_elsewhere kernel rounds size (null_owned heap.buddy)
  have hbuddy : Grown kernel (buddyRegion heap.blocks) heap.os
      (buddyRegion (initialBlock kernel heap.buddy).blocks) (initialBlock kernel heap.buddy).os :=
    (initialBlock_opened kernel heap.buddy).grown rfl
  rcases initialArena_succeeds hkernel (heap.setBuddy (initialBlock kernel heap.buddy)).slot with
    ⟨arena, hinit⟩
  have hslot := (initialArena_opened hinit).grown
  refine ⟨(heap.setBuddy (initialBlock kernel heap.buddy)).setSlot arena,
    hpass.trans (arena_passes hpass.ok hinit), rfl, ?_, ?_⟩
  · -- the events of the two steps, none of which unmaps
    rcases hbuddy.events with ⟨before, hbefore, hno⟩
    rcases hslot.events with ⟨later, hlater, hno'⟩
    refine ⟨later ++ before, ?_, ?_⟩
    · show arena.os = _
      rw [hlater, List.append_assoc, ← hbefore]
      rfl
    · intro range hmem
      rcases List.mem_append.mp hmem with hmem | hmem
      · exact hno' range hmem
      · exact hno range hmem
  · intro rounds
    rw [hcall, reallocateElsewhere,
      slotReallocate_foreign rounds size (.inl rfl) (null_outside hpass.ok) hinit]
    rfl

/-! ## The entry -/

/-- In terms of the tables with the first one created: the entry is found and was never used. -/
theorem freshEntry_iff (hkernel : kernel.Succeeds) (heap : Heap) :
    freshEntry heap = true ↔ ∃ t i, find (fun e => decide (e.pages = 0))
        (initialTable kernel heap.direct).tables = some (t, i) ∧
      cell? (initialTable kernel heap.direct).tables t i = some ⟨0, 0⟩ := by
  by_cases hnil : heap.tables = []
  · -- all entries of a new table are as new
    have hfresh : freshEntry heap = true := by simp [freshEntry, hnil, find]
    refine ⟨fun _ => ?_, fun _ => hfresh⟩
    have hzero : ∀ t i e, cell? (initialTable kernel heap.direct).tables t i = some e →
        e = ⟨0, 0⟩ := by
      intro t i e he
      rcases (initialTable_opened kernel heap.direct).cell_cases he with hold | hzero
      · exact absurd hnil (ne_nil_of_cell? hold)
      · exact hzero
    have hcapacity : 0 < directCapacity := by decide
    have hfirst : ∃ e, cell? (initialTable kernel heap.direct).tables 0 0 = some e :=
      exists_cell? (List.length_pos_iff.mpr (initialTable_nonempty hkernel heap.direct)) hcapacity
    rcases hfirst with ⟨e, he⟩
    cases hfind : find (fun e => decide (e.pages = 0)) (initialTable kernel heap.direct).tables with
    | none =>
      have hno := find_none hfind he
      rw [hzero _ _ _ he] at hno
      cases hno
    | some x =>
      rcases find_some (t := x.1) (i := x.2) hfind with ⟨e, he, -⟩
      exact ⟨x.1, x.2, rfl, hzero _ _ _ he ▸ he⟩
  · have hinit : initialTable kernel heap.direct = heap.direct := if_neg hnil
    rw [hinit]
    show _ ↔ ∃ t i, find _ heap.tables = some (t, i) ∧ cell? heap.tables t i = some ⟨0, 0⟩
    unfold freshEntry
    cases hfind : find (fun e => decide (e.pages = 0)) heap.tables with
    | none => simp [hnil]
    | some x =>
      rcases find_some (t := x.1) (i := x.2) hfind with ⟨⟨size, pages⟩, he, hpages⟩
      obtain rfl : pages = 0 := of_decide_eq_true hpages
      simp only [he, Option.any_some, decide_eq_true_eq, Option.some.injEq]
      constructor
      · intro hsize
        exact ⟨x.1, x.2, rfl, hsize ▸ he⟩
      · intro hx
        rcases hx with ⟨t, i, rfl, hcell⟩
        have heq := Option.some.inj (he.symm.trans hcell)
        simp only [DirectAllocation.mk.injEq, and_true] at heq
        exact heq

/-- An entry that was never used gets new pages. -/
theorem directReallocate_fresh (hkernel : kernel.Succeeds) (h : HeapOk heap) (hsize : 1 ≤ size)
    (hfresh : freshEntry heap = true) :
    ∃ q part, directAllocatorReallocate kernel heap.direct 0 size =
        some ⟨q, part, [⟨q, 0, 0⟩]⟩ ∧
      Granted heap .direct q size (heap.setDirect part) ∧
      ∃ events, part.os = .unmap ⟨0, 0⟩ :: events ++ heap.os ∧
        ∀ range, OsEvent.unmap range ∉ events := by
  rcases (freshEntry_iff hkernel heap).mp hfresh with ⟨t, i, hfind, he⟩
  have hopen := initialTable_opened kernel heap.direct
  have hpass := table_passes h kernel
  generalize htable : initialTable kernel heap.direct = table at *
  have hpage : kernel.mmap table.os size ≠ 0 := hkernel _ _
  let q := kernel.mmap table.os size
  let mapped : DirectHeap := ⟨setCell table.tables t i ⟨size, q⟩, .map ⟨q, size⟩ :: table.os⟩
  let part : DirectHeap := { mapped with os := .unmap ⟨0, 0⟩ :: mapped.os }
  have hfill : table.fill kernel t i size = (q, mapped) := by
    simp only [DirectHeap.fill, requestPage, if_neg hpage]
    rfl
  have hpost : DirectAllocated kernel heap.direct size (q, mapped) := by
    rw [← hfill]
    exact fill_allocated h.direct h.directRegions hopen he rfl hsize hpage
  refine ⟨q, part, ?_, ?_, ?_⟩
  · have hlt : ¬ (0 ≥ size) := by omega
    unfold directAllocatorReallocate
    simp only [htable, hfind, he, Option.bind_eq_bind, Option.bind_some, if_neg hlt, requestPage,
      if_neg hpage]
    rfl
  · -- releasing no page changes nothing
    have hmapped := h.setDirect hpost.ok hpost.grown
    have hempty : ∀ a, ¬ Range.Has ⟨0, 0⟩ a := by
      intro a ha
      have hlt := ha.2
      simp [pageExtent, pageSize] at hlt
    have hok : HeapOk (heap.setDirect part) :=
      ⟨hmapped.regions.unmap_empty hempty, ⟨h.buddy.tree, h.buddy.unused⟩, h.tiled, h.cursor,
        hpost.ok⟩
    exact granted_of_part hok (others_setDirect _) hpost.allocated
      hpost.fresh
  · rcases hpost.grown.events with ⟨events, hevents, hno⟩
    have hevents : mapped.os = events ++ heap.os := hevents
    refine ⟨events, ?_, hno⟩
    show .unmap ⟨0, 0⟩ :: mapped.os = _
    rw [hevents]
    rfl

/-- An entry that was used before, or none: null, or data is read from address zero. -/
theorem directReallocate_stale (hkernel : kernel.Succeeds) (hstale : freshEntry heap = false)
    {d : DirectReallocated} (hrun : directAllocatorReallocate kernel heap.direct 0 size = some d) :
    d.pointer = 0 ∨ ∃ c ∈ d.copies, c.source = 0 ∧ 0 < c.length := by
  have hnot : ¬ ∃ t i, find (fun e => decide (e.pages = 0))
        (initialTable kernel heap.direct).tables = some (t, i) ∧
      cell? (initialTable kernel heap.direct).tables t i = some ⟨0, 0⟩ := by
    rw [← freshEntry_iff hkernel heap, hstale]
    simp
  unfold directAllocatorReallocate at hrun
  simp only at hrun
  cases hfind : find (fun e => decide (e.pages = 0)) (initialTable kernel heap.direct).tables with
  | none =>
    simp only [hfind] at hrun
    exact .inl (by rw [← Option.some.inj hrun])
  | some x =>
    rcases find_some (t := x.1) (i := x.2) hfind with ⟨⟨old, pages⟩, he, hpages⟩
    obtain rfl : pages = 0 := of_decide_eq_true hpages
    have hold : 0 < old := by
      by_contra hzero
      obtain rfl : old = 0 := by omega
      exact hnot ⟨x.1, x.2, hfind, he⟩
    simp only [hfind, he, Option.bind_eq_bind, Option.bind_some, requestPage] at hrun
    by_cases hfit : old ≥ size
    · -- the old size suffices: the pages of the entry are returned
      rw [if_pos hfit] at hrun
      by_cases hclose : old - size < pageSize
      · rw [if_pos hclose] at hrun
        exact .inl (by rw [← Option.some.inj hrun])
      · rw [if_neg hclose] at hrun
        exact .inl (by rw [← Option.some.inj hrun])
    · have hpage : kernel.mmap (initialTable kernel heap.direct).os size ≠ 0 := hkernel _ _
      rw [if_neg hfit] at hrun
      simp only [if_neg hpage] at hrun
      rw [← Option.some.inj hrun]
      exact .inr ⟨_, List.mem_singleton.mpr rfl, rfl, hold⟩

/-! ## The call -/

/-- New pages for the first free entry, behind what the trees and arenas did on the way. -/
theorem Granted.nullServed {q : ℕ} {part : DirectHeap} {before later : List OsEvent}
    (h : ClientInv s) (hpass : Passed s.heap heap₁)
    (hgranted : Granted heap₁ .direct q size (heap₁.setDirect part))
    (hbefore : heap₁.os = before ++ s.heap.os) (hno : ∀ range, OsEvent.unmap range ∉ before)
    (hlater : part.os = .unmap ⟨0, 0⟩ :: later ++ heap₁.os)
    (hno' : ∀ range, OsEvent.unmap range ∉ later) :
    NullServed s size ⟨q, heap₁.setDirect part, [⟨q, 0, 0⟩]⟩ := by
  have hnew := (h.pass hpass).add hgranted
  refine ⟨hgranted.ok.nonzero hgranted.new,
    ⟨⟨.direct, q, size⟩, rfl, hgranted.new, le_pageExtent size, fun z hz => hnew.head_apart hz⟩,
    ?_, ?_, ?_⟩
  · -- nothing is copied
    intro c hc j hj
    rw [List.mem_singleton.mp hc] at hj
    exact absurd hj (Nat.not_lt_zero j)
  · refine ⟨.unmap ⟨0, 0⟩ :: later ++ before, ?_, ?_⟩
    · show part.os = _
      rw [hlater, List.append_assoc, ← hbefore]
    · intro range hmem a ha
      simp only [List.cons_append, List.mem_cons, List.mem_append, OsEvent.unmap.injEq] at hmem
      rcases hmem with rfl | hmem | hmem
      · have hlt := ha.2
        simp [pageExtent, pageSize] at hlt
      · exact absurd hmem (hno' range)
      · exact absurd hmem (hno range)
  · intro z hz
    refine unchanged_of_not_writes h.ok hgranted.ok (h.allocated hz)
      (hnew.allocated (List.mem_cons_of_mem _ hz)) fun c hc j hj hwrites => ?_
    rw [List.mem_singleton.mp hc] at hwrites
    have hlt := hwrites.2
    have hle := hwrites.1
    simp only at hlt hle
    omega

/-- The state was reached with any kernel. If the requests of the call itself succeed, it
behaves as `malloc_impl` exactly when the entry was never used. -/
theorem realloc_null_iff (hr : Run (clientSystem kernel noBlocks) history s)
    (hkeeps : Steps KeepsBlocks history) (hkernel : kernel'.Succeeds)
    (hsize : 1 ≤ size) :
    (∃ r, (∀ rounds, reallocImpl kernel' rounds s.heap 0 size = some r) ∧ NullServed s size r) ↔
      freshEntry s.heap = true := by
  have hinv := client_always noBlocks_inv hr hkeeps
  rcases reallocImpl_null hkernel hinv.ok size with
    ⟨heap₁, hpass, htables, ⟨events, hevents, hno⟩, hcall⟩
  have hentry : freshEntry heap₁ = freshEntry s.heap := by
    unfold freshEntry
    rw [htables]
  constructor
  · intro hserved
    rcases hserved with ⟨r, hrun, hserved⟩
    -- an entry used before: its old size is copied from the null pointer
    by_contra hstale
    have hrun := hrun 0
    rw [hcall, Option.bind_eq_some_iff] at hrun
    rcases hrun with ⟨d, hdirect, hr⟩
    rcases Option.some.inj hr with rfl
    rcases directReallocate_stale hkernel (by rw [hentry]; simpa using hstale) hdirect with
      hnull | ⟨c, hc, hsource, hlength⟩
    · exact hserved.nonnull hnull
    · have howns := hserved.reads c hc 0 hlength
      rw [hsource] at howns
      exact not_owns_zero hinv.ok howns
  · intro hfresh
    rcases directReallocate_fresh hkernel hpass.ok hsize (hentry.trans hfresh) with
      ⟨q, part, hdirect, hgranted, later, hlater, hno'⟩
    refine ⟨⟨q, heap₁.setDirect part, [⟨q, 0, 0⟩]⟩, ?_,
      hgranted.nullServed hinv hpass hevents hno hlater hno'⟩
    intro rounds
    rw [hcall, hdirect]
    rfl

/-- With one mapping live and no entry freed, the call serves 100 bytes. -/
theorem realloc_null_fresh :
    ∃ history s, Run (clientSystem bumpKernel noBlocks) history s ∧
      s.live = [⟨.buddy, 24576, 5⟩, ⟨.direct, 8192, 9000⟩] ∧
      ∃ r, (∀ rounds, reallocImpl bumpKernel rounds s.heap 0 100 = some r) ∧ NullServed s 100 r := by
  have hrun : (exec (clientNext bumpKernel) [.malloc 9000, .malloc 100] [] noBlocks).map
      (fun x => (x.2.live, decide (Steps KeepsBlocks x.1), freshEntry x.2.heap)) =
        some ([⟨.buddy, 24576, 5⟩, ⟨.direct, 8192, 9000⟩], true, true) := by
    decide +kernel
  rcases Option.map_eq_some_iff.mp hrun with ⟨t, ht, hresult⟩
  simp only [Prod.mk.injEq, decide_eq_true_eq] at hresult
  rcases hresult with ⟨hlive, hkeeps, hfresh⟩
  have hr := run_of_clientNext ht
  have hserved := (realloc_null_iff hr hkeeps bumpKernel_succeeds (show 1 ≤ 100 by decide)).mpr hfresh
  exact ⟨t.1, t.2, hr, hlive, hserved⟩

/-- After a mapping was freed, the call returns null and releases pages that are not those of
the allocators: the size of the old mapping is taken for that of one at address zero. -/
theorem realloc_null_stale :
    bumpKernel.Succeeds ∧ ∃ history s, Run (clientSystem bumpKernel noBlocks) history s ∧
      s.live = [] ∧ ∃ r, reallocImpl bumpKernel 4 s.heap 0 100 = some r ∧ r.pointer = 0 ∧
        r.heap.os.head? = some (.unmap ⟨4096, 4904⟩) ∧ ¬ NullServed s 100 r := by
  refine ⟨bumpKernel_succeeds, ?_⟩
  have hrun : (exec (clientNext bumpKernel) [.malloc 9000, .free ⟨.direct, 8192, 9000⟩] []
      noBlocks).map (fun x => (x.2.live, (reallocImpl bumpKernel 4 x.2.heap 0 100).map
        fun r => (r.pointer, r.heap.os.head?))) =
        some ([], some (0, some (.unmap ⟨4096, 4904⟩))) := by
    decide +kernel
  rcases Option.map_eq_some_iff.mp hrun with ⟨t, ht, hresult⟩
  simp only [Prod.mk.injEq, Option.map_eq_some_iff] at hresult
  rcases hresult with ⟨hlive, r, hcall, hpointer, hhead⟩
  exact ⟨t.1, t.2, run_of_clientNext ht, hlive, r, hcall, hpointer, hhead,
    fun hserved => hserved.nonnull hpointer⟩

end SysProg.Memory
