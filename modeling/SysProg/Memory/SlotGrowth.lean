import Mathlib.Tactic
import SysProg.Memory.ReallocRuns

/-!
# Growing a block of slots

`realloc_impl` hands every size to the slot allocator when the block is one of slots. The
count of slots is computed in `size_t`, and the search for a new span ends only at an arena
that can hold the whole span.

* `slotAt`, `spanLength` — what stands at the header positions of a block;
* `span_suffices_iff` — the span that is returned has room for the request exactly when the
  size and the header do not wrap around;
* `Extension.data_moved`, `Extension.data_kept` — the data at the header positions inside the
  block comes along;
* `grows_iff` — with memory for every request, the call returns a block with the old data
  exactly when one arena can hold it.
-/

namespace SysProg.Memory

open ByteMemory Spans Lts

/-- What stands `k` header positions behind the header of the block at `pointer`. -/
def slotAt (heap : SlotHeap) (pointer k : ℕ) : Option Slot := do
  let index ← findArena heap pointer
  let a ← heap.arenas[index]?
  return a.slots (slotToIndex a.base pointer + k)

/-- The length in the header of the block at `pointer`. -/
def spanLength (heap : SlotHeap) (pointer : ℕ) : Option ℕ :=
  (slotAt heap pointer 0).map Span.length

variable {kernel : Kernel} {heap heap' heap₁ heap₂ : SlotHeap} {a b c target : SlotArena}
  {p q r i j k len index index' required size rounds : ℕ}

/-- The arena of a pointer is known by its bases. -/
theorem slotAt_eq (hb : ArenasOk heap.bases heap.os) (ha : heap.arenas[index]? = some a)
    (hi : i < slotCount) (k : ℕ) :
    slotAt heap (slotPointer a.base i) k = some (a.slots (i + k)) := by
  have hfind : findArena heap (slotPointer a.base i) = some index :=
    findArena_eq hb ha ((inArena_iff _ _).mpr (slotPointer_bounds a.base hi))
  simp only [slotAt, hfind, ha, slotToIndex_slotPointer, Option.bind_eq_bind, Option.bind_some]
  rfl

theorem slotAt_modify {f : SlotArena → SlotArena} (hb : ArenasOk heap.bases heap.os)
    (ha : heap.arenas[index]? = some a) (hbase : (f a).base = a.base) (hi : i < slotCount) (k : ℕ) :
    slotAt (heap.modify index f) (slotPointer a.base i) k = some ((f a).slots (i + k)) := by
  have hrep : Replaced heap (heap.modify index f) index a (f a) := replaced_modify ha hbase
  rw [← hbase]
  exact slotAt_eq (hrep.bases_ok hb) hrep.new hi k

/-- The header of a used span holds its length. -/
theorem spanLength_of_used (hb : ArenasOk heap.bases heap.os) (ht : ∀ c ∈ heap.arenas, Tiled c)
    (hu : heap.Used p r) : spanLength heap p = some r ∧ 0 < r := by
  rcases used_iff_getElem?.mp hu with ⟨index, a, ha, i, hi, rfl⟩
  have hbounds := hi.bounds (ht a (List.mem_of_getElem? ha))
  refine ⟨?_, hbounds.1⟩
  rw [spanLength, slotAt_eq hb ha (by omega), Nat.add_zero, Option.map_some, usedSpan_length hi]

/-! ## The number of slots -/

/-- The slots of a size that does not wrap around have room for it. -/
theorem requiredSlots_suffices (h : sizeofSlot + size < 2 ^ 64) :
    0 < requiredSlots size ∧ sizeofSlot + size ≤ requiredSlots size * slotSize := by
  rw [requiredSlots_eq h]
  simp only [sizeofSlot, slotSize, slotAllocatorSlotSize]
  omega

/-- The slots of a size that does: one at most. -/
theorem requiredSlots_wraps (hsize : size < 2 ^ 64) (h : 2 ^ 64 ≤ sizeofSlot + size) :
    requiredSlots size ≤ 1 := by
  rcases Nat.exists_eq_add_of_le h with ⟨d, hd⟩
  have hsmall : d < sizeofSlot := by omega
  have hmod : (sizeofSlot + size) % 2 ^ 64 = d := by
    rw [hd, Nat.add_mod_left, Nat.mod_eq_of_lt (hsmall.trans (by decide))]
  have hnone : d / slotSize = 0 := Nat.div_eq_of_lt (hsmall.trans (by decide))
  simp only [requiredSlots]
  rw [hmod, hnone]
  split <;> omega

/-- The span at `pointer` is not empty and has `size` bytes besides its header. -/
def Suffices (heap : SlotHeap) (pointer size : ℕ) : Prop :=
  ∃ length, spanLength heap pointer = some length ∧ 0 < length ∧
    size ≤ length * slotSize - sizeofSlot

/-- A span that is long enough stays where it is, cut to the slots that were counted. -/
theorem Extension.slotAt_enough (hx : Extension heap p r (requiredSlots size) index a i b len)
    (h : SlotOk heap) (k : ℕ) :
    slotAt (heap.modify index fun _ =>
      { b.trim i (requiredSlots size) with cursor := i + requiredSlots size }) p k =
      some ((b.trim i (requiredSlots size)).slots (i + k)) := by
  have hbase := (trim_base b i (requiredSlots size)).trans hx.expanded.resized.base
  rw [hx.pointer]
  exact slotAt_modify
    (f := fun _ => { b.trim i (requiredSlots size) with cursor := i + requiredSlots size })
    h.bases hx.arena hbase hx.bound k

/-- What one call returns has room for the request exactly when nothing wraps around. -/
theorem suffices_iff (kernel : Kernel) (h : SlotOk heap) (hu : heap.Used p r)
    (hsize : size < 2 ^ 64) :
    (∀ rounds res, slotAllocatorReallocateWithin kernel rounds heap p size = some res →
        res.pointer ≠ 0 → Suffices res.heap res.pointer size) ↔
      sizeofSlot + size < 2 ^ 64 := by
  constructor
  · intro hall
    by_contra hwraps
    rw [not_lt] at hwraps
    have hone := requiredSlots_wraps hsize hwraps
    rcases exists_extension h hu (requiredSlots size) with ⟨index, a, i, b, len, hx⟩
    have hbounds := hx.expanded.resized.span.bounds hx.expanded.resized.tiled
    have henough : requiredSlots size ≤ len := by omega
    -- one slot is always there, so the span is cut in place
    have hne : p ≠ 0 := hx.pointer ▸ slotPointer_ne_zero _ _
    rcases hall 0 _ (hx.call_enough kernel 0 hu henough) hne with ⟨length, hlength, -, hroom⟩
    have hcut : ((b.trim i (requiredSlots size)).slots i).length = requiredSlots size := by
      apply trim_length
      rw [usedSpan_length hx.expanded.resized.span]
      exact henough
    simp only [spanLength, hx.slotAt_enough h, Nat.add_zero, Option.map_some, hcut,
      Option.some.injEq] at hlength
    subst hlength
    simp only [slotSize, slotAllocatorSlotSize, sizeofSlot] at hroom hwraps
    omega
  · intro hfits rounds res hrun hne
    rcases requiredSlots_suffices hfits with ⟨hpos, hroom⟩
    cases slotReallocate_post h hu hpos hrun with
    | moved hpost =>
      have hnew : res.heap.Used res.pointer (requiredSlots size) :=
        (hpost.used _ _).mpr (.inr ⟨rfl, rfl⟩)
      rcases spanLength_of_used hpost.bases hpost.tiled hnew with ⟨hlength, -⟩
      exact ⟨_, hlength, hpos, by omega⟩
    | refused _ hnull => exact absurd hnull hne

/-! ## The data -/

/-- The copy of a span brings along what stands at the header positions inside it. -/
theorem moveSpan_slotAt {source target : SlotArena} (hb : ArenasOk heap.bases heap.os)
    (ht : ∀ c ∈ heap.arenas, Tiled c) (hsource : heap.arenas[index]? = some source)
    (hspan : UsedSpan source i len) (htarget : heap.arenas[index']? = some target)
    (hnew : UsedSpan target j required) (hshort : len < required)
    (hmove : moveSpan heap index i (slotPointer target.base j) = some heap')
    (hk : 0 < k) (hlt : k < len) :
    slotAt heap' (slotPointer target.base j) k = some (source.slots (i + k)) := by
  rcases moveSpan_spec hb ht hsource hspan htarget hnew hshort with ⟨heap'', hmove', hbases, hos, -⟩
  obtain rfl : heap' = heap'' := Option.some.inj (hmove.symm.trans hmove')
  have htt := ht target (List.mem_of_getElem? htarget)
  have hbounds := hnew.bounds htt
  let f : SlotArena → SlotArena := fun c =>
    copyHeaders source i c (slotToIndex c.base (slotPointer target.base j)) (source.slots i).length
  have hcopied : (f target).slots (j + k) = source.slots (i + k) := by
    show (copyHeaders source i target (slotToIndex target.base _) _).slots (j + k) = _
    rw [slotToIndex_slotPointer, usedSpan_length hspan]
    simp only [copyHeaders]
    rw [if_pos (by omega), Nat.add_sub_cancel_left]
  have hheap : heap' = (heap.modify index' f).modify index fun c => c.markUnused i := by
    simp only [moveSpan, findArena_of_usedSpan hb htarget htt hnew, hsource, Option.bind_eq_bind,
      Option.bind_some] at hmove
    exact (Option.some.inj hmove).symm
  obtain ⟨c, hc, hbase, hslot⟩ : ∃ c, heap'.arenas[index']? = some c ∧ c.base = target.base ∧
      c.slots (j + k) = source.slots (i + k) := by
    rw [hheap]
    by_cases hindex : index = index'
    · -- the header of the old span lies outside the new one
      subst hindex
      rcases Option.some.inj (hsource.symm.trans htarget) with rfl
      have hapart := hspan.disjoint htt hnew
      refine ⟨(f source).markUnused i, by simp [SlotHeap.modify, htarget], rfl, ?_⟩
      rw [← hcopied]
      exact Function.update_of_ne (by omega) _ _
    · exact ⟨f target, by simp [SlotHeap.modify, htarget, hindex], rfl, hcopied⟩
  have hb' : ArenasOk heap'.bases heap'.os := by
    rw [hbases, hos]
    exact hb
  rw [← hbase, slotAt_eq hb' hc (by omega), hslot]

namespace Extension

variable (hx : Extension heap p r (requiredSlots size) index a i b len) (h : SlotOk heap)
include hx h

/-- The search for a new span leaves the data of the block alone, also when the cursor has
been run over: it is behind the data then. -/
theorem dataSlot (hk : 0 < k) (hlt : k < r) : DataSlot b (i + k) := by
  have hmem := List.mem_of_getElem? hx.arena
  have hle := hx.le_length
  refine ⟨i, len, hx.expanded.resized.span, by omega, by omega, ?_⟩
  rw [hx.expanded.cursorOkOr.iff hx.expanded.resized.tiled hx.expanded.resized.span,
    hx.expanded.cursor]
  by_contra hnot
  rw [not_or, not_not, not_lt] at hnot
  rcases hnot with ⟨hinside, hcursor⟩
  exact not_cursorOk_of_inside (h.tiled a hmem) hx.span hinside.1 (by omega) (h.cursor a hmem)

/-- Cutting the span to the new size leaves the data in front of the cut alone. -/
theorem data_trimmed (hk : 0 < k) (hlt : k < requiredSlots size) :
    (b.trim i (requiredSlots size)).slots (i + k) = a.slots (i + k) := by
  rw [← (hx.total_cases h).1 (i + k) (by omega)]
  unfold SlotArena.trim
  split
  · simp only [cut]
    rw [Function.update_of_ne (by omega), Function.update_of_ne (by omega)]
  · rfl

/-- After a move the old data stands in the new span, and the copy was at least as long as
the old span. -/
theorem data_moved {source : SlotArena} (hshort : len < requiredSlots size)
    (hnew : SlotAllocated kernel (heap.modify index fun _ => b) (requiredSlots size) (q, heap₂))
    (hsource : heap₂.arenas[index]? = some source)
    (hmove : moveSpan heap₂ index i q = some heap') :
    (source.slots i).length = len ∧
      ∀ k, 0 < k → k < r → slotAt heap' q k = some (a.slots (i + k)) := by
  rcases hnew with ⟨heap₁, index', a', b', j, hopen, halloc⟩
  simp only at halloc
  have hr := hx.expanded.resized
  have hrep := replaced_by hx.arena hr.base
  have hbases₂ := halloc.bases_ok (hopen.bases_ok (hrep.bases_ok h.bases))
  rcases halloc.arena_cases (hopen.getElem? hrep.new) with ⟨s, hs, hscases⟩
  rcases Option.some.inj (hs.symm.trans hsource) with rfl
  have hspan : UsedSpan s i len := (halloc.kept hscases).2 i len hr.span
  have htarget : UsedSpan b' j (requiredSlots size) :=
    (halloc.served.used j _).mpr (.inr ⟨rfl, rfl⟩)
  refine ⟨usedSpan_length hspan, fun k hk hlt => ?_⟩
  have hle := hx.le_length
  -- the copy takes what the search has left of the extended span
  rw [halloc.pointer] at hmove ⊢
  rw [moveSpan_slotAt hbases₂ halloc.tiled hs hspan halloc.new htarget hshort hmove hk (by omega),
    halloc.data_kept hscases (hx.dataSlot h hk hlt), (hx.total_cases h).1 (i + k) (by omega)]

end Extension

/-- The block of `r` slots at `p` has become one for `size` bytes, with its data. -/
structure SpanGrown (heap : SlotHeap) (p r size : ℕ) (res : SpanReallocated) : Prop where
  nonzero : res.pointer ≠ 0
  used : res.heap.Used res.pointer (requiredSlots size)
  copies : res.copies = [] ∧ res.pointer = p ∨
    ∃ n, r * slotSize ≤ n ∧ res.copies = [⟨res.pointer, p, n⟩]
  data : ∀ k, 0 < k → k < r → k < requiredSlots size →
    slotAt res.heap res.pointer k = slotAt heap p k

/-- With memory for every request, whatever is returned is the block with its data. -/
theorem slotReallocate_grown (hkernel : kernel.Succeeds) (h : SlotOk heap) (hu : heap.Used p r)
    (hpos : 0 < requiredSlots size) {res : SpanReallocated}
    (hrun : slotAllocatorReallocateWithin kernel rounds heap p size = some res) :
    SpanGrown heap p r size res := by
  obtain ⟨hnonzero, hused⟩ : res.pointer ≠ 0 ∧ res.heap.Used res.pointer (requiredSlots size) := by
    cases slotReallocate_post h hu hpos hrun with
    | moved hpost => exact ⟨hpost.nonzero, (hpost.used _ _).mpr (.inr ⟨rfl, rfl⟩)⟩
    | refused _ _ _ hfails => exact absurd hkernel hfails
  rcases exists_extension h hu (requiredSlots size) with ⟨index, a, i, b, len, hx⟩
  have hold : ∀ k, slotAt heap p k = some (a.slots (i + k)) := by
    intro k
    rw [hx.pointer]
    exact slotAt_eq h.bases hx.arena hx.bound k
  rcases Nat.lt_or_ge len (requiredSlots size) with hshort | henough
  · -- the data has moved to a new span
    rw [hx.call_short kernel rounds hu hshort, Option.bind_eq_some_iff] at hrun
    rcases hrun with ⟨⟨q, heap₂⟩, halloc, hrun⟩
    rcases allocate_arenas_post hpos (hx.searchable h hshort) halloc with hnew | ⟨-, _, hrefused⟩
    · rcases reallocate_moved h hx.arena hx.bound hx.expanded hshort hnew with
        ⟨s, heap', hs, hmove, hpost, -⟩
      rcases hx.data_moved h hshort hnew hs hmove with ⟨hlength, hdata⟩
      simp only [if_neg hpost.nonzero, hs, hmove, hlength, Option.bind_some, Option.some.injEq] at hrun
      subst hrun
      refine ⟨hnonzero, hused, .inr ⟨_, Nat.mul_le_mul_right _ hx.le_length, rfl⟩, ?_⟩
      intro k hk hlt _
      rw [hold, hdata k hk hlt]
    · exact absurd hkernel hrefused.fails
  · -- the span has become long enough where it is
    rw [hx.call_enough kernel rounds hu henough, Option.some.injEq] at hrun
    subst hrun
    refine ⟨hnonzero, hused, .inl ⟨rfl, rfl⟩, ?_⟩
    intro k hk _ hlt
    rw [hold, hx.slotAt_enough h, hx.data_trimmed h hk hlt]

/-- With memory for every request, a call for more slots than an arena has does not return. -/
theorem slotReallocate_never (hkernel : kernel.Succeeds) (h : SlotOk heap) (hu : heap.Used p r)
    (hlarge : slotCount < requiredSlots size) (rounds : ℕ) :
    slotAllocatorReallocateWithin kernel rounds heap p size = none := by
  cases hrun : slotAllocatorReallocateWithin kernel rounds heap p size with
  | none => rfl
  | some res =>
    cases slotReallocate_post h hu (by omega) hrun with
    | moved hpost =>
      -- a span lies within its arena
      rcases (hpost.used _ _).mpr (.inr ⟨rfl, rfl⟩) with ⟨c, hc, k, hspan, -⟩
      have hbounds := hspan.bounds (hpost.tiled c hc)
      omega
    | refused _ _ _ hfails => exact absurd hkernel hfails

/-! ## Runs -/

/-- What the client expects of the block `x` of slots after `realloc_impl(x, size)`: as many
bytes as it asked for, and its data in front. The data at the header positions inside the
block is looked up in the arenas. -/
structure GrowsTo (s : ClientState) (x : Held) (size : ℕ) (r : HeapReallocated) : Prop where
  nonnull : r.pointer ≠ 0
  block : ∃ y : Held, y.pointer = r.pointer ∧ r.heap.Allocated y.owner y.pointer y.units ∧
    size ≤ y.usable
  bytes : ∀ (m : Bytes) (n : ℕ), n < min x.usable size →
    r.bytes s.heap.os m (r.pointer + n) = m (x.pointer + n)
  headers : ∀ k, 0 < k → k < min x.units (requiredSlots size) →
    slotAt r.heap.slot r.pointer k = slotAt s.heap.slot x.pointer k

variable {s : ClientState} {x : Held} {history : List (ClientOp × ClientState)}

/-- The block that the slot allocator returned. -/
theorem SpanGrown.growsTo (h : ClientInv s) (hx : x ∈ s.live) (howner : x.owner = .slot)
    (hfits : sizeofSlot + size < 2 ^ 64) {res : SpanReallocated}
    (hgrown : SpanGrown s.heap.slot x.pointer x.units size res) (heap₁ : Heap) :
    GrowsTo s x size ⟨res.pointer, heap₁.setSlot res.heap, res.copies⟩ := by
  have hroom := (requiredSlots_suffices hfits).2
  have husable : x.usable = x.units * slotSize - sizeofSlot := by
    rw [Held.usable, howner]
    rfl
  refine ⟨hgrown.nonzero, ⟨⟨.slot, res.pointer, requiredSlots size⟩, rfl, hgrown.used, ?_⟩, ?_, ?_⟩
  · show size ≤ requiredSlots size * slotSize - sizeofSlot
    omega
  · intro m n hn
    have hold : Mapped s.heap.os (x.pointer + n) := by
      apply h.ok.mapped_block (h.allocated hx)
      · omega
      · have hlt := lt_of_lt_of_le hn (min_le_left _ _)
        exact Nat.add_lt_add_left hlt _
    rcases hgrown.copies with ⟨hcopies, hpointer⟩ | ⟨length, hlength, hcopies⟩
    · simp only [hpointer]
      exact bytes_of_not_writes hold (by simp [hcopies]) m
    · -- the copy is at least as long as the old block
      have hin : n < length := by omega
      unfold HeapReallocated.bytes
      rw [hcopies, applyAll_singleton, Copy.apply_copied (c := ⟨res.pointer, x.pointer, length⟩) hin,
        if_pos hold]
  · intro k hk hlt
    rw [lt_min_iff] at hlt
    exact hgrown.data k hk hlt.1 hlt.2

/-- For a block of slots `realloc_impl` asks the slot allocator, whose arenas are still those
of the state. -/
theorem reallocImpl_asks (kernel : Kernel) (h : ClientInv s) (hx : x ∈ s.live)
    (howner : x.owner = .slot) (size : ℕ) :
    ∃ heap₁, SlotOk heap₁.slot ∧ heap₁.slot.Used x.pointer x.units ∧
      heap₁.slot.arenas = s.heap.slot.arenas ∧
      ∀ rounds, reallocImpl kernel rounds s.heap x.pointer size =
        reallocateElsewhere kernel rounds heap₁ x.pointer size [] := by
  have hall := h.allocated hx
  have hpass := block_passes h.ok kernel
  refine ⟨s.heap.setBuddy (initialBlock kernel s.heap.buddy), hpass.ok.slotOk, ?_, rfl, ?_⟩
  · have hall' := (hpass.allocated _ _ _).mpr hall
    rw [howner] at hall'
    exact hall'
  · intro rounds
    apply reallocImpl_elsewhere
    apply buddy_foreign h.ok hall
    rw [howner]
    decide

theorem slotAt_congr (harenas : heap₁.arenas = heap.arenas) (p k : ℕ) :
    slotAt heap₁ p k = slotAt heap p k := by
  unfold slotAt findArena
  rw [harenas]

/-- With memory for every request, `realloc_impl` returns a block of slots with its data
exactly when the header and the bytes fit into one arena. -/
theorem grows_iff (hkernel : kernel.Succeeds) (hr : Run (clientSystem kernel noBlocks) history s)
    (hkeeps : Steps KeepsSlots history) (hx : x ∈ s.live) (howner : x.owner = .slot)
    (hsize : size < 2 ^ 63) :
    (∃ rounds r, reallocImpl kernel rounds s.heap x.pointer size = some r ∧ GrowsTo s x size r) ↔
      sizeofSlot + size ≤ slotCount * slotSize := by
  have hinv := client_always_succeeds hkernel noBlocks_inv hr hkeeps
  rcases reallocImpl_asks kernel hinv hx howner size with ⟨heap₁, hok, hused, harenas, hcall⟩
  have hfits : sizeofSlot + size < 2 ^ 64 := by
    simp only [sizeofSlot]
    omega
  have hcount : requiredSlots size ≤ slotCount ↔ sizeofSlot + size ≤ slotCount * slotSize := by
    rw [requiredSlots_eq hfits, show slotCount = 248 from rfl]
    simp only [sizeofSlot, slotSize, slotAllocatorSlotSize]
    omega
  rw [← hcount]
  constructor
  · rintro ⟨rounds, r, hrun, -⟩
    -- no arena is large enough: it asks for new ones for ever
    by_contra hlarge
    rw [hcall, reallocateElsewhere,
      slotReallocate_never hkernel hok hused (by omega) rounds] at hrun
    cases hrun
  · intro hle
    have hpos := (requiredSlots_suffices hfits).1
    rcases slotReallocate_ends hok hused hpos kernel hle with ⟨res, hslot⟩
    have hgrown := slotReallocate_grown hkernel hok hused hpos hslot
    refine ⟨heap₁.slot.arenas.length + 4, ⟨res.pointer, heap₁.setSlot res.heap, res.copies⟩, ?_, ?_⟩
    · rw [hcall, reallocateElsewhere, hslot]
      simp only [Option.bind_eq_bind, Option.bind_some, if_pos hgrown.nonzero, List.nil_append]
      rfl
    · refine SpanGrown.growsTo hinv hx howner hfits
        ⟨hgrown.nonzero, hgrown.used, hgrown.copies, fun k hk hlt hlt' => ?_⟩ heap₁
      rw [hgrown.data k hk hlt hlt', slotAt_congr harenas]

/-- A client with two blocks of two slots. -/
theorem two_spans : ∃ history s, Run (clientSystem bumpKernel noBlocks) history s ∧
    Steps KeepsBlocks history ∧ (⟨.slot, 4128, 2⟩ : Held) ∈ s.live := by
  have hrun : (exec (clientNext bumpKernel) [.malloc 600, .malloc 600] [] noBlocks).map
      (fun x => (decide (Steps KeepsBlocks x.1), decide ((⟨.slot, 4128, 2⟩ : Held) ∈ x.2.live))) =
      some (true, true) := by
    decide +kernel
  rcases Option.map_eq_some_iff.mp hrun with ⟨t, ht, hresult⟩
  simp only [Prod.mk.injEq, decide_eq_true_eq] at hresult
  exact ⟨t.1, t.2, run_of_clientNext ht, hresult.1, hresult.2⟩

/-- The first of them grows to 2000 bytes, which takes it to another place. -/
theorem grows_moved : ∃ history s, Run (clientSystem bumpKernel noBlocks) history s ∧
    (⟨.slot, 4128, 2⟩ : Held) ∈ s.live ∧
    ∃ rounds r, reallocImpl bumpKernel rounds s.heap 4128 2000 = some r ∧
      GrowsTo s ⟨.slot, 4128, 2⟩ 2000 r := by
  rcases two_spans with ⟨history, s, hr, hkeeps, hlive⟩
  have hslots : Steps KeepsSlots history := fun step hstep => (hkeeps step hstep).1
  have hsize : 2000 < 2 ^ 63 := by decide
  have hgrows := (grows_iff bumpKernel_succeeds hr hslots hlive rfl hsize).mpr (by decide)
  exact ⟨history, s, hr, hlive, hgrows⟩

/-- One byte more than the slots of an arena can hold: arena after arena is created. -/
theorem growth_never_returns : bumpKernel.Succeeds ∧ 130929 < 2 ^ 63 ∧
    ∃ history s, Run (clientSystem bumpKernel noBlocks) history s ∧
      (⟨.slot, 4128, 2⟩ : Held) ∈ s.live ∧
      ∀ rounds, reallocImpl bumpKernel rounds s.heap 4128 130929 = none := by
  refine ⟨bumpKernel_succeeds, by decide, ?_⟩
  rcases two_spans with ⟨history, s, hr, hkeeps, hlive⟩
  refine ⟨history, s, hr, hlive, fun rounds => ?_⟩
  have hinv := client_always noBlocks_inv hr hkeeps
  rcases reallocImpl_asks bumpKernel hinv hlive rfl 130929 with ⟨heap₁, hok, hused, -, hcall⟩
  have hlarge : slotCount < requiredSlots 130929 := by decide
  have hcall := hcall rounds
  rw [reallocateElsewhere, slotReallocate_never bumpKernel_succeeds hok hused hlarge rounds] at hcall
  exact hcall

/-- What `slot_allocator_reallocate` returns has room for the request exactly when the size
and the header do not wrap around. -/
theorem span_suffices_iff (hr : Run (clientSystem kernel noBlocks) history s)
    (hkeeps : Steps KeepsBlocks history) (hx : x ∈ s.live) (howner : x.owner = .slot)
    (hsize : size < 2 ^ 64) :
    (∀ rounds res, slotAllocatorReallocateWithin kernel rounds s.heap.slot x.pointer size =
        some res → res.pointer ≠ 0 → Suffices res.heap res.pointer size) ↔
      sizeofSlot + size < 2 ^ 64 := by
  have hinv := client_always noBlocks_inv hr hkeeps
  have hall := hinv.allocated hx
  rw [howner] at hall
  exact suffices_iff kernel hinv.ok.slotOk hall hsize

theorem span_suffices_moved : ∃ history s, Run (clientSystem bumpKernel noBlocks) history s ∧
    (⟨.slot, 4128, 2⟩ : Held) ∈ s.live ∧
    ∀ rounds res, slotAllocatorReallocateWithin bumpKernel rounds s.heap.slot 4128 2000 =
      some res → res.pointer ≠ 0 → Suffices res.heap res.pointer 2000 := by
  rcases two_spans with ⟨history, s, hr, hkeeps, hlive⟩
  have hsize : 2000 < 2 ^ 64 := by decide
  have hsuffices := (span_suffices_iff hr hkeeps hlive rfl hsize).mpr (by decide)
  exact ⟨history, s, hr, hlive, hsuffices⟩

/-- The largest size of all gives one slot, and the block is cut down to it. -/
theorem wrapped_size_one_slot : ∃ history s, Run (clientSystem bumpKernel noBlocks) history s ∧
    (⟨.slot, 4128, 2⟩ : Held) ∈ s.live ∧
    ∃ res, slotAllocatorReallocateWithin bumpKernel 4 s.heap.slot 4128 (2 ^ 64 - 1) = some res ∧
      res.pointer = 4128 ∧ spanLength res.heap 4128 = some 1 ∧
      ¬ Suffices res.heap res.pointer (2 ^ 64 - 1) := by
  have hrun : (exec (clientNext bumpKernel) [.malloc 600] [] noBlocks).map
      (fun x => (decide ((⟨.slot, 4128, 2⟩ : Held) ∈ x.2.live),
        (slotAllocatorReallocateWithin bumpKernel 4 x.2.heap.slot 4128 (2 ^ 64 - 1)).map
          fun res => (res.pointer, spanLength res.heap 4128))) =
      some (true, some (4128, some 1)) := by
    decide +kernel
  rcases Option.map_eq_some_iff.mp hrun with ⟨t, ht, hresult⟩
  simp only [Prod.mk.injEq, decide_eq_true_eq, Option.map_eq_some_iff] at hresult
  rcases hresult with ⟨hlive, res, hcall, hpointer, hlength⟩
  refine ⟨t.1, t.2, run_of_clientNext ht, hlive, res, hcall, hpointer, hlength, ?_⟩
  rintro ⟨length, hsame, -, hroom⟩
  rw [hpointer, hlength, Option.some.injEq] at hsame
  subst hsame
  exact absurd hroom (by decide)

end SysProg.Memory
