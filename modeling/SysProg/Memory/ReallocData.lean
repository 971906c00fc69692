import Mathlib.Tactic
import SysProg.Memory.ReallocRuns

/-!
# The data of a reallocated block

With memory for every request, a reallocation of a block of the buddy allocators shrinks it,
leaves it, grows it over its buddies, or moves it within its tree, to another tree or to the
direct allocator.

* `ReallocKeeps` — the client finds its data in the new block, and nothing else has changed;
* `realloc_keeps_data` — so it is in every state of a run in which no cursor of the slot
  allocator was stranded;
* `stranded_cursor_data` — a run after which the new block is not disjoint from the others.
-/

namespace SysProg.Memory

open ByteMemory Rows Spans Lts

variable {kernel : Kernel} {s : ClientState} {heap : Heap} {x y z : Held} {p q m n size rounds : ℕ}
  {history : List (ClientOp × ClientState)} {r : HeapReallocated}

/-- The outcome of a reallocation of `x` to `size` bytes that the client relies on. -/
structure ReallocKeeps (s : ClientState) (x : Held) (size : ℕ) (r : HeapReallocated) : Prop where
  nonnull : r.pointer ≠ 0
  block : ∃ y : Held, y.pointer = r.pointer ∧ r.heap.Allocated y.owner y.pointer y.units ∧
    size ≤ y.usable ∧ ∀ z ∈ s.live, z ≠ x → y.Apart z
  data : ∀ (m : Bytes) (i : ℕ), i < min x.usable size →
    r.bytes s.heap.os m (r.pointer + i) = m (x.pointer + i)
  others : ∀ z ∈ s.live, z ≠ x → Unchanged s.heap r z
  released : r.pointer ≠ x.pointer → ∀ o k, ¬ r.heap.Allocated o x.pointer k
  copies : ∀ c ∈ r.copies, c.Disjoint

theorem regrant_pointer (x : Held) (heap : Heap) (q size : ℕ) :
    (x.regrant heap q size).pointer = q := by
  unfold Held.regrant
  split
  · split <;> rfl
  · rfl
  · rfl

/-! ## Copies -/

section Data

variable {copies : List Copy} (h : DataMoved p q n size copies)
include h

theorem DataMoved.disjoint : ∀ c ∈ copies, c.Disjoint := by
  intro c hc
  rcases h with ⟨rfl, -⟩ | ⟨rfl, -, hdisjoint⟩
  · cases hc
  · rw [List.mem_singleton.mp hc]
    exact hdisjoint

/-- Only the new block is written to. -/
theorem DataMoved.writes {a : ℕ} : ∀ c ∈ copies, c.Writes a → q ≤ a ∧ a < q + size := by
  intro c hc hwrites
  rcases h with ⟨rfl, -⟩ | ⟨rfl, hlt, -⟩
  · cases hc
  · rw [List.mem_singleton.mp hc] at hwrites
    exact ⟨hwrites.1, lt_trans hwrites.2 (Nat.add_lt_add_left hlt q)⟩

end Data

/-- The bytes of the old block are those of the new one. -/
theorem DataMoved.bytes {os : List OsEvent} (h : DataMoved p r.pointer n size r.copies)
    (hmapped : ∀ a, p ≤ a → a < p + n → Mapped os a) (m : Bytes) {i : ℕ} (hi : i < n) :
    r.bytes os m (r.pointer + i) = m (p + i) := by
  have hold : Mapped os (p + i) :=
    hmapped _ (Nat.le_add_right _ _) (Nat.add_lt_add_left hi _)
  rcases h with ⟨hcopies, hq⟩ | ⟨hcopies, -, -⟩
  · rw [hq]
    exact bytes_of_not_writes hold (by simp [hcopies]) m
  · unfold HeapReallocated.bytes
    rw [hcopies, applyAll_singleton, Copy.apply_copied (c := ⟨r.pointer, p, n⟩) hi, if_pos hold]

/-! ## One call -/

/-- A block of the buddy allocators that moved keeps its data. -/
theorem Moved.keeps (h : ClientInv s) (hx : x ∈ s.live) (hne : r.pointer ≠ 0)
    (hmoved : Moved s.heap x y r.heap) (hpointer : y.pointer = r.pointer) (hsize : size ≤ y.usable)
    (hdata : DataMoved x.pointer r.pointer x.usable size r.copies) : ReallocKeeps s x size r := by
  have hinv := h.move hx hmoved
  have hapart : ∀ z ∈ s.live, z ≠ x → y.Apart z := fun z hz hzx =>
    hinv.head_apart (mem_without.mpr ⟨hz, hzx⟩)
  refine ⟨hne, ⟨y, hpointer, (hmoved.allocated _ _ _).mpr (.inr rfl), hsize, hapart⟩, ?_, ?_, ?_,
    hdata.disjoint⟩
  · intro m i hi
    exact hdata.bytes (h.ok.mapped_block (h.allocated hx)) m (lt_of_lt_of_le hi (min_le_left _ _))
  · intro z hz hzx
    have hnew := hinv.allocated (List.mem_cons_of_mem y (mem_without.mpr ⟨hz, hzx⟩))
    refine unchanged_of_not_writes h.ok hinv.ok (h.allocated hz) hnew fun c hc i hi hwrites => ?_
    -- the copy stays inside the new block
    have hin := hdata.writes c hc hwrites
    have hd := hapart z hz hzx
    unfold Held.Apart at hd
    omega
  · intro hmove o k hold
    rcases (hmoved.allocated _ _ _).mp hold with ⟨-, hself⟩ | heq
    · exact hself rfl
    · rw [← hpointer, ← heq] at hmove
      exact hmove rfl

/-- In every state of a run in which no reallocation of slots strands a cursor, every
reallocation of a block of the buddy allocators keeps its data. -/
theorem realloc_keeps_data (hkernel : kernel.Succeeds)
    (hr : Run (clientSystem kernel noBlocks) history s) (hkeeps : Steps KeepsSlots history)
    (hx : x ∈ s.live) (howner : x.owner = .buddy) (hsize : 1 ≤ size) :
    ∃ r, (∀ rounds, reallocImpl kernel rounds s.heap x.pointer size = some r) ∧
      ReallocKeeps s x size r := by
  have hinv := client_always_succeeds hkernel noBlocks_inv hr hkeeps
  have hall := hinv.allocated hx
  have hall' : s.heap.Allocated .buddy x.pointer x.units := by
    rw [← howner]
    exact hall
  have hslot : x.owner ≠ .slot := by
    rw [howner]
    decide
  rcases reallocImpl_buddy_ends hinv.ok hall' hsize hkernel with ⟨r, hcall⟩
  refine ⟨r, hcall, ?_⟩
  cases realloc_post hinv.ok hall hsize (fun ho => absurd ho hslot) (hcall 0) with
  | moved hne hmoved hdata =>
    exact (hmoved fun ho => absurd ho hslot).keeps hinv hx hne (regrant_pointer _ _ _ _)
      (hdata howner).1 (hdata howner).2
  | kept _ _ hfails | lost _ hfails => exact absurd hkernel hfails

/-! ## Two runs -/

/-- The second of three small blocks grows to 100 bytes after a block of slots has grown over
the free span behind it. -/
theorem realloc_keeps_data_grown :
    ∃ history s, Run (clientSystem bumpKernel noBlocks) history s ∧
      (⟨.buddy, 8208, 8⟩ : Held) ∈ s.live ∧
      ∃ r, (∀ rounds, reallocImpl bumpKernel rounds s.heap 8208 100 = some r) ∧
        ReallocKeeps s ⟨.buddy, 8208, 8⟩ 100 r := by
  have hrun : (exec (clientNext bumpKernel)
      [.malloc 16, .malloc 16, .malloc 16, .malloc 500, .malloc 500, .free ⟨.slot, 12848, 1⟩,
        .realloc ⟨.slot, 12320, 1⟩ 1000 12320] [] noBlocks).map
        (fun x => (decide ((⟨.buddy, 8208, 8⟩ : Held) ∈ x.2.live),
          decide (Steps KeepsSlots x.1))) = some (true, true) := by
    decide +kernel
  rcases Option.map_eq_some_iff.mp hrun with ⟨t, ht, hresult⟩
  simp only [Prod.mk.injEq, decide_eq_true_eq] at hresult
  rcases hresult with ⟨hlive, hkeeps⟩
  have hr := run_of_clientNext ht
  have hkept := realloc_keeps_data bumpKernel_succeeds hr hkeeps hlive rfl
    (show 1 ≤ 100 by decide)
  exact ⟨t.1, t.2, hr, hlive, hkept⟩

/-- A stranded cursor leads to a block of slots that reaches behind the end of its arena, into
the page of a tree. The client has written a header there that the slot allocator takes for
its own. A reallocation of the block in the tree then returns memory of another live block. -/
theorem stranded_cursor_data :
    bumpKernel.Succeeds ∧ ∃ history s, Run (clientSystem bumpKernel noBlocks) history s ∧
      (⟨.buddy, 143360, 8⟩ : Held) ∈ s.live ∧
      ∃ r, reallocImpl bumpKernel 4 s.heap 143360 16 = some r ∧ r.pointer = 143360 ∧
        ¬ ReallocKeeps s ⟨.buddy, 143360, 8⟩ 16 r := by
  refine ⟨bumpKernel_succeeds, ?_⟩
  have hrun : (exec (clientNext bumpKernel)
      [.malloc 16, .realloc ⟨.buddy, 8192, 8⟩ 4096 8192, .malloc 500,
        .realloc ⟨.slot, 12320, 1⟩ 127760 12320, .malloc 500, .malloc 500, .malloc 500,
        .malloc 1568, .malloc 16, .free ⟨.slot, 141152, 1⟩,
        .realloc ⟨.slot, 140624, 1⟩ 1568 151584, .malloc 500, .free ⟨.slot, 140096, 1⟩,
        .malloc 1568, .write ⟨.slot, 140096, 3⟩ (fun _ => ⟨5, false⟩),
        .free ⟨.slot, 141152, 1⟩, .malloc 2600] [] noBlocks).map
        (fun x => (decide ((⟨.buddy, 143360, 8⟩ : Held) ∈ x.2.live),
          decide ((⟨.slot, 141152, 5⟩ : Held) ∈ x.2.live),
          (reallocImpl bumpKernel 4 x.2.heap 143360 16).map HeapReallocated.pointer)) =
      some (true, true, some 143360) := by
    decide +kernel
  rcases Option.map_eq_some_iff.mp hrun with ⟨t, ht, hresult⟩
  simp only [Prod.mk.injEq, decide_eq_true_eq, Option.map_eq_some_iff] at hresult
  rcases hresult with ⟨hlive, hother, r, hcall, hpointer⟩
  refine ⟨t.1, t.2, run_of_clientNext ht, hlive, r, hcall, hpointer, fun hkeeps => ?_⟩
  -- the result overlaps the span of five slots
  rcases hkeeps.block with ⟨y, hy, -, husable, hapart⟩
  have hd := hapart ⟨.slot, 141152, 5⟩ hother (by decide)
  have hbytes : (⟨.slot, 141152, 5⟩ : Held).usable = 2624 := by decide
  unfold Held.Apart at hd
  rw [hbytes, hy, hpointer] at hd
  simp only at hd
  omega

end SysProg.Memory
