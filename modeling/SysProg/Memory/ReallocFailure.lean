import Mathlib.Tactic
import SysProg.Memory.ReallocRuns

/-!
# `realloc_impl` without memory

When a page request fails, `realloc_impl` may return null. The client then still counts on
its old block. The direct allocator leaves a mapping alone until there is a new one. The
buddy allocators release a block before there is another one; the slot allocator has merged
the free spans behind a block before it looks for a larger one.

* `Intact` — the block is as it was, and no later allocation overlaps it;
* `failed_realloc_iff` — so it is exactly when the call does not give the block up;
* `released_block_reissued` — a block that the client still holds is handed out again.
-/

namespace SysProg.Memory

open ByteMemory Rows Spans Lts

variable {kernel : Kernel} {start s s' : ClientState} {x y : Held}
  {q size rounds : ℕ} {history : List (ClientOp × ClientState)} {op : ClientOp}
  {r : HeapReallocated}

/-- The client gives the block back, or gets another one for it. -/
def ClientOp.GivesBack (x : Held) : ClientOp → Prop
  | .free y => y = x
  | .realloc y _ result => y = x ∧ result ≠ 0
  | .malloc _ => False
  | .write _ _ => False

/-- The failed call `r` left the block `x` as it was. As long as the client does not give it
back, no allocation returns memory of it. -/
structure Intact (kernel : Kernel) (s : ClientState) (x : Held) (r : HeapReallocated) : Prop where
  unchanged : Unchanged s.heap r x
  later : ∀ history' s', Run (clientSystem kernel ⟨r.heap, s.live⟩) history' s' →
    Steps KeepsBlocks history' → Steps (fun op _ => ¬ op.GivesBack x) history' →
    ∀ size q heap', 1 ≤ size → mallocImpl kernel s'.heap size = some (q, heap') → q ≠ 0 →
      x.Apart ⟨issuer size, q, units (issuer size) size⟩

/-- A block stays live until the client gives it back. -/
theorem live_step (hx : x ∈ s.live) (hkeeps : ¬ op.GivesBack x)
    (hstep : clientStep kernel rounds op s = some s') : x ∈ s'.live := by
  cases called_of_step hstep with
  | served => exact List.mem_cons_of_mem _ hx
  | refused => exact hx
  | freed => exact mem_without.mpr ⟨hx, fun heq => hkeeps heq.symm⟩
  | moved y size rounds r _ hne =>
    have hyx : x ≠ y := fun heq => hkeeps ⟨heq.symm, hne⟩
    exact List.mem_cons_of_mem _ (mem_without.mpr ⟨hx, hyx⟩)
  | failed | wrote | unseen => exact hx

theorem live_always (hx : x ∈ start.live) (hr : Run (clientSystem kernel start) history s)
    (hkeeps : Steps (fun op _ => ¬ op.GivesBack x) history) : x ∈ s.live := by
  have halways : Always (fun t => x ∈ t.live) history s := by
    refine hr.always_of_steps ?_ ?_ hkeeps
    · intro t ht
      rw [show t = start from ht]
      exact hx
    · intro op t t' hlive hguard hnext
      rcases hnext with ⟨-, rounds, hstep⟩
      exact live_step hlive hguard hstep
  exact halways.1

/-- A new block is apart from every live one. -/
theorem ClientInv.malloc_apart (h : ClientInv s) (hx : x ∈ s.live) (hsize : 1 ≤ size)
    {heap' : Heap} (hrun : mallocImpl kernel s.heap size = some (q, heap')) (hne : q ≠ 0) :
    x.Apart ⟨issuer size, q, units (issuer size) size⟩ := by
  cases malloc_post h.ok hsize hrun with
  | served hpost =>
    exact Or.symm ((h.add hpost).head_apart hx)
  | refused hnull => exact absurd hnull hne

/-- A block that the failed call has kept. -/
theorem Passed.intact (h : ClientInv s) (hx : x ∈ s.live) (hcopies : r.copies = [])
    (hpass : Passed s.heap r.heap) : Intact kernel s x r := by
  have hinv := h.pass hpass
  refine ⟨unchanged_of_not_writes h.ok hpass.ok (h.allocated hx) (hinv.allocated hx) (by simp [hcopies]),
    ?_⟩
  intro history' s' hr hkeeps hback size q heap' hsize hrun hne
  have hinv' := client_always hinv hr hkeeps
  have hlive : x ∈ (⟨r.heap, s.live⟩ : ClientState).live := hx
  exact hinv'.malloc_apart (live_always hlive hr hback) hsize hrun hne

/-- In every state of a run in which no block was lost: a reallocation that returns null
leaves the block intact exactly when it is no call that gives the block up. -/
theorem failed_realloc_iff (hr : Run (clientSystem kernel noBlocks) history s)
    (hkeeps : Steps KeepsBlocks history) (hx : x ∈ s.live) (hsize : 1 ≤ size)
    (hrun : reallocImpl kernel rounds s.heap x.pointer size = some r) (hnull : r.pointer = 0) :
    Intact kernel s x r ↔ givesUp s.heap x size = false := by
  have hinv := client_always noBlocks_inv hr hkeeps
  have hall := hinv.allocated hx
  have hslots : x.owner = .slot → 0 < requiredSlots size := by
    intro howner
    by_contra hzero
    rw [howner] at hall
    have hpointer := realloc_slot_zero hinv.ok hall (by omega) hrun
    exact hinv.ok.nonzero hall (hpointer.symm.trans hnull)
  cases realloc_post hinv.ok hall hsize hslots hrun with
  | moved hne => exact absurd hnull hne
  | kept _ hcopies _ hgives hpass => exact ⟨fun _ => hgives, fun _ => hpass.intact hinv hx hcopies⟩
  | lost _ _ hgives hgone =>
    constructor
    · intro hintact
      exact absurd hintact.unchanged.live hgone
    · intro hno
      rw [hgives] at hno
      cases hno

/-! ## Two runs -/

/-- The kernel grants five requests. A mapping that cannot grow stays intact, the first time
and the second time. -/
theorem failed_realloc_mapping :
    ∃ history s r, Run (clientSystem (limitKernel 5) noBlocks) history s ∧
      s.live = [⟨.direct, 147456, 9000⟩, ⟨.slot, 12320, 1⟩, ⟨.buddy, 8192, 8⟩] ∧
      reallocImpl (limitKernel 5) 4 s.heap 147456 20000 = some r ∧ r.pointer = 0 ∧
      Intact (limitKernel 5) s ⟨.direct, 147456, 9000⟩ r := by
  have hrun : (exec (clientNext (limitKernel 5)) [.malloc 16, .malloc 500, .malloc 9000,
      .realloc ⟨.direct, 147456, 9000⟩ 20000 0] [] noBlocks).map
      (fun x => (x.2.live, decide (Steps KeepsBlocks x.1),
        (reallocImpl (limitKernel 5) 4 x.2.heap 147456 20000).map HeapReallocated.pointer,
        givesUp x.2.heap ⟨.direct, 147456, 9000⟩ 20000)) =
      some ([⟨.direct, 147456, 9000⟩, ⟨.slot, 12320, 1⟩, ⟨.buddy, 8192, 8⟩], true, some 0,
        false) := by
    decide +kernel
  rcases Option.map_eq_some_iff.mp hrun with ⟨t, ht, hresult⟩
  simp only [Prod.mk.injEq, decide_eq_true_eq, Option.map_eq_some_iff] at hresult
  rcases hresult with ⟨hlive, hkeeps, ⟨r, hcall, hpointer⟩, hgives⟩
  have hr := run_of_clientNext ht
  have hmem : (⟨.direct, 147456, 9000⟩ : Held) ∈ t.2.live := by simp [hlive]
  have hintact := (failed_realloc_iff hr hkeeps hmem (show 1 ≤ 20000 by decide) hcall hpointer).mpr
    hgives
  exact ⟨t.1, t.2, r, hr, hlive, hcall, hpointer, hintact⟩

/-- Two blocks fill the only tree, and the kernel grants nothing more. The first one cannot
grow, but it has been released: the next allocation returns its memory. -/
theorem released_block_reissued :
    ∃ history s r, Run (clientSystem (limitKernel 4) noBlocks) history s ∧
      Steps KeepsBlocks history ∧ (⟨.buddy, 24576, 1⟩ : Held) ∈ s.live ∧
      reallocImpl (limitKernel 4) 4 s.heap 24576 4096 = some r ∧ r.pointer = 0 ∧
      (∃ heap', mallocImpl (limitKernel 4) r.heap 16 = some (24576, heap')) ∧
      ¬ Intact (limitKernel 4) s ⟨.buddy, 24576, 1⟩ r := by
  have hrun : (exec (clientNext (limitKernel 4)) [.malloc 9000, .malloc 16,
      .realloc ⟨.buddy, 24576, 8⟩ 2048 24576, .malloc 16,
      .realloc ⟨.buddy, 26624, 8⟩ 2048 26624] [] noBlocks).map
      (fun x => (decide (Steps KeepsBlocks x.1),
        decide ((⟨.buddy, 24576, 1⟩ : Held) ∈ x.2.live),
        (reallocImpl (limitKernel 4) 4 x.2.heap 24576 4096).map fun r =>
          (r.pointer, (mallocImpl (limitKernel 4) r.heap 16).map Prod.fst))) =
      some (true, true, some (0, some 24576)) := by
    decide +kernel
  rcases Option.map_eq_some_iff.mp hrun with ⟨t, ht, hresult⟩
  simp only [Prod.mk.injEq, decide_eq_true_eq, Option.map_eq_some_iff] at hresult
  rcases hresult with ⟨hkeeps, hlive, r, hcall, hpointer, ⟨q, heap'⟩, hmalloc, rfl⟩
  refine ⟨t.1, t.2, r, run_of_clientNext ht, hkeeps, hlive, hcall, hpointer, ⟨heap', hmalloc⟩,
    fun hintact => ?_⟩
  -- the allocation right after the call overlaps the block
  have hapart := hintact.later [] ⟨r.heap, t.2.live⟩ (.init rfl) (by simp [Steps]) (by simp [Steps])
    16 _ heap' (by decide) hmalloc (by decide)
  have husable : (⟨.buddy, 24576, 1⟩ : Held).usable = 2048 := by decide
  unfold Held.Apart at hapart
  rw [husable] at hapart
  simp only at hapart
  have hpos : 0 < (⟨issuer 16, 24576, units (issuer 16) 16⟩ : Held).usable := by decide
  omega

end SysProg.Memory
