import Mathlib.Tactic
import SysProg.Memory.BlockSearch
import SysProg.Memory.ReallocRuns

/-!
# The tree pages of a client's run

A page for another tree is mapped only when all trees that have one are full for the request.
There is one exception: `buddy_block_reallocate` passes on sizes that no tree can hold, up to the
direct allocation threshold, and `buddy_block_allocate` maps a page for them all the same.

* `AsksTree` — a reallocation of a buddy block asks for no such size;
* `PageServes` — a new page serves the call that it was mapped for, and nothing else could;
* `client_trees` — one step of the client;
* `pages_serve` — all steps of a run, and the number of pages for one block at a time.
-/

namespace SysProg.Memory

open HeapTree Rows Lts

/-! ## What a step may do -/

/-- A reallocation of a block of the buddy allocators asks for a size that a tree can hold, or
for one above the direct allocation threshold. -/
def AsksTree (op : ClientOp) (_ : ClientState) : Prop :=
  match op with
  | .realloc x size _ => x.owner = .buddy →
      size ≤ buddyAllocatorMaximalAllocation ∨ directAllocationThreshold < size
  | _ => True

def KeepsTrees (op : ClientOp) (s : ClientState) : Prop :=
  KeepsSlots op s ∧ AsksTree op s

/-- The size that a call asks for. -/
def ClientOp.size : ClientOp → Option ℕ
  | .malloc size => some size
  | .realloc _ size _ => some size
  | _ => none

/-- The blocks that a call leaves alone. -/
def ClientOp.others (op : ClientOp) (live : List Held) : List Held :=
  match op with
  | .realloc x _ _ => without x live
  | _ => live

/-- The page was mapped for a call that returned a block of it, when every place for the block in
the trees overlapped another block. -/
structure PageServes (op : ClientOp) (s s' : ClientState) (page : ℕ) : Prop where
  served : ∃ size q, op.size = some size ∧ AlignedBlock page (fitBucket size) q ∧
    s'.live = ⟨.buddy, q, fitBucket size⟩ :: op.others s.live
  full : ∀ size, op.size = some size → ∀ b i a, cell? s.heap.blocks b i = some a → a.page ≠ 0 →
    ∀ p, AlignedBlock a.page (fitBucket size) p →
      ∃ x ∈ op.others s.live, x.owner = .buddy ∧
        Overlap x.pointer x.units p (bucketSize (fitBucket size))

variable {kernel : Kernel} {start s s' : ClientState} {heap heap' : Heap} {x y : Held}
  {p q c b i size rounds : ℕ} {op : ClientOp} {history : List (ClientOp × ClientState)}

/-! ## The functions -/

/-- The other sub-allocators leave the trees alone. -/
theorem mallocImpl_blocks (hsize : ¬ size < slotAllocatorThreshold)
    (hrun : mallocImpl kernel heap size = some (p, heap')) : heap'.blocks = heap.blocks := by
  unfold mallocImpl at hrun
  simp only [if_neg hsize, Option.bind_eq_bind] at hrun
  split at hrun
  · rcases Option.bind_eq_some_iff.mp hrun with ⟨⟨q, part⟩, -, hrun⟩
    rcases Prod.mk.inj (Option.some.inj hrun) with ⟨-, rfl⟩
    rfl
  · rcases Option.bind_eq_some_iff.mp hrun with ⟨⟨q, part⟩, -, hrun⟩
    rcases Prod.mk.inj (Option.some.inj hrun) with ⟨-, rfl⟩
    rfl

theorem freeImpl_trees {found : Option SubAllocator}
    (hrun : freeImpl kernel heap p = some (found, heap')) : SameTrees heap.blocks heap'.blocks := by
  simp only [freeImpl, Option.bind_eq_bind, Option.bind_eq_some_iff] at hrun
  rcases hrun with ⟨⟨direct, part⟩, -, hrun⟩
  split at hrun
  · rcases Prod.mk.inj (Option.some.inj hrun) with ⟨-, rfl⟩
    exact .refl
  · simp only [Option.bind_eq_some_iff] at hrun
    rcases hrun with ⟨⟨slot, part'⟩, -, hrun⟩
    split at hrun
    · rcases Prod.mk.inj (Option.some.inj hrun) with ⟨-, rfl⟩
      exact .refl
    · simp only [Option.bind_eq_some_iff] at hrun
      rcases hrun with ⟨⟨buddy, part''⟩, hbuddy, hrun⟩
      rcases Prod.mk.inj (Option.some.inj hrun) with ⟨-, rfl⟩
      exact blockDeallocate_trees hbuddy

/-- After `buddy_block_reallocate` no tree gets a page any more. -/
theorem reallocImpl_trees {r : HeapReallocated} (hrun : reallocImpl kernel rounds heap p size = some r) :
    ∃ first, buddyBlockReallocate kernel heap.buddy p size = some first ∧
      SameTrees first.heap.blocks r.heap.blocks ∧
      (first.pointer ≠ 0 → r.pointer = first.pointer ∧ r.heap = heap.setBuddy first.heap) := by
  simp only [reallocImpl, Option.bind_eq_bind, Option.bind_eq_some_iff] at hrun
  rcases hrun with ⟨first, hfirst, hrun⟩
  refine ⟨first, hfirst, ?_⟩
  split at hrun
  · rcases Option.some.inj hrun with rfl
    exact ⟨.refl, fun _ => ⟨rfl, rfl⟩⟩
  · rename_i hnull
    refine ⟨?_, fun hne => absurd hne hnull⟩
    split at hrun
    · -- the slot allocator and the direct allocator
      simp only [reallocateElsewhere, Option.bind_eq_bind, Option.bind_eq_some_iff] at hrun
      rcases hrun with ⟨slot, -, hrun⟩
      split at hrun
      · rcases Option.some.inj hrun with rfl
        exact .refl
      · simp only [Option.bind_eq_some_iff] at hrun
        rcases hrun with ⟨direct, -, hrun⟩
        rcases Option.some.inj hrun with rfl
        exact .refl
    · simp only [moveToDirect, Option.bind_eq_bind, Option.bind_eq_some_iff] at hrun
      rcases hrun with ⟨⟨insertion, part⟩, -, hrun⟩
      split at hrun
      · rcases Option.some.inj hrun with rfl
        exact .refl
      · simp only [Option.bind_eq_some_iff] at hrun
        rcases hrun with ⟨⟨found, part'⟩, hbuddy, hrun⟩
        rcases Option.some.inj hrun with rfl
        have hsame : SameTrees ((heap.setBuddy first.heap).setDirect part).buddy.blocks part'.blocks :=
          blockDeallocate_trees hbuddy
        exact hsame

/-! ## One step -/

/-- Every place in the trees overlaps a block of the client. -/
theorem full_of_newTree {heap₁ : BuddyHeap} {page : ℕ} {live : List Held}
    (hr : RegionsOk (buddyRegion heap₁.blocks) heap₁.os) (hpacked : Packed heap₁.blocks)
    (hsame : SameTrees heap.blocks heap₁.blocks)
    (hlive : ∀ q d, heap₁.Allocated q d → (⟨.buddy, q, d⟩ : Held) ∈ live)
    (hmax : size ≤ buddyAllocatorMaximalAllocation) {r : ℕ} (hnew : NewTree heap₁ size r b i page) :
    ∀ k j a, cell? heap.blocks k j = some a → a.page ≠ 0 →
      ∀ p, AlignedBlock a.page (fitBucket size) p →
        ∃ x ∈ live, x.owner = .buddy ∧ Overlap x.pointer x.units p (bucketSize (fitBucket size)) := by
  intro k j a ha hpage p hp
  rcases hsame.kept k j a ha hpage with ⟨a₁, ha₁, heq⟩
  rw [← heq] at hpage hp
  have hbefore := hpacked.before hnew.bound hnew.unused ha₁ hpage
  have hfull := (hnew.before k j a₁ hbefore ha₁).2
  rcases (not_room_iff hr ha₁ hpage hmax).mp hfull p hp with ⟨q, d, hq, hover⟩
  exact ⟨_, hlive q d hq, rfl, hover⟩

/-- What a step does to the trees. -/
structure TreesStep (op : ClientOp) (s s' : ClientState) : Prop where
  packed : Packed s'.heap.blocks
  trees : TreesGrow s.heap.blocks s'.heap.blocks fun _ _ page => PageServes op s s' page

theorem TreesStep.of_same (hpacked : Packed s.heap.blocks)
    (hsame : SameTrees s.heap.blocks s'.heap.blocks) : TreesStep op s s' := by
  have hbuddy : SameTrees s.heap.buddy.blocks s'.heap.buddy.blocks := hsame
  exact ⟨SameTrees.packed hbuddy hpacked, hsame.mono fun _ _ _ hfalse => hfalse.elim⟩

theorem malloc_trees (h : ClientInv s) (hpacked : Packed s.heap.blocks) (hkernel : kernel.Succeeds)
    (hsize : 1 ≤ size) (hstep : clientStep kernel rounds (.malloc size) s = some s') :
    TreesStep (.malloc size) s s' := by
  by_cases hbuddy : size < slotAllocatorThreshold
  · have hmax : size ≤ buddyAllocatorMaximalAllocation := by
      have h500 : slotAllocatorThreshold = 500 := rfl
      have h4096 : buddyAllocatorMaximalAllocation = 4096 := rfl
      omega
    rcases blockAllocate_spec h.ok.buddy h.ok.buddyRegions hsize hkernel hmax with
      ⟨⟨q, part⟩, halloc, hpost⟩
    have hgrow := blockAllocate_trees h.ok.buddy hsize halloc
    have hnew : part.Allocated q (fitBucket size) := (hpost.allocated _ _).mpr (.inr ⟨rfl, rfl⟩)
    have hmalloc : mallocImpl kernel s.heap size = some (q, s.heap.setBuddy part) := by
      simp only [mallocImpl, if_pos hbuddy, halloc]
      rfl
    cases called_of_step hstep with
    | refused _ heap' hrun =>
      -- with memory for every request there is a block
      rcases Prod.mk.inj (Option.some.inj (hmalloc.symm.trans hrun)) with ⟨hnull, -⟩
      exact absurd hnull hnew.nonzero
    | served _ p heap' hrun _ =>
      rcases Prod.mk.inj (Option.some.inj (hmalloc.symm.trans hrun)) with ⟨rfl, rfl⟩
      refine ⟨hgrow.packed hpacked, hgrow.mono fun b i page hpage => ⟨?_, ?_⟩⟩
      · rcases hpage.inside hmax with ⟨n, hn⟩
        refine ⟨size, q, rfl, (aligned_iff (fitBucket_le size)).mpr ⟨n, hn⟩, ?_⟩
        simp only [issuer, if_pos hbuddy, units, ClientOp.others]
      · intro size' hsize'
        rcases Option.some.inj hsize' with rfl
        exact full_of_newTree h.ok.buddyRegions hpacked .refl
          (fun q d hq => (h.issued .buddy q d).mp hq) hmax hpage
  · -- another sub-allocator
    have hblocks : s'.heap.blocks = s.heap.blocks := by
      cases called_of_step hstep with
      | served _ p heap' hrun | refused _ heap' hrun => exact mallocImpl_blocks hbuddy hrun
    refine .of_same hpacked ?_
    rw [hblocks]
    exact .refl

section Calls

variable (h : ClientInv s) (h' : ClientInv s') (hpacked : Packed s.heap.blocks)
  (hkernel : kernel.Succeeds)
include h h' hpacked hkernel

/-- The block is in a tree. -/
theorem realloc_trees_buddy (hx : (⟨.buddy, p, c⟩ : Held) ∈ s.live) {r : HeapReallocated}
    (hrun : reallocImpl kernel rounds s.heap p size = some r) (hheap : s'.heap = r.heap)
    (hlive : r.pointer ≠ 0 →
      s'.live = Held.regrant ⟨.buddy, p, c⟩ r.heap r.pointer size :: without ⟨.buddy, p, c⟩ s.live)
    (hasks : size ≤ buddyAllocatorMaximalAllocation ∨ directAllocationThreshold < size) :
    TreesStep (.realloc ⟨.buddy, p, c⟩ size r.pointer) s s' := by
  have hall : s.heap.buddy.Allocated p c := h.allocated hx
  rcases reallocImpl_trees hrun with ⟨first, hfirst, hafter, hserved⟩
  cases blockReallocate_way h.ok.buddy h.ok.buddyRegions hall hfirst with
  | inTree hsame =>
    refine .of_same hpacked ?_
    rw [hheap]
    exact .of_same hsame hafter
  | elsewhere heap₁ hvacated hsame hsize hmax halloc =>
    have hr₁ := hvacated.regions h.ok.buddyRegions
    have hpacked₁ : Packed heap₁.blocks := SameTrees.packed hsame hpacked
    have hgrow := blockAllocate_trees hvacated.ok hsize halloc
    rcases blockAllocate_spec hvacated.ok hr₁ hsize hkernel hmax with ⟨t, ht, hpost⟩
    rcases Option.some.inj (halloc.symm.trans ht) with rfl
    have hnew : first.heap.Allocated first.pointer (fitBucket size) :=
      (hpost.allocated _ _).mpr (.inr ⟨rfl, rfl⟩)
    rcases hserved hnew.nonzero with ⟨hpointer, hrheap⟩
    have hblocks : s'.heap.blocks = first.heap.blocks := by
      rw [hheap, hrheap]
      rfl
    have hgrant : Held.regrant ⟨.buddy, p, c⟩ r.heap r.pointer size =
        ⟨.buddy, first.pointer, fitBucket size⟩ := by
      rw [hpointer]
      refine regrant_buddy (hheap ▸ h'.ok) ?_
      rw [hrheap]
      exact hnew
    rw [hgrant] at hlive
    refine ⟨?_, ?_⟩
    · rw [hblocks]
      exact hgrow.packed hpacked₁
    · rw [hblocks]
      refine .of_same hsame (hgrow.mono fun b i page hpage => ⟨?_, ?_⟩)
      · rcases hpage.inside hmax with ⟨n, hn⟩
        exact ⟨size, first.pointer, rfl, (aligned_iff (fitBucket_le size)).mpr ⟨n, hn⟩,
          hlive (hpointer ▸ hnew.nonzero)⟩
      · intro size' hsize'
        rcases Option.some.inj hsize' with rfl
        refine full_of_newTree hr₁ hpacked₁ hsame (fun q d hq => ?_) hmax hpage
        -- the block itself has been released
        rcases (hvacated.allocated q d).mp hq with ⟨hold, hne⟩
        exact (h.mem_without_iff hx).mpr ⟨hold, hne⟩
  | tooLarge hlarge hle halloc =>
    rcases hasks with hmax | hdirect
    · exact absurd hmax (not_le.mpr hlarge)
    · exact absurd hle (not_le.mpr hdirect)

theorem realloc_trees (hx : x ∈ s.live) {r : HeapReallocated}
    (hrun : reallocImpl kernel rounds s.heap x.pointer size = some r) (hheap : s'.heap = r.heap)
    (hlive : r.pointer ≠ 0 → s'.live = x.regrant r.heap r.pointer size :: without x s.live)
    (hasks : AsksTree (.realloc x size r.pointer) s) :
    TreesStep (.realloc x size r.pointer) s s' := by
  rcases x with ⟨o, p, c⟩
  by_cases howner : o = .buddy
  · subst howner
    exact realloc_trees_buddy h h' hpacked hkernel hx hrun hheap hlive (hasks rfl)
  · -- a pointer into no tree
    rcases reallocImpl_trees hrun with ⟨first, hfirst, hafter, -⟩
    have hforeign : buddyBlockReallocate kernel s.heap.buddy p size =
        some ⟨0, 0, initialBlock kernel s.heap.buddy, []⟩ :=
      blockReallocate_foreign kernel (buddy_foreign h.ok (h.allocated hx) howner)
    rcases Option.some.inj (hfirst.symm.trans hforeign) with rfl
    refine .of_same hpacked ?_
    rw [hheap]
    exact .of_same (BlocksOpened.sameTrees (initialBlock_opened kernel s.heap.buddy)) hafter

/-- A step of the client maps tree pages only for what they serve. -/
theorem client_trees (hallowed : op.Allowed s) (hasks : AsksTree op s)
    (hstep : clientStep kernel rounds op s = some s') : TreesStep op s s' := by
  cases called_of_step hstep with
  | served | refused => exact malloc_trees h hpacked hkernel hallowed hstep
  | freed x found heap' hrun => exact .of_same hpacked (freeImpl_trees hrun)
  | moved x size rounds' r hrun _ =>
    exact realloc_trees h h' hpacked hkernel hallowed.1 hrun rfl (fun _ => rfl) hasks
  | failed x size rounds' r hrun hnull =>
    exact realloc_trees h h' hpacked hkernel hallowed.1 hrun rfl (fun hne => absurd hnull hne) hasks
  | wrote | unseen => exact .of_same hpacked .refl

end Calls

/-! ## Whole runs -/

/-- What holds along a run. -/
structure TreesInv (s : ClientState) : Prop where
  client : ClientInv s
  packed : Packed s.heap.blocks

theorem TreesInv.step (h : TreesInv s) (hkernel : kernel.Succeeds) (hkeeps : KeepsTrees op s)
    (hnext : (clientSystem kernel start).Next op s s') : TreesInv s' ∧ TreesStep op s s' := by
  rcases hnext with ⟨hallowed, rounds, hstep⟩
  have h' := client_step h.client hkeeps.1 (.inr hkernel) hallowed hstep
  have htrees := client_trees h.client h' h.packed hkernel hallowed hkeeps.2 hstep
  exact ⟨⟨h', htrees.packed⟩, htrees⟩

theorem trees_always (hkernel : kernel.Succeeds) (hr : Run (clientSystem kernel noBlocks) history s)
    (hkeeps : Steps KeepsTrees history) : TreesInv s := by
  refine (hr.always_of_steps ?_ ?_ hkeeps).1
  · intro t ht
    rw [show t = noBlocks from ht]
    exact ⟨noBlocks_inv, packed_nil⟩
  · intro op t t' h hguard hnext
    exact (h.step hkernel hguard hnext).1

/-- At most one tree has a page. -/
def OneTree (blocks : List BuddyBlock) : Prop :=
  ∀ b i a b' i' a', cell? blocks b i = some a → a.page ≠ 0 → cell? blocks b' i' = some a' →
    a'.page ≠ 0 → b = b' ∧ i = i'

theorem AlignedBlock.first (page c : ℕ) : AlignedBlock page c page :=
  ⟨le_rfl, by simp, Nat.add_le_add_left (bucketSize_le c) page⟩

/-- With at most one block live after the call, a page is mapped only if there is none. -/
theorem PageServes.none_before {page : ℕ} (h : PageServes op s s' page)
    (hone : s'.live.length ≤ 1) {a : BuddyAllocator} (ha : cell? s.heap.blocks b i = some a) :
    a.page = 0 := by
  by_contra hpage
  rcases h.served with ⟨size, q, hsize, -, hlive⟩
  rcases h.full size hsize b i a ha hpage a.page (.first _ _) with ⟨z, hz, -⟩
  rw [hlive, List.length_cons] at hone
  have hpos := List.length_pos_of_mem hz
  omega

theorem OneTree.step (h : OneTree s.heap.blocks) (h' : ClientInv s') (htrees : TreesStep op s s')
    (hone : s'.live.length ≤ 1) : OneTree s'.heap.blocks := by
  intro b i a b' i' a' ha hpage ha' hpage'
  rcases htrees.trees.opened b i a ha hpage with ⟨x, hx, hxpage⟩ | hnew
  · rcases htrees.trees.opened b' i' a' ha' hpage' with ⟨x', hx', hxpage'⟩ | hnew'
    · exact h b i x b' i' x' hx (hxpage ▸ hpage) hx' (hxpage' ▸ hpage')
    · exact absurd (hxpage.symm.trans (hnew'.none_before hone hx)) hpage
  · rcases htrees.trees.opened b' i' a' ha' hpage' with ⟨x', hx', hxpage'⟩ | hnew'
    · exact absurd (hxpage'.symm.trans (hnew.none_before hone hx')) hpage'
    · -- the block that was returned lies on both pages
      rcases hnew.served with ⟨size, q, hsize, hq, hlive⟩
      rcases hnew'.served with ⟨size', q', hsize', hq', hlive'⟩
      rcases Option.some.inj (hsize.symm.trans hsize') with rfl
      rw [hlive] at hlive'
      obtain rfl : q = q' := by simpa using hlive'
      have hpos := bucketSize_pos (fitBucket_le size)
      have hextent : pageExtent buddyAllocatorMaximalAllocation = buddyAllocatorMaximalAllocation := rfl
      have hfits := hq.fits
      have hfits' := hq'.fits
      have hcell := h'.ok.buddyRegions.apart _ _ _ _ q (buddyRegion_tree ha hpage)
        (buddyRegion_tree ha' hpage') ⟨hq.start, by simp only [hextent]; omega⟩
        ⟨hq'.start, by simp only [hextent]; omega⟩
      simpa using hcell

theorem one_tree (hkernel : kernel.Succeeds) (hr : Run (clientSystem kernel noBlocks) history s)
    (hkeeps : Steps KeepsTrees history) (hone : Always (fun t => t.live.length ≤ 1) history s) :
    OneTree s.heap.blocks := by
  induction hr with
  | init h0 =>
    rcases h0 with rfl
    intro b i a b' i' a' ha
    simp [noBlocks, cell?] at ha
  | @step history s s' op hrun hnext ih =>
    have hprev : Steps KeepsTrees history := fun x hx => hkeeps x (List.mem_cons_of_mem _ hx)
    have hinv := trees_always hkernel hrun hprev
    rcases hinv.step hkernel (hkeeps (op, s) List.mem_cons_self) hnext with ⟨hinv', htrees⟩
    refine (ih hprev ⟨hone.2 (op, s) List.mem_cons_self, fun x hx => ?_⟩).step hinv'.client htrees hone.1
    exact hone.2 x (List.mem_cons_of_mem _ hx)

/-- In a run in which no reallocation asks the trees for more than they can hold, a page that is
mapped for a tree serves the call, and every place in the other trees was in use. With one block
at a time there is at most one tree. -/
theorem pages_serve (hkernel : kernel.Succeeds) (hr : Run (clientSystem kernel noBlocks) history s)
    (hkeeps : Steps KeepsTrees history) :
    (∀ op s', KeepsTrees op s → (clientSystem kernel noBlocks).Next op s s' →
      TreesGrow s.heap.blocks s'.heap.blocks fun _ _ page => PageServes op s s' page) ∧
    (Always (fun t => t.live.length ≤ 1) history s → OneTree s.heap.blocks) := by
  refine ⟨fun op s' hguard hnext => ?_, one_tree hkernel hr hkeeps⟩
  exact ((trees_always hkernel hr hkeeps).step hkernel hguard hnext).2.trees

instance (op : ClientOp) (s : ClientState) : Decidable (AsksTree op s) :=
  match op with
  | .realloc x size _ => inferInstanceAs (Decidable (x.owner = .buddy →
      size ≤ buddyAllocatorMaximalAllocation ∨ directAllocationThreshold < size))
  | .malloc _ | .free _ | .write _ _ => inferInstanceAs (Decidable True)

instance (op : ClientOp) (s : ClientState) : Decidable (KeepsTrees op s) :=
  inferInstanceAs (Decidable (_ ∧ _))

theorem next_of_clientNext (h : clientNext kernel op s = some s') :
    (clientSystem kernel noBlocks).Next op s s' := by
  unfold clientNext at h
  split at h
  · exact ⟨‹_›, _, h⟩
  · cases h

/-- A block that has grown to the whole page leaves no place for another one, which comes from
a page of its own. -/
theorem pages_serve_second :
    ∃ history s s', Run (clientSystem bumpKernel noBlocks) history s ∧ Steps KeepsTrees history ∧
      OneTree s.heap.blocks ∧ s'.live = [⟨.buddy, 12288, 8⟩, ⟨.buddy, 8192, 0⟩] ∧
      PageServes (.malloc 16) s s' 12288 := by
  have hrun : ((exec (clientNext bumpKernel)
      [.malloc 16, .realloc ⟨.buddy, 8192, 8⟩ 4096 8192] [] noBlocks).bind fun x =>
      (clientNext bumpKernel (.malloc 16) x.2).map fun s' => (decide (Steps KeepsTrees x.1),
        decide (x.2.live.length ≤ 1 ∧ ∀ y ∈ x.1, y.2.live.length ≤ 1), s'.live,
        (cell? x.2.heap.blocks 0 1).map BuddyAllocator.page,
        (cell? s'.heap.blocks 0 1).map BuddyAllocator.page)) =
      some (true, true, [⟨.buddy, 12288, 8⟩, ⟨.buddy, 8192, 0⟩], some 0, some 12288) := by
    decide +kernel
  simp only [Option.bind_eq_some_iff, Option.map_eq_some_iff, Prod.mk.injEq,
    decide_eq_true_eq] at hrun
  rcases hrun with ⟨t, ht, s', hs', hkeeps, hone, hlive, ⟨a, ha, hpage⟩, a', ha', hpage'⟩
  have hr := run_of_clientNext ht
  have hall := pages_serve bumpKernel_succeeds hr hkeeps
  have htrees := hall.1 (.malloc 16) s' ⟨trivial, trivial⟩ (next_of_clientNext hs')
  refine ⟨t.1, t.2, s', hr, hkeeps, hall.2 hone, hlive, ?_⟩
  -- the second tree has no page before the call
  rcases htrees.opened 0 1 a' ha' (by omega) with ⟨x, hx, hxpage⟩ | hserves
  · rw [ha] at hx
    rcases Option.some.inj hx with rfl
    omega
  · exact hpage' ▸ hserves

/-- `realloc(p, 5000)` of a block of 16 bytes maps a page for a second tree and returns a block
of the direct allocator. The same with one block at a time. -/
theorem page_serves_nothing :
    bumpKernel.Succeeds ∧ ∃ history s s', Run (clientSystem bumpKernel noBlocks) history s ∧
      Always (fun t => t.live.length ≤ 1) history s ∧ s.live = [⟨.buddy, 8192, 8⟩] ∧
      (clientSystem bumpKernel noBlocks).Next (.realloc ⟨.buddy, 8192, 8⟩ 5000 20480) s s' ∧
      s'.live = [⟨.direct, 20480, 5000⟩] ∧ ¬ OneTree s'.heap.blocks ∧
      ¬ TreesGrow s.heap.blocks s'.heap.blocks
        fun _ _ page => PageServes (.realloc ⟨.buddy, 8192, 8⟩ 5000 20480) s s' page := by
  refine ⟨bumpKernel_succeeds, ?_⟩
  have hrun : ((exec (clientNext bumpKernel) [.malloc 16] [] noBlocks).bind fun x =>
      (clientNext bumpKernel (.realloc ⟨.buddy, 8192, 8⟩ 5000 20480) x.2).map fun s' =>
        (decide (x.2.live.length ≤ 1 ∧ ∀ y ∈ x.1, y.2.live.length ≤ 1), x.2.live, s'.live,
          [(cell? x.2.heap.blocks 0 1).map BuddyAllocator.page,
            (cell? s'.heap.blocks 0 0).map BuddyAllocator.page,
            (cell? s'.heap.blocks 0 1).map BuddyAllocator.page])) =
      some (true, [⟨.buddy, 8192, 8⟩], [⟨.direct, 20480, 5000⟩],
        [some 0, some 8192, some 12288]) := by
    decide +kernel
  simp only [Option.bind_eq_some_iff, Option.map_eq_some_iff, Prod.mk.injEq,
    decide_eq_true_eq, List.cons.injEq, and_true] at hrun
  rcases hrun with ⟨t, ht, s', hs', hone, hold, hlive, ⟨a, ha, hpage⟩, ⟨a₀, ha₀, hpage₀⟩, a', ha',
    hpage'⟩
  refine ⟨t.1, t.2, s', run_of_clientNext ht, hone, hold, next_of_clientNext hs', hlive, ?_, ?_⟩
  · intro htree
    have hsame := htree 0 0 a₀ 0 1 a' ha₀ (by omega) ha' (by omega)
    omega
  · intro htrees
    rcases htrees.opened 0 1 a' ha' (by omega) with ⟨x, hx, hxpage⟩ | hserves
    · rw [ha] at hx
      rcases Option.some.inj hx with rfl
      omega
    · -- the block that was returned is none of a tree
      rcases hserves.served with ⟨size, q, -, -, hhead⟩
      rw [hlive] at hhead
      simp at hhead

end SysProg.Memory
