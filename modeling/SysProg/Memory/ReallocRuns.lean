import Mathlib.Tactic
import SysProg.Lib.Lts
import SysProg.Memory.Realloc

/-!
# Runs of `malloc_impl`, `free_impl` and `realloc_impl`

A client calls the three functions on its own blocks and writes to them. Page requests may
fail; a call that follows a null pointer or does not return is no step.

* `clientSystem` — the transition system; the state pairs the heap with the client's account
  of its blocks;
* `KeepsSlots`, `KeepsBlocks` — the steps that keep the account right;
* `ClientInv` — the blocks of the client are those that the sub-allocators have handed out;
* `client_always` — it holds along every run with such steps.
-/

namespace SysProg.Memory

open ByteMemory Rows Spans Lts

/-! ## The system -/

structure ClientState where
  heap : Heap
  live : List Held

/-- A call of the client, for `realloc` with the pointer it returned. -/
inductive ClientOp where
  | malloc (size : ℕ)
  | free (block : Held)
  | realloc (block : Held) (size result : ℕ)
  | write (block : Held) (headers : ℕ → Slot)

/-- The client asks for at least one byte, and uses only blocks that are live. -/
def ClientOp.Allowed (s : ClientState) : ClientOp → Prop
  | .malloc size => 1 ≤ size
  | .free x => x ∈ s.live
  | .realloc x size _ => x ∈ s.live ∧ 1 ≤ size
  | .write x _ => x ∈ s.live

/-- The blocks other than `x`. -/
def without (x : Held) (live : List Held) : List Held :=
  live.filter fun y => y ≠ x

/-- One call of the client, and its account of the blocks afterwards. A block is live until
it was freed, or a reallocation of it has succeeded. -/
def clientStep (kernel : Kernel) (rounds : ℕ) (op : ClientOp) (s : ClientState) :
    Option ClientState :=
  match op with
  | .malloc size => do
      let (p, heap) ← mallocImpl kernel s.heap size
      if p = 0 then return ⟨heap, s.live⟩
      return ⟨heap, ⟨issuer size, p, units (issuer size) size⟩ :: s.live⟩
  | .free x => do
      let (_, heap) ← freeImpl kernel s.heap x.pointer
      return ⟨heap, without x s.live⟩
  | .realloc x size result => do
      let r ← reallocImpl kernel rounds s.heap x.pointer size
      if r.pointer ≠ result then none
      else if r.pointer = 0 then return ⟨r.heap, s.live⟩
      else return ⟨r.heap, x.regrant r.heap r.pointer size :: without x s.live⟩
  | .write x headers =>
      if x.owner = .slot then do
        let part ← writeBlock s.heap.slot ⟨x.pointer, x.units⟩ headers
        return ⟨s.heap.setSlot part, s.live⟩
      else some s

/-- The calls that return, from the state `start` on. -/
def clientSystem (kernel : Kernel) (start : ClientState) : System ClientState ClientOp where
  Init s := s = start
  Next op s s' := op.Allowed s ∧ ∃ rounds, clientStep kernel rounds op s = some s'

def noBlocks : ClientState := ⟨⟨[], [], [], []⟩, []⟩

/-- What a call that returns does to the heap and to the account of the client. -/
inductive Called (kernel : Kernel) (s : ClientState) : ClientOp → ClientState → Prop where
  | served (size p : ℕ) (heap : Heap) : mallocImpl kernel s.heap size = some (p, heap) → p ≠ 0 →
      Called kernel s (.malloc size) ⟨heap, ⟨issuer size, p, units (issuer size) size⟩ :: s.live⟩
  | refused (size : ℕ) (heap : Heap) : mallocImpl kernel s.heap size = some (0, heap) →
      Called kernel s (.malloc size) ⟨heap, s.live⟩
  | freed (x : Held) (found : Option SubAllocator) (heap : Heap) :
      freeImpl kernel s.heap x.pointer = some (found, heap) →
      Called kernel s (.free x) ⟨heap, without x s.live⟩
  | moved (x : Held) (size rounds : ℕ) (r : HeapReallocated) :
      reallocImpl kernel rounds s.heap x.pointer size = some r → r.pointer ≠ 0 →
      Called kernel s (.realloc x size r.pointer)
        ⟨r.heap, x.regrant r.heap r.pointer size :: without x s.live⟩
  | failed (x : Held) (size rounds : ℕ) (r : HeapReallocated) :
      reallocImpl kernel rounds s.heap x.pointer size = some r → r.pointer = 0 →
      Called kernel s (.realloc x size r.pointer) ⟨r.heap, s.live⟩
  | wrote (x : Held) (headers : ℕ → Slot) (part : SlotHeap) : x.owner = .slot →
      writeBlock s.heap.slot ⟨x.pointer, x.units⟩ headers = some part →
      Called kernel s (.write x headers) ⟨s.heap.setSlot part, s.live⟩
  | unseen (x : Held) (headers : ℕ → Slot) : x.owner ≠ .slot → Called kernel s (.write x headers) s

theorem called_of_step {kernel : Kernel} {rounds : ℕ} {op : ClientOp} {s s' : ClientState}
    (hstep : clientStep kernel rounds op s = some s') : Called kernel s op s' := by
  cases op with
  | malloc size =>
    simp only [clientStep, Option.bind_eq_bind, Option.bind_eq_some_iff] at hstep
    rcases hstep with ⟨⟨p, heap⟩, hrun, hstep⟩
    simp only at hstep
    split at hstep
    · rename_i hnull
      subst hnull
      exact Option.some.inj hstep ▸ .refused size heap hrun
    · rename_i hne
      exact Option.some.inj hstep ▸ .served size p heap hrun hne
  | free x =>
    simp only [clientStep, Option.bind_eq_bind, Option.bind_eq_some_iff] at hstep
    rcases hstep with ⟨⟨found, heap⟩, hrun, hstep⟩
    exact Option.some.inj hstep ▸ .freed x found heap hrun
  | realloc x size result =>
    simp only [clientStep, Option.bind_eq_bind, Option.bind_eq_some_iff] at hstep
    rcases hstep with ⟨r, hrun, hstep⟩
    -- the label names the pointer that the call returns
    split at hstep
    · cases hstep
    · rename_i hresult
      rcases not_not.mp hresult with rfl
      split at hstep
      · rename_i hnull
        exact Option.some.inj hstep ▸ .failed x size rounds r hrun hnull
      · rename_i hne
        exact Option.some.inj hstep ▸ .moved x size rounds r hrun hne
  | write x headers =>
    simp only [clientStep] at hstep
    split at hstep
    · rename_i howner
      rcases Option.bind_eq_some_iff.mp hstep with ⟨part, hrun, hstep⟩
      exact Option.some.inj hstep ▸ .wrote x headers part howner hrun
    · rename_i howner
      exact Option.some.inj hstep ▸ .unseen x headers howner

/-- A reallocation of slots strands no cursor, and its size does not wrap around to no slots
at all. -/
def KeepsSlots (op : ClientOp) (s : ClientState) : Prop :=
  match op with
  | .realloc x size _ => x.owner = .slot →
      0 < requiredSlots size ∧ overrunsCursor s.heap.slot x.pointer size = false
  | _ => True

/-- A reallocation that fails leaves the block as it was. -/
def LosesNothing (op : ClientOp) (s : ClientState) : Prop :=
  match op with
  | .realloc x size result => result = 0 → givesUp s.heap x size = false
  | _ => True

def KeepsBlocks (op : ClientOp) (s : ClientState) : Prop :=
  KeepsSlots op s ∧ LosesNothing op s

/-! ## The invariant -/

/-- The blocks of the client are those that the sub-allocators have handed out. -/
structure ClientInv (s : ClientState) : Prop where
  ok : HeapOk s.heap
  issued : ∀ o p k, s.heap.Allocated o p k ↔ (⟨o, p, k⟩ : Held) ∈ s.live
  distinct : (s.live.map Held.pointer).Nodup

/-- Two blocks have no byte in common. -/
def Held.Apart (x y : Held) : Prop :=
  x.pointer + x.usable ≤ y.pointer ∨ y.pointer + y.usable ≤ x.pointer

variable {kernel : Kernel} {start s s' : ClientState} {heap heap' : Heap} {live : List Held}
  {o : SubAllocator} {x y z : Held} {p q k m size rounds : ℕ} {op : ClientOp}
  {history : List (ClientOp × ClientState)} {r : HeapReallocated}

theorem mem_without : y ∈ without x live ↔ y ∈ live ∧ y ≠ x := by
  simp [without]

namespace ClientInv

variable (h : ClientInv s)
include h

theorem allocated (hx : x ∈ s.live) : s.heap.Allocated x.owner x.pointer x.units :=
  (h.issued _ _ _).mpr hx

/-- A block is known by its pointer. -/
theorem eq_of_pointer (hx : x ∈ s.live) (hy : y ∈ s.live) (hp : y.pointer = x.pointer) : y = x :=
  List.inj_on_of_nodup_map h.distinct hy hx hp

theorem apart (hx : x ∈ s.live) (hy : y ∈ s.live) (hne : y ≠ x) : x.Apart y := by
  refine h.ok.disjoint (h.allocated hx) (h.allocated hy) fun heq => hne ?_
  exact h.eq_of_pointer hx hy (Prod.mk.inj heq).2.symm

omit h in
/-- The newest block has no byte in common with the others. -/
theorem head_apart (h : ClientInv ⟨heap, y :: live⟩) (hz : z ∈ live) : y.Apart z := by
  refine h.apart List.mem_cons_self (List.mem_cons_of_mem _ hz) fun heq => ?_
  have hdistinct := h.distinct
  rw [List.map_cons, List.nodup_cons] at hdistinct
  exact hdistinct.1 (List.mem_map.mpr ⟨z, hz, by rw [heq]⟩)

theorem pass (hpost : Passed s.heap heap') : ClientInv ⟨heap', s.live⟩ :=
  ⟨hpost.ok, fun o p k => by rw [hpost.allocated, h.issued], h.distinct⟩

theorem add (hpost : Granted s.heap o p k heap') : ClientInv ⟨heap', ⟨o, p, k⟩ :: s.live⟩ := by
  refine ⟨hpost.ok, ?_, ?_⟩
  · intro o' q m
    rw [hpost.allocated, h.issued, List.mem_cons, Held.mk.injEq]
    exact or_comm
  · rw [List.map_cons, List.nodup_cons]
    refine ⟨fun hmem => ?_, h.distinct⟩
    rcases List.mem_map.mp hmem with ⟨y, hy, hyp⟩
    have hold := h.allocated hy
    rw [hyp] at hold
    exact hpost.unallocated hold

/-- The other blocks are those with other pointers. -/
theorem mem_without_iff (hx : x ∈ s.live) :
    (⟨o, p, k⟩ : Held) ∈ without x s.live ↔ s.heap.Allocated o p k ∧ p ≠ x.pointer := by
  rw [mem_without, h.issued]
  refine and_congr_right fun hy => not_congr ⟨fun heq => by rw [← heq], fun hp => ?_⟩
  exact h.eq_of_pointer hx hy hp

omit h in
theorem distinct_without (hdistinct : (live.map Held.pointer).Nodup) :
    ((without x live).map Held.pointer).Nodup :=
  hdistinct.sublist (List.filter_sublist.map _)

theorem free (hx : x ∈ s.live) (hpost : Freed s.heap x.pointer heap') :
    ClientInv ⟨heap', without x s.live⟩ := by
  refine ⟨hpost.ok, ?_, distinct_without h.distinct⟩
  intro o p k
  rw [hpost.allocated, h.mem_without_iff hx]

theorem move (hx : x ∈ s.live) (hpost : Moved s.heap x y heap') :
    ClientInv ⟨heap', y :: without x s.live⟩ := by
  refine ⟨hpost.ok, ?_, ?_⟩
  · intro o p k
    rw [hpost.allocated, List.mem_cons, h.mem_without_iff hx]
    exact or_comm
  · rw [List.map_cons, List.nodup_cons]
    refine ⟨fun hmem => ?_, distinct_without h.distinct⟩
    rcases List.mem_map.mp hmem with ⟨z, hz, hzy⟩
    rcases mem_without.mp hz with ⟨hzlive, hzx⟩
    have hne : z.pointer ≠ x.pointer := fun heq => hzx (h.eq_of_pointer hx hzlive heq)
    -- a live block at the new pointer would be one of the same sub-allocator
    have hold := h.allocated hzlive
    have hkept := (hpost.allocated _ _ _).mpr (.inl ⟨hold, hne⟩)
    have hnew := (hpost.allocated _ _ _).mpr (.inr rfl)
    rw [hzy] at hold hkept hne
    have howner := hpost.ok.owner_unique hnew hkept
    exact hpost.fresh hne _ (howner ▸ hold)

theorem write_passes (kernel : Kernel) (hx : x ∈ s.live) (howner : x.owner = .slot)
    (headers : ℕ → Slot) :
    ∃ part, writeBlock s.heap.slot ⟨x.pointer, x.units⟩ headers = some part ∧
      Passed s.heap (s.heap.setSlot part) := by
  have hused := h.allocated hx
  rw [howner] at hused
  exact h.ok.write_passes kernel hused headers

end ClientInv

theorem noBlocks_inv : ClientInv noBlocks := by
  have hempty := malloc_init_inv
  refine ⟨hempty.ok, ?_, by simp [noBlocks]⟩
  intro o p k
  have hnone := hempty.issued o p k
  simp only [emptyHeap, List.not_mem_nil, false_and, exists_false, iff_false] at hnone
  simp only [noBlocks, List.not_mem_nil, iff_false]
  exact hnone

/-- Every step that strands no cursor and loses no block keeps the invariant. -/
theorem client_step (h : ClientInv s) (hslots : KeepsSlots op s)
    (hblocks : LosesNothing op s ∨ kernel.Succeeds) (hallowed : op.Allowed s)
    (hstep : clientStep kernel rounds op s = some s') : ClientInv s' := by
  cases called_of_step hstep with
  | served size p heap' hrun hne =>
    cases malloc_post h.ok hallowed hrun with
    | served hpost => exact h.add hpost
    | refused hnull => exact absurd hnull hne
  | refused size heap' hrun =>
    cases malloc_post h.ok hallowed hrun with
    | served hpost => exact absurd rfl (hpost.ok.nonzero hpost.new)
    | refused _ _ hpost => exact h.pass hpost
  | freed x found heap' hrun =>
    rcases freeImpl_cases h.ok (h.allocated hallowed) kernel with ⟨heap'', hrun', hpost⟩ | ⟨hnone, -⟩
    · rcases Prod.mk.inj (Option.some.inj (hrun.symm.trans hrun')) with ⟨-, rfl⟩
      exact h.free hallowed hpost
    · rw [hnone] at hrun
      cases hrun
  | moved x size rounds' r hrun hne =>
    cases realloc_post h.ok (h.allocated hallowed.1) hallowed.2 (fun ho => (hslots ho).1) hrun with
    | moved _ hmoved _ => exact h.move hallowed.1 (hmoved fun ho => (hslots ho).2)
    | kept hnull | lost hnull => exact absurd hnull hne
  | failed x size rounds' r hrun hnull =>
    cases realloc_post h.ok (h.allocated hallowed.1) hallowed.2 (fun ho => (hslots ho).1) hrun with
    | moved hne => exact absurd hnull hne
    | kept _ _ _ _ hpost => exact h.pass hpost
    | lost _ hfails hlost _ =>
      -- the block is lost only if a page request has failed, and not in a step that loses nothing
      rcases hblocks with hblocks | hkernel
      · have hkeeps := hblocks hnull
        rw [hlost] at hkeeps
        cases hkeeps
      · exact absurd hkernel hfails
  | wrote x headers part howner hrun =>
    rcases h.write_passes kernel hallowed howner headers with ⟨part', hrun', hpass⟩
    rcases Option.some.inj (hrun.symm.trans hrun') with rfl
    exact h.pass hpass
  | unseen => exact h

/-- The invariant along a run in which no cursor is stranded and no block is lost. -/
theorem client_always_of {G : ClientOp → ClientState → Prop} (hstart : ClientInv start)
    (hr : Run (clientSystem kernel start) history s) (hsteps : Steps G history)
    (hG : ∀ op t, G op t → KeepsSlots op t ∧ (LosesNothing op t ∨ kernel.Succeeds)) :
    ClientInv s := by
  refine (hr.always_of_steps ?_ ?_ hsteps).1
  · intro t ht
    rw [show t = start from ht]
    exact hstart
  · intro op t t' hinv hguard hnext
    rcases hnext with ⟨hallowed, rounds, hstep⟩
    rcases hG op t hguard with ⟨hslots, hblocks⟩
    exact client_step hinv hslots hblocks hallowed hstep

theorem client_always (hstart : ClientInv start) (hr : Run (clientSystem kernel start) history s)
    (hkeeps : Steps KeepsBlocks history) : ClientInv s :=
  client_always_of hstart hr hkeeps fun _ _ hguard => ⟨hguard.1, .inl hguard.2⟩

/-- With memory for every request no block is lost. -/
theorem client_always_succeeds (hkernel : kernel.Succeeds) (hstart : ClientInv start)
    (hr : Run (clientSystem kernel start) history s)
    (hkeeps : Steps KeepsSlots history) : ClientInv s :=
  client_always_of hstart hr hkeeps fun _ _ hguard => ⟨hguard, .inr hkernel⟩

/-! ## Following a schedule -/

instance ClientOp.decidableAllowed (s : ClientState) (op : ClientOp) : Decidable (op.Allowed s) :=
  match op with
  | .malloc size => inferInstanceAs (Decidable (1 ≤ size))
  | .free x => inferInstanceAs (Decidable (x ∈ s.live))
  | .realloc x size _ => inferInstanceAs (Decidable (x ∈ s.live ∧ 1 ≤ size))
  | .write x _ => inferInstanceAs (Decidable (x ∈ s.live))

instance (op : ClientOp) (s : ClientState) : Decidable (KeepsSlots op s) :=
  match op with
  | .realloc x size _ => inferInstanceAs (Decidable (x.owner = .slot →
      0 < requiredSlots size ∧ overrunsCursor s.heap.slot x.pointer size = false))
  | .malloc _ | .free _ | .write _ _ => inferInstanceAs (Decidable True)

instance (op : ClientOp) (s : ClientState) : Decidable (LosesNothing op s) :=
  match op with
  | .realloc x size result =>
      inferInstanceAs (Decidable (result = 0 → givesUp s.heap x size = false))
  | .malloc _ | .free _ | .write _ _ => inferInstanceAs (Decidable True)

instance (op : ClientOp) (s : ClientState) : Decidable (KeepsBlocks op s) :=
  inferInstanceAs (Decidable (_ ∧ _))

instance (G : ClientOp → ClientState → Prop) [∀ op s, Decidable (G op s)]
    (history : List (ClientOp × ClientState)) : Decidable (Steps G history) :=
  inferInstanceAs (Decidable (∀ x ∈ history, G x.1 x.2))

/-- The step of an allowed call. -/
def clientNext (kernel : Kernel) (op : ClientOp) (s : ClientState) : Option ClientState :=
  if op.Allowed s then clientStep kernel (s.heap.arenas.length + 4) op s else none

theorem run_of_clientNext {ops : List ClientOp}
    (h : exec (clientNext kernel) ops [] noBlocks = some (history, s)) :
    Run (clientSystem kernel noBlocks) history s := by
  have h0 : Run (clientSystem kernel noBlocks) [] noBlocks := .init rfl
  refine h0.exec (fun op t t' ht => ?_) h
  unfold clientNext at ht
  split at ht
  · exact ⟨‹_›, _, ht⟩
  · cases ht

/-! ## What stays as it is -/

/-- The block `z` is the same after the call: it is live with its size and its bytes, and none
of these is data of the allocators. -/
structure Unchanged (heap : Heap) (r : HeapReallocated) (z : Held) : Prop where
  live : r.heap.Allocated z.owner z.pointer z.units
  bytes : ∀ (m : Bytes) (i : ℕ), i < z.usable →
    r.bytes heap.os m (z.pointer + i) = m (z.pointer + i)
  outside : ∀ a, z.pointer ≤ a → a < z.pointer + z.usable →
    ¬ heap.Metadata a ∧ ¬ r.heap.Metadata a

/-- Bytes that no copy writes are the same, if they were mapped before. -/
theorem bytes_of_not_writes {os : List OsEvent} (hmapped : Mapped os p)
    (hwrites : ∀ c ∈ r.copies, ¬ c.Writes p) (m : Bytes) : r.bytes os m p = m p := by
  unfold HeapReallocated.bytes
  rw [applyAll_of_not_writes hwrites, if_pos hmapped]

theorem unchanged_of_not_writes (h : HeapOk heap) (hok : HeapOk r.heap)
    (hold : heap.Allocated z.owner z.pointer z.units)
    (hnew : r.heap.Allocated z.owner z.pointer z.units)
    (hwrites : ∀ c ∈ r.copies, ∀ i, i < z.usable → ¬ c.Writes (z.pointer + i)) :
    Unchanged heap r z := by
  refine ⟨hnew, fun m i hi => ?_, fun a hle hlt => ?_⟩
  · refine bytes_of_not_writes ?_ (fun c hc => hwrites c hc i hi) m
    exact h.mapped_block hold _ (Nat.le_add_right _ _) (Nat.add_lt_add_left hi _)
  · exact ⟨h.not_metadata hold hle hlt, hok.not_metadata hnew hle hlt⟩

end SysProg.Memory
