import Mathlib.Tactic
import SysProg.Lib.Lts
import SysProg.Memory.SlotRealloc

/-!
# Runs of the slot allocator

A client allocates, deallocates and reallocates, and writes to its blocks; a write may
change everything inside a block, also what stands at header positions there.

* `slotSystem` — the transition system; the state pairs the heap with the client's
  account of its blocks;
* `SlotInv` — the used spans are exactly the client's blocks, and all cursors are in
  place;
* `spans_disjoint_iff` — the cursors stay in place and blocks disjoint all along a run
  exactly when no reallocation of the run strands a cursor;
* `stranded_cursor_overlap` — a run in which two live blocks share a slot.
-/

namespace SysProg.Memory

open Spans Lts

/-- A block of the client: its pointer and the number of its slots. -/
structure SlotBlock where
  pointer : ℕ
  slots : ℕ
deriving DecidableEq, Repr

structure SlotState where
  heap : SlotHeap
  live : List SlotBlock

inductive SlotOp where
  | allocate (size : ℕ)
  | deallocate (pointer : ℕ)
  | reallocate (pointer size : ℕ)
  | write (block : SlotBlock) (headers : ℕ → Slot)

/-- A size of at least one byte that fits into an arena. -/
def FitsArena (size : ℕ) : Prop :=
  1 ≤ size ∧ (sizeofSlot + size + (slotSize - 1)) / slotSize ≤ slotCount

/-- The client asks for sizes that an arena can hold, and uses only its own blocks. -/
def SlotOp.Allowed (s : SlotState) : SlotOp → Prop
  | .allocate size => FitsArena size
  | .deallocate p => ∃ x ∈ s.live, x.pointer = p
  | .reallocate p size => (∃ x ∈ s.live, x.pointer = p) ∧ FitsArena size
  | .write x _ => x ∈ s.live

/-- The blocks that are left when the block at `p` is given up. -/
def releaseSlots (p : ℕ) (live : List SlotBlock) : List SlotBlock :=
  live.filter fun x => x.pointer ≠ p

/-- The client writes to its block; at header positions the arena now holds `headers`. -/
def writeBlock (heap : SlotHeap) (x : SlotBlock) (headers : ℕ → Slot) : Option SlotHeap := do
  let index ← findArena heap x.pointer
  return heap.modify index fun a =>
    let i := slotToIndex a.base x.pointer
    { a with slots := fun k => if i < k ∧ k < i + x.slots then headers k else a.slots k }

/-- One call of the client, and its account of the blocks afterwards. -/
def slotStep (kernel : Kernel) (op : SlotOp) (s : SlotState) : Option SlotState :=
  match op with
  | .allocate size => do
      let (p, heap) ← slotAllocatorAllocate kernel s.heap size
      if p = 0 then return ⟨heap, s.live⟩
      return ⟨heap, ⟨p, requiredSlots size⟩ :: s.live⟩
  | .deallocate p => do
      let (_, heap) ← slotAllocatorDeallocate kernel s.heap p
      return ⟨heap, releaseSlots p s.live⟩
  | .reallocate p size => do
      let (q, heap) ← slotAllocatorReallocate kernel s.heap p size
      if q = 0 then return ⟨heap, s.live⟩
      return ⟨heap, ⟨q, requiredSlots size⟩ :: releaseSlots p s.live⟩
  | .write x headers => do
      let heap ← writeBlock s.heap x headers
      return ⟨heap, s.live⟩

def emptySlots : SlotState := ⟨⟨[], []⟩, []⟩

def slotSystem (kernel : Kernel) : System SlotState SlotOp where
  Init s := s = emptySlots
  Next op s s' := op.Allowed s ∧ slotStep kernel op s = some s'

/-- The block takes slot `k` of the arena with number `j`. -/
def SlotBlock.Occupies (heap : SlotHeap) (x : SlotBlock) (j k : ℕ) : Prop :=
  k < slotCount ∧ ∃ a i, heap.arenas[j]? = some a ∧ x.pointer = slotPointer a.base i ∧
    i ≤ k ∧ k < i + x.slots

/-- Every cursor is a span start or the end, and no two live blocks share a slot. -/
structure SlotsOk (s : SlotState) : Prop where
  cursor : ∀ a ∈ s.heap.arenas, CursorOk a
  disjoint : s.live.Pairwise fun x y => ∀ j k, ¬ (x.Occupies s.heap j k ∧ y.Occupies s.heap j k)

/-- The operation is no reallocation that strands a cursor. -/
def KeepsCursor (op : SlotOp) (s : SlotState) : Prop :=
  match op with
  | .reallocate p size => overrunsCursor s.heap p size = false
  | _ => True

/-! ## The invariant -/

/-- The used spans are the blocks of the client. -/
structure Accounts (heap : SlotHeap) (live : List SlotBlock) : Prop where
  used : ∀ p r, (⟨p, r⟩ : SlotBlock) ∈ live ↔ heap.Used p r
  distinct : (live.map SlotBlock.pointer).Nodup

structure SlotInv (s : SlotState) : Prop where
  ok : SlotOk s.heap
  accounts : Accounts s.heap s.live

variable {kernel : Kernel} {heap heap' : SlotHeap} {live : List SlotBlock} {x y : SlotBlock}
  {s s' : SlotState} {p q r n size : ℕ}

theorem mem_releaseSlots : x ∈ releaseSlots p live ↔ x ∈ live ∧ x.pointer ≠ p := by
  simp [releaseSlots]

theorem releaseSlots_distinct (h : (live.map SlotBlock.pointer).Nodup) :
    ((releaseSlots p live).map SlotBlock.pointer).Nodup :=
  h.sublist (List.filter_sublist.map _)

/-- Sizes that fit into an arena need between one slot and all of them. -/
theorem FitsArena.required (h : FitsArena size) :
    0 < requiredSlots size ∧ requiredSlots size ≤ slotCount := by
  have hcount : slotCount = 248 := rfl
  rcases h with ⟨h1, h2⟩
  simp only [sizeofSlot, slotSize, slotAllocatorSlotSize, hcount] at h2
  rw [requiredSlots_eq (by omega), hcount]
  omega

theorem Accounts.add (h : Accounts heap live)
    (hused : ∀ x r, heap'.Used x r ↔ heap.Used x r ∨ x = q ∧ r = n)
    (hfresh : ∀ r, ¬ heap.Used q r) : Accounts heap' (⟨q, n⟩ :: live) := by
  constructor
  · intro x r
    rw [List.mem_cons, SlotBlock.mk.injEq, hused, h.used]
    exact or_comm
  · rw [List.map_cons, List.nodup_cons]
    refine ⟨fun hmem => ?_, h.distinct⟩
    rcases List.mem_map.mp hmem with ⟨⟨p, r⟩, hy, rfl⟩
    exact hfresh r ((h.used p r).mp hy)

theorem Accounts.remove (h : Accounts heap live)
    (hused : ∀ x r, heap'.Used x r ↔ heap.Used x r ∧ x ≠ p) :
    Accounts heap' (releaseSlots p live) := by
  refine ⟨fun x r => ?_, releaseSlots_distinct h.distinct⟩
  rw [mem_releaseSlots, hused, h.used]

theorem Accounts.move (h : Accounts heap live)
    (hused : ∀ x r, heap'.Used x r ↔ x ≠ p ∧ heap.Used x r ∨ x = q ∧ r = n)
    (hfresh : q ≠ p → ∀ r, ¬ heap.Used q r) :
    Accounts heap' (⟨q, n⟩ :: releaseSlots p live) := by
  constructor
  · intro x r
    rw [List.mem_cons, SlotBlock.mk.injEq, hused, mem_releaseSlots, h.used]
    constructor
    · intro hor
      rcases hor with heq | ⟨hx, hne⟩
      · exact .inr heq
      · exact .inl ⟨hne, hx⟩
    · intro hor
      rcases hor with ⟨hne, hx⟩ | heq
      · exact .inr ⟨hx, hne⟩
      · exact .inl heq
  · rw [List.map_cons, List.nodup_cons]
    refine ⟨fun hmem => ?_, releaseSlots_distinct h.distinct⟩
    rcases List.mem_map.mp hmem with ⟨⟨p', r⟩, hy, rfl⟩
    rw [mem_releaseSlots] at hy
    exact hfresh hy.2 r ((h.used p' r).mp hy.1)

/-- The client's blocks have no slot in common. -/
theorem Accounts.disjoint (h : Accounts heap live) (hb : ArenasOk heap.bases heap.os)
    (ht : ∀ a ∈ heap.arenas, Tiled a) :
    live.Pairwise fun x y => ∀ j k, ¬ (x.Occupies heap j k ∧ y.Occupies heap j k) := by
  have hne : live.Pairwise fun x y => x.pointer ≠ y.pointer := List.pairwise_map.mp h.distinct
  refine hne.imp_of_mem fun {x y} hx hy hxy j k hboth => ?_
  rcases hboth with ⟨⟨hk, a, i, ha, hpx, hi1, hi2⟩, -, a', i', ha', hpy, hj1, hj2⟩
  rcases Option.some.inj (ha.symm.trans ha') with rfl
  have hta := ht a (List.mem_of_getElem? ha)
  have hux : UsedSpan a i x.slots := by
    rw [← used_at hb ht ha (by omega), ← hpx, ← h.used]
    exact hx
  have huy : UsedSpan a i' y.slots := by
    rw [← used_at hb ht ha (by omega), ← hpy, ← h.used]
    exact hy
  -- two used spans of one arena are the same or lie apart
  rcases hux.disjoint hta huy with ⟨rfl, -⟩ | hle | hle
  · exact hxy (hpx.trans hpy.symm)
  · omega
  · omega

theorem SlotInv.slotsOk (h : SlotInv s) : SlotsOk s :=
  ⟨h.ok.cursor, h.accounts.disjoint h.ok.bases h.ok.tiled⟩

theorem slot_init_inv : SlotInv emptySlots := by
  refine ⟨⟨arenasOk_nil, ?_, ?_⟩, ⟨?_, ?_⟩⟩
  · simp [emptySlots]
  · simp [emptySlots]
  · simp [emptySlots, SlotHeap.Used]
  · simp [emptySlots]

theorem Accounts.used_of_mem (h : Accounts heap live) (hx : x ∈ live) :
    heap.Used x.pointer x.slots :=
  (h.used x.pointer x.slots).mp hx

/-- A write of the client changes no span and no cursor. -/
theorem writeBlock_spec (h : SlotOk heap) (hu : heap.Used x.pointer x.slots)
    (headers : ℕ → Slot) :
    ∃ heap', writeBlock heap x headers = some heap' ∧ SlotOk heap' ∧ heap'.os = heap.os ∧
      heap'.bases = heap.bases ∧ ∀ p r, heap'.Used p r ↔ heap.Used p r := by
  rcases h.locate hu with ⟨index, a, i, ha, hmem, hi, hp, hlt, hfind, hindex⟩
  let f : SlotArena → SlotArena := fun a =>
    let i := slotToIndex a.base x.pointer
    { a with slots := fun k => if i < k ∧ k < i + x.slots then headers k else a.slots k }
  have hover : Overwritten a (f a) i x.slots := by
    refine ⟨rfl, rfl, fun k hk => ?_⟩
    show (if slotToIndex a.base x.pointer < k ∧ k < slotToIndex a.base x.pointer + x.slots
      then headers k else a.slots k) = _
    rw [hindex, if_neg (by omega)]
  rcases hover.spec (h.tiled a hmem) hi with ⟨htiled, hspans, hcursor⟩
  have hrep : Replaced heap (heap.modify index f) index a (f a) := replaced_modify ha rfl
  refine ⟨heap.modify index f, ?_, hrep.ok h htiled (hcursor.mpr (h.cursor a hmem)), rfl,
    hrep.bases_eq, fun p r => hrep.used_same hspans⟩
  unfold writeBlock
  simp only [hfind, Option.bind_eq_bind, Option.bind_some]
  rfl

/-- Every allowed call returns. It keeps the invariant unless it strands a cursor, and
then a cursor is out of place. -/
theorem slot_step (hkernel : kernel.Succeeds) (h : SlotInv s) {op : SlotOp}
    (hallowed : op.Allowed s) :
    ∃ s', slotStep kernel op s = some s' ∧ (KeepsCursor op s → SlotInv s') ∧
      (¬ KeepsCursor op s → ¬ SlotsOk s') := by
  cases op with
  | allocate size =>
    rcases FitsArena.required hallowed with ⟨hpos, hle⟩
    rcases slotAllocate_spec kernel h.ok hpos hle with
      ⟨⟨p, heap'⟩, hrun, hok, -, ⟨hne, hused, hfresh⟩ | ⟨-, hfails, -⟩⟩
    rotate_left
    · exact absurd hkernel hfails
    refine ⟨⟨heap', ⟨p, requiredSlots size⟩ :: s.live⟩, ?_, fun _ => ?_, fun hno => ?_⟩
    · simp [slotStep, hrun, hne]
    · exact ⟨hok, h.accounts.add hused hfresh⟩
    · exact absurd trivial hno
  | deallocate =>
    rcases hallowed with ⟨x, hx, rfl⟩
    rcases slotDeallocate_spec kernel h.ok (h.accounts.used_of_mem hx) with
      ⟨heap', hrun, hok, -, -, hused⟩
    refine ⟨⟨heap', releaseSlots x.pointer s.live⟩, ?_, fun _ => ?_, fun hno => ?_⟩
    · simp [slotStep, hrun]
    · exact ⟨hok, h.accounts.remove hused⟩
    · exact absurd trivial hno
  | reallocate p size =>
    rcases hallowed with ⟨⟨x, hx, rfl⟩, hfits⟩
    rcases hfits.required with ⟨hpos, hle⟩
    rcases slotReallocate_spec h.ok (h.accounts.used_of_mem hx) hpos hkernel hle with
      ⟨q, heap', hrun, hpost, hcursor⟩
    refine ⟨⟨heap', ⟨q, requiredSlots size⟩ :: releaseSlots x.pointer s.live⟩, ?_, ?_, ?_⟩
    · simp [slotStep, hrun, hpost.nonzero]
    · -- a block that grows over the cursor strands it
      intro hkeep
      exact ⟨⟨hpost.bases, hpost.tiled, hcursor.mpr hkeep⟩,
        h.accounts.move hpost.used hpost.fresh⟩
    · intro hstrands hok
      exact hstrands (hcursor.mp hok.cursor)
  | write x headers =>
    rcases writeBlock_spec h.ok (h.accounts.used_of_mem hallowed) headers with
      ⟨heap', hrun, hok, -, -, hused⟩
    refine ⟨⟨heap', s.live⟩, ?_, fun _ => ?_, fun hno => ?_⟩
    · simp [slotStep, hrun]
    · refine ⟨hok, ⟨fun p r => ?_, h.accounts.distinct⟩⟩
      rw [hused, h.accounts.used]
    · exact absurd trivial hno

/-- Along a run, the cursors stay in place and live blocks share no slot exactly when no
reallocation of the run strands a cursor. As long as that is so, every allowed call
returns. -/
theorem spans_disjoint_iff (hkernel : kernel.Succeeds) {history : List (SlotOp × SlotState)}
    (hr : Run (slotSystem kernel) history s) :
    (Always SlotsOk history s ↔ Steps KeepsCursor history) ∧
    (Steps KeepsCursor history →
      ∀ op, op.Allowed s → ∃ s', (slotSystem kernel).Next op s s') := by
  have hinit : ∀ s, (slotSystem kernel).Init s → SlotInv s := by
    intro s hs
    rw [show s = emptySlots from hs]
    exact slot_init_inv
  have hstep : ∀ op s s', SlotInv s → KeepsCursor op s →
      (slotSystem kernel).Next op s s' → SlotInv s' := by
    intro op s s' hinv hkeep hnext
    rcases slot_step hkernel hinv hnext.1 with ⟨t, ht, hgood, -⟩
    rcases Option.some.inj (ht.symm.trans hnext.2) with rfl
    exact hgood hkeep
  have hbad : ∀ op s s', SlotInv s → ¬ KeepsCursor op s →
      (slotSystem kernel).Next op s s' → ¬ SlotsOk s' := by
    intro op s s' hinv hkeep hnext
    rcases slot_step hkernel hinv hnext.1 with ⟨t, ht, -, hwrong⟩
    rcases Option.some.inj (ht.symm.trans hnext.2) with rfl
    exact hwrong hkeep
  -- the invariant holds up to the first bad step, which breaks it
  refine ⟨hr.always_iff_steps hinit hstep (fun _ hinv => hinv.slotsOk) hbad, ?_⟩
  intro hkeeps op hallowed
  have hinv := (hr.always_of_steps hinit hstep hkeeps).1
  rcases slot_step hkernel hinv hallowed with ⟨s', hs', -⟩
  exact ⟨s', hallowed, hs'⟩

/-! ## Two runs -/

instance (size : ℕ) : Decidable (FitsArena size) :=
  inferInstanceAs (Decidable (_ ∧ _))

instance SlotOp.decidableAllowed (s : SlotState) (op : SlotOp) : Decidable (op.Allowed s) :=
  match op with
  | .allocate size => inferInstanceAs (Decidable (FitsArena size))
  | .deallocate p => inferInstanceAs (Decidable (∃ x ∈ s.live, x.pointer = p))
  | .reallocate p size =>
      inferInstanceAs (Decidable ((∃ x ∈ s.live, x.pointer = p) ∧ FitsArena size))
  | .write x _ => inferInstanceAs (Decidable (x ∈ s.live))

instance (op : SlotOp) (s : SlotState) : Decidable (KeepsCursor op s) :=
  match op with
  | .reallocate p size => inferInstanceAs (Decidable (overrunsCursor s.heap p size = false))
  | .allocate _ | .deallocate _ | .write _ _ => inferInstanceAs (Decidable True)

instance (history : List (SlotOp × SlotState)) : Decidable (Steps KeepsCursor history) :=
  inferInstanceAs (Decidable (∀ x ∈ history, KeepsCursor x.1 x.2))

/-- The step of an allowed call. -/
def slotNext (kernel : Kernel) (op : SlotOp) (s : SlotState) : Option SlotState :=
  if op.Allowed s then slotStep kernel op s else none

theorem next_of_slotNext {op : SlotOp} (h : slotNext kernel op s = some s') :
    (slotSystem kernel).Next op s s' := by
  unfold slotNext at h
  split at h
  · exact ⟨‹_›, h⟩
  · cases h

theorem run_of_slotNext {ops : List SlotOp} {history : List (SlotOp × SlotState)}
    (h : exec (slotNext bumpKernel) ops [] emptySlots = some (history, s)) :
    Run (slotSystem bumpKernel) history s := by
  have h0 : Run (slotSystem bumpKernel) [] emptySlots := .init rfl
  exact h0.exec (fun _ _ _ => next_of_slotNext) h

/-- A block grows into the free span behind it: the cursor, which pointed there, is set
behind the block, and everything stays in place. -/
theorem spans_disjoint_grown :
    ∃ history s, Run (slotSystem bumpKernel) history s ∧ s.live = [⟨4128, 2⟩] ∧
      Always SlotsOk history s := by
  have hrun : (exec (slotNext bumpKernel)
      [.allocate 500, .allocate 500, .deallocate 4656, .reallocate 4128 1000] [] emptySlots).map
        (fun x => (x.2.live, decide (Steps KeepsCursor x.1))) =
      some ([⟨4128, 2⟩], true) := by
    decide +kernel
  rcases Option.map_eq_some_iff.mp hrun with ⟨x, hx, hresult⟩
  simp only [Prod.mk.injEq, decide_eq_true_eq] at hresult
  rcases hresult with ⟨hlive, hkeeps⟩
  have hr := run_of_slotNext hx
  exact ⟨x.1, x.2, hr, hlive, (spans_disjoint_iff bumpKernel_succeeds hr).1.mpr hkeeps⟩

/-- A stranded cursor leads to two live blocks with a slot in common. The third block is
released, so the cursor points at it; the second one is extended over it, but has to
move to another arena. The cursor then takes the leftover header for a free span, and
an allocation that comes from the front of the arena hands out the same slot again. -/
theorem stranded_cursor_overlap :
    bumpKernel.Succeeds ∧ ∃ history s, Run (slotSystem bumpKernel) history s ∧
      (∃ x ∈ s.live, ∃ y ∈ s.live, x ≠ y ∧ x.Occupies s.heap 0 2 ∧ y.Occupies s.heap 0 2) ∧
      ¬ SlotsOk s := by
  refine ⟨bumpKernel_succeeds, ?_⟩
  have hrun : (exec (slotNext bumpKernel)
      [.allocate 500, .allocate 500, .allocate 500, .allocate 129344, .deallocate 5184,
        .reallocate 4656 1568, .allocate 500, .deallocate 4128, .allocate 1568] [] emptySlots).map
        (fun x => (x.2.live, x.2.heap.arenas[0]?.map SlotArena.base)) =
      some ([⟨4128, 3⟩, ⟨5184, 1⟩, ⟨135200, 3⟩, ⟨5712, 245⟩], some 4096) := by
    decide +kernel
  rcases Option.map_eq_some_iff.mp hrun with ⟨x, hx, hresult⟩
  simp only [Prod.mk.injEq, Option.map_eq_some_iff] at hresult
  rcases hresult with ⟨hlive, a, ha, hbase⟩
  -- both blocks hold slot 2 of the first arena
  have h1 : (⟨4128, 3⟩ : SlotBlock).Occupies x.2.heap 0 2 :=
    ⟨by decide, a, 0, ha, by rw [hbase]; rfl, by decide, by decide⟩
  have h2 : (⟨5184, 1⟩ : SlotBlock).Occupies x.2.heap 0 2 :=
    ⟨by decide, a, 2, ha, by rw [hbase]; rfl, by decide, by decide⟩
  refine ⟨x.1, x.2, run_of_slotNext hx, ⟨⟨4128, 3⟩, by simp [hlive], ⟨5184, 1⟩, by simp [hlive],
    by decide, h1, h2⟩, fun hok => ?_⟩
  have hdisjoint := hok.disjoint
  rw [hlive, List.pairwise_cons] at hdisjoint
  exact hdisjoint.1 ⟨5184, 1⟩ (by simp) 0 2 ⟨h1, h2⟩

end SysProg.Memory
