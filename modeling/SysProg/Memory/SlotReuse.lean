import Mathlib.Algebra.Order.Floor.Div
import Mathlib.Tactic
import SysProg.Lib.Lts
import SysProg.Memory.SlotRuns

/-!
# Spans of the slot allocator: what is live, and what is used again

Runs of `slot_allocator_allocate` and `slot_allocator_deallocate` only. The client's account
holds the size of every allocation; page requests may fail.

* `slotAllocatorCheckIntegrity` — the walk of `slot_allocator_check_integrity`;
* `spanSystem` — the transition system;
* `spans_agree` — in every state of a run the spans of every arena tile it, the used ones
  are the live allocations, the cursor is in place, and the walk calls no `debug_trap`;
* `creates_arena_iff` — when another arena is asked for although an arena has enough free
  slots in a row;
* `free_slot_forgotten` — a run after which this happens: the free slot lies before the
  cursor.
-/

namespace SysProg.Memory

open Spans Lts

/-! ## The integrity check -/

/-- One round of the walk through an arena. The state is the index and the number of calls
of `debug_trap`, which returns. -/
def integrityStep (a : SlotArena) (s : ℕ × ℕ) : (ℕ × ℕ) ⊕ ℕ :=
  let (i, traps) := s
  let slot := a.slots i
  let traps := if slot.used != true && slot.used != false then traps + 1 else traps
  let traps := if slot.length = 0 then traps + 1 else traps
  let traps := if i + slot.length > slotCount then traps + 1 else traps
  if i + slot.length = slotCount then .inr traps
  else .inl (i + slot.length, traps)

/-- The walk through one arena, and how often it called `debug_trap`. Spans have at least
one slot, or the walk does not come to an end. -/
def checkArena (a : SlotArena) : Option ℕ :=
  Loop.run (integrityStep a) (slotCount + 1) (0, 0)

/-- `slot_allocator_check_integrity`: the calls of `debug_trap` and the heap, to which the
first use adds the first arena. -/
def slotAllocatorCheckIntegrity (kernel : Kernel) (heap : SlotHeap) : Option (ℕ × SlotHeap) :=
  match initialArena kernel heap with
  | none => some (0, { heap with os := .refuse slotAllocatorSize :: heap.os })
  | some heap => do
      let traps ← heap.arenas.mapM checkArena
      return (traps.sum, heap)

variable {kernel : Kernel} {heap : SlotHeap} {a : SlotArena} {l : List Span} {i k r : ℕ}

/-- The walk ends without a trap where the headers lead to the end of the arena. -/
theorem integrity_run {n : ℕ} (hs : Seg a.slots i l slotCount) (hne : l ≠ []) (hn : l.length ≤ n) :
    Loop.run (integrityStep a) n (i, 0) = some 0 := by
  induction l generalizing i n with
  | nil => exact absurd rfl hne
  | cons x rest ih =>
    rcases hs with ⟨hx, hpos, hrest⟩
    have hend := hrest.end_eq
    rcases Nat.exists_eq_add_of_lt (Nat.lt_of_lt_of_le (Nat.succ_pos _) hn) with ⟨m, hm⟩
    rw [Nat.zero_add] at hm
    subst hm
    have hstep : integrityStep a (i, 0) =
        if i + x.length = slotCount then .inr 0 else .inl (i + x.length, 0) := by
      unfold integrityStep
      simp only [hx, if_neg hpos.ne', if_neg (show ¬ i + x.length > slotCount by omega)]
      cases x.used <;> rfl
    -- the walk ends at the end of the arena
    by_cases hlast : i + x.length = slotCount
    · rw [if_pos hlast] at hstep
      exact Loop.run_succ_inr hstep
    · rw [if_neg hlast] at hstep
      rw [Loop.run_succ_inl hstep]
      refine ih hrest ?_ (Nat.le_of_succ_le_succ hn)
      rintro rfl
      exact hlast hrest

theorem checkArena_eq (ht : Tiled a) : checkArena a = some 0 := by
  rcases ht with ⟨l, hs⟩
  have hlen := hs.length_le
  have hend := hs.end_eq
  refine integrity_run hs ?_ (by omega)
  rintro rfl
  exact absurd hend (by decide)

theorem mapM_checkArena (arenas : List SlotArena) (ht : ∀ a ∈ arenas, Tiled a) :
    arenas.mapM checkArena = some (arenas.map fun _ => 0) := by
  induction arenas with
  | nil => rfl
  | cons a rest ih =>
    rw [List.forall_mem_cons] at ht
    rw [List.mapM_cons, checkArena_eq ht.1, ih ht.2]
    rfl

/-- No trap is called on a heap whose arenas are tiled. -/
theorem checkIntegrity_eq (kernel : Kernel) (h : SlotOk heap) :
    ∃ heap', slotAllocatorCheckIntegrity kernel heap = some (0, heap') := by
  unfold slotAllocatorCheckIntegrity
  cases hinit : initialArena kernel heap with
  | none => exact ⟨_, rfl⟩
  | some heap₁ =>
    have hok := (initialArena_opened hinit).ok h
    simp [mapM_checkArena heap₁.arenas hok.tiled]

/-! ## The system -/

/-- A live allocation: its pointer and the size that was asked for. -/
structure SpanBlock where
  pointer : ℕ
  size : ℕ
deriving DecidableEq, Repr

/-- The slots of an allocation: as many as its header and its bytes need. -/
def SpanBlock.slots (x : SpanBlock) : ℕ :=
  (sizeofSlot + x.size) ⌈/⌉ slotSize

structure SpanState where
  heap : SlotHeap
  live : List SpanBlock

inductive SpanOp where
  | allocate (size : ℕ)
  | deallocate (block : SpanBlock)
  | write (block : SpanBlock) (headers : ℕ → Slot)

/-- The size with its header does not wrap around, and only live allocations are used. -/
def SpanOp.Allowed (s : SpanState) : SpanOp → Prop
  | .allocate size => sizeofSlot + size < 2 ^ 64
  | .deallocate x => x ∈ s.live
  | .write x _ => x ∈ s.live

/-- One call, and the account of the live allocations afterwards. -/
def spanStep (kernel : Kernel) (rounds : ℕ) (op : SpanOp) (s : SpanState) : Option SpanState :=
  match op with
  | .allocate size => do
      let (p, heap) ← slotAllocatorAllocateWithin kernel rounds s.heap size
      if p = 0 then return ⟨heap, s.live⟩
      return ⟨heap, ⟨p, size⟩ :: s.live⟩
  | .deallocate x => do
      let (_, heap) ← slotAllocatorDeallocate kernel s.heap x.pointer
      return ⟨heap, s.live.filter fun y => y.pointer ≠ x.pointer⟩
  | .write x headers => do
      let heap ← writeBlock s.heap ⟨x.pointer, x.slots⟩ headers
      return ⟨heap, s.live⟩

def noSpans : SpanState := ⟨⟨[], []⟩, []⟩

/-- The calls that return. -/
def spanSystem (kernel : Kernel) : System SpanState SpanOp where
  Init s := s = noSpans
  Next op s s' := op.Allowed s ∧ ∃ rounds, spanStep kernel rounds op s = some s'

/-- The spans of an arena agree with the live allocations. -/
structure ArenaAgrees (live : List SpanBlock) (a : SlotArena) : Prop where
  tiled : ∃ l, Seg a.slots 0 l slotCount
  used : ∀ k r, UsedSpan a k r ↔
    k < slotCount ∧ ∃ x ∈ live, x.pointer = slotPointer a.base k ∧ r = x.slots
  cursor : Start a.slots slotCount a.cursor ∨ a.cursor = slotCount
  walk : checkArena a = some 0

/-- The request fits into an arena. -/
def SpanOp.Fits : SpanOp → Prop
  | .allocate size => (sizeofSlot + size) ⌈/⌉ slotSize ≤ slotCount
  | _ => True

/-- All arenas agree with the live allocations, every one of these has its span, the
integrity check finds nothing, and every allowed call that fits returns. -/
structure SpansAgree (kernel : Kernel) (s : SpanState) : Prop where
  arenas : ∀ a ∈ s.heap.arenas, ArenaAgrees s.live a
  live : ∀ x ∈ s.live, ∃ a ∈ s.heap.arenas, ∃ k, UsedSpan a k x.slots ∧
    x.pointer = slotPointer a.base k
  distinct : (s.live.map SpanBlock.pointer).Nodup
  integrity : ∃ heap, slotAllocatorCheckIntegrity kernel s.heap = some (0, heap)
  returns : ∀ op : SpanOp, op.Allowed s → op.Fits → ∃ s', (spanSystem kernel).Next op s s'

/-! ## The invariant -/

/-- The allocation as a block of slots. -/
def SpanBlock.block (x : SpanBlock) : SlotBlock := ⟨x.pointer, x.slots⟩

/-- The used spans are the live allocations. -/
structure SpanInv (s : SpanState) : Prop where
  ok : SlotOk s.heap
  accounts : Accounts s.heap (s.live.map SpanBlock.block)

variable {s s' : SpanState} {op : SpanOp} {x : SpanBlock} {size rounds : ℕ}
  {history : List (SpanOp × SpanState)}

theorem requiredSlots_eq_slots (p : ℕ) (h : sizeofSlot + size < 2 ^ 64) :
    requiredSlots size = SpanBlock.slots ⟨p, size⟩ := by
  rw [requiredSlots_eq h, SpanBlock.slots, Nat.ceilDiv_eq_add_pred_div]
  rfl

theorem slots_pos (x : SpanBlock) : 0 < x.slots := by
  rw [SpanBlock.slots, Nat.ceilDiv_eq_add_pred_div]
  simp only [sizeofSlot, slotSize, slotAllocatorSlotSize]
  omega

theorem SpanInv.used_of_mem (h : SpanInv s) (hx : x ∈ s.live) : s.heap.Used x.pointer x.slots :=
  h.accounts.used_of_mem (x := x.block) (List.mem_map_of_mem hx)

theorem block_filter (live : List SpanBlock) (p : ℕ) :
    (live.filter fun y => y.pointer ≠ p).map SpanBlock.block =
      releaseSlots p (live.map SpanBlock.block) := by
  rw [releaseSlots, List.filter_map]
  rfl

theorem span_init_inv : SpanInv noSpans :=
  ⟨slot_init_inv.ok, slot_init_inv.accounts⟩

theorem span_step (h : SpanInv s) (hallowed : op.Allowed s)
    (hstep : spanStep kernel rounds op s = some s') : SpanInv s' := by
  cases op with
  | allocate =>
    simp only [spanStep, Option.bind_eq_bind, Option.bind_eq_some_iff] at hstep
    rcases hstep with ⟨⟨p, heap'⟩, hrun, hstep⟩
    have hslots := requiredSlots_eq_slots p hallowed
    have hpost := slotAllocate_post h.ok (hslots ▸ slots_pos _) hrun
    rcases hpost.outcome with ⟨hne, hused, hfresh⟩ | ⟨hnull, -, hused⟩
    · simp only at hne
      simp only [if_neg hne] at hstep
      rcases Option.some.inj hstep with rfl
      rw [hslots] at hused
      exact ⟨hpost.ok, h.accounts.add hused hfresh⟩
    · -- no page for another arena
      simp only at hnull
      simp only [hnull, if_true] at hstep
      rcases Option.some.inj hstep with rfl
      refine ⟨hpost.ok, ⟨fun p r => ?_, h.accounts.distinct⟩⟩
      rw [hused, h.accounts.used]
  | deallocate =>
    simp only [spanStep, Option.bind_eq_bind, Option.bind_eq_some_iff] at hstep
    rcases hstep with ⟨⟨found, heap'⟩, hrun, hstep⟩
    rcases Option.some.inj hstep with rfl
    rcases slotDeallocate_spec kernel h.ok (h.used_of_mem hallowed) with
      ⟨heap'', hrun', hok, -, -, hused⟩
    rcases Prod.mk.inj (Option.some.inj (hrun.symm.trans hrun')) with ⟨-, rfl⟩
    refine ⟨hok, ?_⟩
    rw [block_filter]
    exact h.accounts.remove hused
  | write x headers =>
    simp only [spanStep, Option.bind_eq_bind, Option.bind_eq_some_iff] at hstep
    rcases hstep with ⟨heap', hrun, hstep⟩
    rcases Option.some.inj hstep with rfl
    rcases writeBlock_spec (x := ⟨x.pointer, x.slots⟩) h.ok (h.used_of_mem hallowed) headers with
      ⟨heap'', hrun', hok, -, -, hused⟩
    rcases Option.some.inj (hrun.symm.trans hrun') with rfl
    refine ⟨hok, ⟨fun p r => ?_, h.accounts.distinct⟩⟩
    rw [hused, h.accounts.used]

theorem span_always (hr : Run (spanSystem kernel) history s) : Always SpanInv history s := by
  refine hr.always_of_steps (G := fun _ _ => True) ?_ ?_ (fun _ _ => trivial)
  · intro t ht
    rw [show t = noSpans from ht]
    exact span_init_inv
  · intro op t t' hinv _ hnext
    rcases hnext with ⟨hallowed, rounds, hstep⟩
    exact span_step hinv hallowed hstep

/-- A used span of an arena is a live allocation. -/
theorem SpanInv.usedSpan_iff (h : SpanInv s) (ha : a ∈ s.heap.arenas) : UsedSpan a k r ↔
    k < slotCount ∧ ∃ x ∈ s.live, x.pointer = slotPointer a.base k ∧ r = x.slots := by
  rcases List.mem_iff_getElem?.mp ha with ⟨index, hindex⟩
  have hlive : k < slotCount → (UsedSpan a k r ↔ ∃ x ∈ s.live,
      x.pointer = slotPointer a.base k ∧ r = x.slots) := by
    intro hk
    rw [← used_at h.ok.bases h.ok.tiled hindex hk, ← h.accounts.used, List.mem_map]
    constructor
    · intro hmem
      rcases hmem with ⟨x, hx, heq⟩
      rw [SpanBlock.block, SlotBlock.mk.injEq] at heq
      exact ⟨x, hx, heq.1, heq.2.symm⟩
    · intro hmem
      rcases hmem with ⟨x, hx, hp, rfl⟩
      exact ⟨x, hx, by rw [SpanBlock.block, hp]⟩
  constructor
  · intro hu
    have hbounds := hu.bounds (h.ok.tiled a ha)
    have hk : k < slotCount := by omega
    exact ⟨hk, (hlive hk).mp hu⟩
  · intro hu
    exact (hlive hu.1).mpr hu.2

theorem SpanInv.returns (kernel : Kernel) (h : SpanInv s) (hallowed : op.Allowed s)
    (hfits : op.Fits) : ∃ s', (spanSystem kernel).Next op s s' := by
  cases op with
  | allocate size =>
    have hslots := requiredSlots_eq_slots 0 hallowed
    rcases allocate_arenas_ends (hslots ▸ slots_pos _) (h.ok.searchable _) kernel
      (hslots ▸ hfits) with ⟨⟨p, heap'⟩, hrun⟩
    refine ⟨if p = 0 then ⟨heap', s.live⟩ else ⟨heap', ⟨p, size⟩ :: s.live⟩, hallowed,
      s.heap.arenas.length + 3, ?_⟩
    simp only [spanStep, slotAllocatorAllocateWithin, hrun]
    split <;> simp_all
  | deallocate =>
    rcases slotDeallocate_spec kernel h.ok (h.used_of_mem hallowed) with ⟨heap', hrun, -⟩
    exact ⟨_, hallowed, 0, by simp only [spanStep, hrun]; rfl⟩
  | write x headers =>
    rcases writeBlock_spec (x := ⟨x.pointer, x.slots⟩) h.ok (h.used_of_mem hallowed) headers with
      ⟨heap', hrun, -⟩
    exact ⟨_, hallowed, 0, by simp only [spanStep, hrun]; rfl⟩

theorem SpanInv.agree (kernel : Kernel) (h : SpanInv s) : SpansAgree kernel s := by
  refine ⟨fun a ha => ⟨h.ok.tiled a ha, fun k r => h.usedSpan_iff ha, h.ok.cursor a ha,
    checkArena_eq (h.ok.tiled a ha)⟩, fun x hx => ?_, ?_, checkIntegrity_eq kernel h.ok,
    fun op => h.returns kernel⟩
  · rcases h.used_of_mem hx with ⟨a, ha, k, hu, hp⟩
    exact ⟨a, ha, k, hu, hp⟩
  · have hdistinct := h.accounts.distinct
    rwa [List.map_map] at hdistinct

/-- In every state of every run, the headers of each arena tile it, its used spans are the
live allocations with as many slots as they need, the cursor is in place, and every allowed
call of a size that an arena can hold returns. -/
theorem spans_agree (hr : Run (spanSystem kernel) history s) :
    Always (SpansAgree kernel) history s := by
  rcases span_always hr with ⟨hlast, hbefore⟩
  exact ⟨hlast.agree kernel, fun x hx => (hbefore x hx).agree kernel⟩

/-! ## Following a schedule -/

instance SpanOp.decidableAllowed (s : SpanState) (op : SpanOp) : Decidable (op.Allowed s) :=
  match op with
  | .allocate size => inferInstanceAs (Decidable (sizeofSlot + size < 2 ^ 64))
  | .deallocate x => inferInstanceAs (Decidable (x ∈ s.live))
  | .write x _ => inferInstanceAs (Decidable (x ∈ s.live))

/-- The step of an allowed call. -/
def spanNext (kernel : Kernel) (op : SpanOp) (s : SpanState) : Option SpanState :=
  if op.Allowed s then spanStep kernel (s.heap.arenas.length + 3) op s else none

theorem run_of_spanNext {ops : List SpanOp}
    (h : exec (spanNext kernel) ops [] noSpans = some (history, s)) :
    Run (spanSystem kernel) history s := by
  have h0 : Run (spanSystem kernel) [] noSpans := .init rfl
  refine h0.exec (fun op t t' ht => ?_) h
  unfold spanNext at ht
  split at ht
  · exact ⟨‹_›, _, ht⟩
  · cases ht

/-- Three allocations, of which the middle one is released after the client has written to
it. -/
theorem spans_agree_released :
    ∃ history s, Run (spanSystem bumpKernel) history s ∧
      s.live = [⟨5184, 8191⟩, ⟨4128, 500⟩] ∧ Always (SpansAgree bumpKernel) history s := by
  have hrun : (exec (spanNext bumpKernel)
      [.allocate 500, .allocate 500, .allocate 8191, .write ⟨5184, 8191⟩ (fun _ => ⟨0, false⟩),
        .deallocate ⟨4656, 500⟩] [] noSpans).map (fun x => x.2.live) =
      some [⟨5184, 8191⟩, ⟨4128, 500⟩] := by
    decide +kernel
  rcases Option.map_eq_some_iff.mp hrun with ⟨x, hx, hlive⟩
  have hr := run_of_spanNext hx
  exact ⟨x.1, x.2, hr, hlive, spans_agree hr⟩

/-! ## Free slots -/

/-- The allocation takes slot `j` of the arena. -/
def SpanBlock.Covers (x : SpanBlock) (a : SlotArena) (j : ℕ) : Prop :=
  ∃ k, k < slotCount ∧ x.pointer = slotPointer a.base k ∧ k ≤ j ∧ j < k + x.slots

/-- The `r` slots of the arena from `k` on belong to no live allocation. -/
def FreeRun (s : SpanState) (a : SlotArena) (k r : ℕ) : Prop :=
  k + r ≤ slotCount ∧ ∀ j, k ≤ j → j < k + r → ∀ x ∈ s.live, ¬ x.Covers a j

/-- Some arena has `r` free slots in a row. -/
def FreeAnywhere (s : SpanState) (r : ℕ) : Prop :=
  ∃ a ∈ s.heap.arenas, ∃ k, FreeRun s a k r

/-- Some arena has `r` free slots in a row that begin at its cursor or behind it. -/
def FreeBehindCursor (s : SpanState) (r : ℕ) : Prop :=
  ∃ a ∈ s.heap.arenas, ∃ k, a.cursor ≤ k ∧ FreeRun s a k r

/-- The call asked for a page, which only `create` does. -/
def CreatesArena (heap : SlotHeap) (res : ℕ × SlotHeap) : Prop :=
  res.2.os ≠ heap.os

theorem SpanInv.freeRun_iff (h : SpanInv s) (ha : a ∈ s.heap.arenas) (hr : 0 < r) :
    FreeRun s a k r ↔ ∀ j, k ≤ j → j < k + r → FreeSlot a j := by
  have hcovers : ∀ j, (∀ x ∈ s.live, ¬ x.Covers a j) ↔
      ∀ k r, UsedSpan a k r → ¬ (k ≤ j ∧ j < k + r) := by
    intro j
    constructor
    · intro hfree k r hu hin
      rcases (h.usedSpan_iff ha).mp hu with ⟨hk, x, hx, hp, rfl⟩
      exact hfree x hx ⟨k, hk, hp, hin⟩
    · intro hfree x hx hcov
      rcases hcov with ⟨k, hk, hp, hin⟩
      exact hfree k x.slots ((h.usedSpan_iff ha).mpr ⟨hk, x, hx, hp, rfl⟩) hin
  unfold FreeRun FreeSlot
  simp only [hcovers]
  constructor
  · intro hfree j h1 h2
    exact ⟨by omega, hfree.2 j h1 h2⟩
  · intro hfree
    have hlast := (hfree (k + r - 1) (by omega) (by omega)).1
    exact ⟨by omega, fun j h1 h2 => (hfree j h1 h2).2⟩

theorem SpanInv.behind_iff (h : SpanInv s) (hr : 0 < r) :
    FreeBehindCursor s r ↔ ∃ a ∈ s.heap.arenas, r ≤ a.room := by
  refine exists_congr fun a => and_congr_right fun ha => ?_
  rw [le_room_iff_free (h.ok.tiled a ha) (h.ok.cursor a ha) hr]
  exact exists_congr fun k => and_congr_right fun _ => h.freeRun_iff ha hr

/-- In every state of a run, a request asks for another arena only if no arena has enough
free slots in a row, provided that free slots in a row, if there are any, are found behind a
cursor; and only then. -/
theorem creates_arena_iff (hr : Run (spanSystem kernel) history s)
    (hfits : (sizeofSlot + size) ⌈/⌉ slotSize = r) (hle : r ≤ slotCount) :
    ∃ res, slotAllocatorAllocate kernel s.heap size = some res ∧
      ((CreatesArena s.heap res → ¬ FreeAnywhere s r) ↔
        (FreeAnywhere s r → FreeBehindCursor s r)) := by
  have hinv := (span_always hr).1
  have hsize : sizeofSlot + size < 2 ^ 64 := by
    have hcount : slotCount = 248 := rfl
    rw [Nat.ceilDiv_eq_add_pred_div] at hfits
    simp only [sizeofSlot, slotSize, slotAllocatorSlotSize] at hfits ⊢
    omega
  have hslots : requiredSlots size = r := (requiredSlots_eq_slots 0 hsize).trans hfits
  have hpos : 0 < r := hfits ▸ slots_pos ⟨0, size⟩
  have hsearchable := hinv.ok.searchable (requiredSlots size)
  rcases allocate_arenas_ends (hslots ▸ hpos) hsearchable kernel (hslots ▸ hle) with ⟨res, hrun⟩
  refine ⟨res, hrun, ?_⟩
  have hfirst := (allocate_arenas_scan (hslots ▸ hpos) hsearchable hrun).1
  unfold CreatesArena
  rw [ne_eq, hfirst.os_eq_iff, hslots, ← hinv.behind_iff hpos]
  tauto

/-- The free slot in front of the first block is behind no cursor after a larger request has
passed it, but a request of two slots still finds room. -/
theorem creates_arena_room :
    ∃ history s, Run (spanSystem bumpKernel) history s ∧
      ∃ res, slotAllocatorAllocate bumpKernel s.heap 1000 = some res ∧
        (CreatesArena s.heap res → ¬ FreeAnywhere s 2) := by
  have hrun : (exec (spanNext bumpKernel)
      [.allocate 500, .allocate 500, .deallocate ⟨4128, 500⟩, .allocate 1000] [] noSpans).map
        (fun x => (x.2.live, x.2.heap.arenas.map SlotArena.cursor,
          x.2.heap.arenas.map SlotArena.base)) =
      some ([⟨5184, 1000⟩, ⟨4656, 500⟩], [4], [4096]) := by
    decide +kernel
  rcases Option.map_eq_some_iff.mp hrun with ⟨x, hx, hresult⟩
  simp only [Prod.mk.injEq] at hresult
  rcases hresult with ⟨hlive, hcursor, hbase⟩
  have hr := run_of_spanNext hx
  have hfits : (sizeofSlot + 1000) ⌈/⌉ slotSize = 2 := by decide
  rcases creates_arena_iff hr hfits (by decide) with ⟨res, hres, hiff⟩
  refine ⟨x.1, x.2, hr, res, hres, hiff.mpr fun _ => ?_⟩
  -- the slots from the cursor on are free
  rcases List.map_eq_singleton_iff.mp hcursor with ⟨a, ha, hca⟩
  rw [ha, List.map_singleton, List.singleton_inj] at hbase
  refine ⟨a, by simp [ha], 4, hca.le, by decide, fun j h1 h2 y hy hcov => ?_⟩
  rcases hcov with ⟨k, hk, hp, hkj, hjk⟩
  rw [hlive] at hy
  simp only [slotPointer, hbase, sizeofSlotAllocator, sizeofSlot, slotSize,
    slotAllocatorSlotSize] at hp
  simp only [List.mem_cons, List.not_mem_nil, or_false] at hy
  rcases hy with rfl | rfl
  · have hslots : SpanBlock.slots ⟨5184, 1000⟩ = 2 := by decide
    simp only at hp
    omega
  · have hslots : SpanBlock.slots ⟨4656, 500⟩ = 1 := by decide
    simp only at hp
    omega

/-- The first of two blocks is released; a request of two slots passes the free slot, and
further requests fill the arena. Then a request of one slot creates another arena although
the first slot belongs to no live allocation. -/
theorem free_slot_forgotten :
    ∃ history s, Run (spanSystem bumpKernel) history s ∧ FreeAnywhere s 1 ∧
      (sizeofSlot + 500) ⌈/⌉ slotSize = 1 ∧
      ∃ res, slotAllocatorAllocate bumpKernel s.heap 500 = some res ∧ CreatesArena s.heap res := by
  have hrun : (exec (spanNext bumpKernel)
      ([.allocate 500, .allocate 500, .deallocate ⟨4128, 500⟩, .allocate 1000] ++
        List.replicate 15 (.allocate 8191) ++ [.allocate 2000]) [] noSpans).map
        (fun x => (x.2.live.map SpanBlock.pointer, x.2.heap.arenas.map SlotArena.base,
          (slotAllocatorAllocate bumpKernel x.2.heap 500).map
            fun res => (res.1, decide (res.2.os ≠ x.2.heap.os)))) =
      some ([132960, 124512, 116064, 107616, 99168, 90720, 82272, 73824, 65376, 56928, 48480,
        40032, 31584, 23136, 14688, 6240, 5184, 4656], [4096], some (135200, true)) := by
    decide +kernel
  rcases Option.map_eq_some_iff.mp hrun with ⟨x, hx, hresult⟩
  simp only [Prod.mk.injEq, Option.map_eq_some_iff, decide_eq_true_eq] at hresult
  rcases hresult with ⟨hlive, hbase, res, hres, -, hcreates⟩
  refine ⟨x.1, x.2, run_of_spanNext hx, ?_, by decide, res, hres, hcreates⟩
  rcases List.map_eq_singleton_iff.mp hbase with ⟨a, ha, hbase⟩
  -- slot 0 has been given back
  refine ⟨a, by simp [ha], 0, by decide, fun j _ hj y hy hcov => ?_⟩
  rcases hcov with ⟨k, -, hp, hkj, -⟩
  obtain rfl : k = 0 := by omega
  have hmem := List.mem_map_of_mem (f := SpanBlock.pointer) hy
  rw [hlive, hp, hbase] at hmem
  exact absurd hmem (by decide)

end SysProg.Memory
