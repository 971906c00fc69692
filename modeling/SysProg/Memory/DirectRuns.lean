import Mathlib.Tactic
import SysProg.Lib.Lts
import SysProg.Memory.DirectAllocator

/-!
# Runs of the direct allocator

A client allocates, deallocates and reallocates mappings of its own; page requests may fail
after the first table page was obtained. The account of the client holds the size that it has
asked for last; the entry of a mapping may record a larger one.

* `directSystem` — the transition system;
* `DirectAgrees` — the entries of the tables and the pages that are mapped agree, and a
  reallocation keeps the data or changes nothing;
* `direct_agrees` — this holds in every state of every run.
-/

namespace SysProg.Memory

open ByteMemory Rows Lts

/-! ## The system -/

/-- A live mapping: its pointer and the size that was asked for last. -/
structure DirectBlock where
  pointer : ℕ
  size : ℕ
deriving DecidableEq, Repr

structure DirectState where
  heap : DirectHeap
  live : List DirectBlock

inductive DirectOp where
  | allocate (size : ℕ)
  | deallocate (block : DirectBlock)
  | reallocate (block : DirectBlock) (size : ℕ)

def DirectOp.Allowed (s : DirectState) : DirectOp → Prop
  | .allocate size => 1 ≤ size
  | .deallocate x => x ∈ s.live
  | .reallocate x size => x ∈ s.live ∧ 1 ≤ size

/-- The mappings that are left when the one at `p` is given up. -/
def releaseDirect (p : ℕ) (live : List DirectBlock) : List DirectBlock :=
  live.filter fun x => x.pointer ≠ p

/-- One call, and the account of the live mappings afterwards. -/
def directStep (kernel : Kernel) (op : DirectOp) (s : DirectState) : Option DirectState :=
  match op with
  | .allocate size => do
      let (p, heap) ← directAllocatorAllocate kernel s.heap size
      if p = 0 then return ⟨heap, s.live⟩
      return ⟨heap, ⟨p, size⟩ :: s.live⟩
  | .deallocate x => do
      let (_, heap) ← directAllocatorDeallocate kernel s.heap x.pointer
      return ⟨heap, releaseDirect x.pointer s.live⟩
  | .reallocate x size => do
      let r ← directAllocatorReallocate kernel s.heap x.pointer size
      if r.pointer = 0 then return ⟨r.heap, s.live⟩
      return ⟨r.heap, ⟨r.pointer, size⟩ :: releaseDirect x.pointer s.live⟩

/-- The first table page was obtained, and nothing is allocated. -/
def firstTable (kernel : Kernel) : DirectState where
  heap := initialTable kernel ⟨[], []⟩
  live := []

def directSystem (kernel : Kernel) : System DirectState DirectOp where
  Init s := s = firstTable kernel ∧ s.heap.tables ≠ []
  Next op s s' := op.Allowed s ∧ directStep kernel op s = some s'

/-! ## What holds in every state -/

/-- The address lies on the page of a table. -/
def TablePage (tables : List DirectTable) (x : ℕ) : Prop :=
  ∃ row ∈ tables, row.base ≤ x ∧ x < row.base + pageSize

/-- The address lies on the pages of the entry. -/
def DirectAllocation.OnPages (e : DirectAllocation) (x : ℕ) : Prop :=
  e.pages ≠ 0 ∧ e.pages ≤ x ∧ x < e.pages + alignUp e.size pageSize

/-- The memory after a reallocation. Pages that were not mapped before it are zeroed. -/
def DirectReallocated.bytes (r : DirectReallocated) (os : List OsEvent) (m : Bytes) : Bytes :=
  applyAll r.copies fun x => if Mapped os x then m x else 0

/-- A reallocation of `x` either returns a mapping with the data of the old one, or it returns
null and has changed nothing. -/
structure DirectReallocKeeps (s : DirectState) (x : DirectBlock) (size : ℕ)
    (r : DirectReallocated) : Prop where
  data : r.pointer ≠ 0 → ∀ (m : Bytes) (i : ℕ), i < min x.size size →
    r.bytes s.heap.os m (r.pointer + i) = m (x.pointer + i)
  failed : r.pointer = 0 → r.heap.tables = s.heap.tables ∧
    (∀ a, Mapped r.heap.os a ↔ Mapped s.heap.os a) ∧
    ∀ (m : Bytes) (a : ℕ), Mapped s.heap.os a → r.bytes s.heap.os m a = m a

/-- The entries of the tables and the mapped pages agree. -/
structure DirectAgrees (kernel : Kernel) (s : DirectState) : Prop where
  distinct : ∀ t i e t' i' e', cell? s.heap.tables t i = some e →
    cell? s.heap.tables t' i' = some e' → e.pages ≠ 0 → e.pages = e'.pages → t = t' ∧ i = i'
  mapped : ∀ x, (Mapped s.heap.os x ∧ ¬ TablePage s.heap.tables x) ↔
    ∃ t i e, cell? s.heap.tables t i = some e ∧ e.OnPages x
  disjoint : ∀ t i e t' i' e' x, cell? s.heap.tables t i = some e →
    cell? s.heap.tables t' i' = some e' → e.OnPages x → e'.OnPages x → t = t' ∧ i = i'
  live : ∀ p, (∃ x ∈ s.live, x.pointer = p) ↔
    p ≠ 0 ∧ ∃ t i e, cell? s.heap.tables t i = some e ∧ e.pages = p
  usable : ∀ x ∈ s.live, ∀ a, x.pointer ≤ a → a < x.pointer + x.size → Mapped s.heap.os a
  realloc : ∀ x ∈ s.live, ∀ size, 1 ≤ size →
    ∃ r, directAllocatorReallocate kernel s.heap x.pointer size = some r ∧
      DirectReallocKeeps s x size r

/-! ## The invariant -/

/-- The recorded mappings are those of the client, and no page is mapped without a name. -/
structure DirectInv (s : DirectState) : Prop where
  ok : DirectOk s.heap
  regions : RegionsOk (directRegion s.heap.tables) s.heap.os
  cover : RegionsCover (directRegion s.heap.tables) s.heap.os
  recorded : ∀ p m, s.heap.Allocated p m → ∃ x ∈ s.live, x.pointer = p
  enough : ∀ x ∈ s.live, ∃ m, s.heap.Allocated x.pointer m ∧ x.size ≤ m

variable {kernel : Kernel} {s s' : DirectState} {heap heap' : DirectHeap} {x y : DirectBlock}
  {live : List DirectBlock} {op : DirectOp} {p q m old size : ℕ} {r : DirectReallocated}
  {history : List (DirectOp × DirectState)}

theorem mem_releaseDirect : x ∈ releaseDirect p live ↔ x ∈ live ∧ x.pointer ≠ p := by
  simp [releaseDirect]

theorem has_page (base a : ℕ) :
    Range.Has ⟨base, pageSize⟩ a ↔ base ≤ a ∧ a < base + pageSize := by
  have hextent : pageExtent pageSize = pageSize := by decide
  rw [Range.Has, hextent]

/-- The named mappings are the pages of the tables and of the entries. -/
theorem directRegion_cases {n : RowRegion} {t : Range} {a : ℕ}
    (h : directRegion heap.tables n = some t) (ha : t.Has a) :
    TablePage heap.tables a ∨ ∃ k i e, cell? heap.tables k i = some e ∧ e.OnPages a := by
  cases n with
  | row =>
    simp only [directRegion, rowRegion, List.getElem?_map, Option.map_map,
      Option.map_eq_some_iff] at h
    rcases h with ⟨row, hrow, rfl⟩
    exact .inl ⟨row, List.mem_of_getElem? hrow, (has_page _ a).mp ha⟩
  | cell k i =>
    simp only [directRegion, rowRegion, Option.bind_eq_some_iff] at h
    rcases h with ⟨e, he, hown⟩
    rcases ite_eq_iff.mp hown with ⟨-, ⟨⟩⟩ | ⟨hne, ⟨⟩⟩
    exact .inr ⟨k, i, e, he, hne, ha⟩

theorem onPages_region {k i a : ℕ} {e : DirectAllocation} (he : cell? heap.tables k i = some e)
    (ha : e.OnPages a) :
    directRegion heap.tables (.cell k i) = some ⟨e.pages, e.size⟩ ∧
      Range.Has ⟨e.pages, e.size⟩ a :=
  ⟨directRegion_entry he ha.1, ha.2⟩

theorem tablePage_region {a : ℕ} (ha : TablePage heap.tables a) :
    ∃ k t, directRegion heap.tables (.row k) = some t ∧ t.Has a := by
  rcases ha with ⟨row, hrow, ha⟩
  rcases List.mem_iff_getElem?.mp hrow with ⟨k, hk⟩
  exact ⟨k, _, rowRegion_row entryRange hk, (has_page _ a).mpr ha⟩

namespace DirectInv

variable (h : DirectInv s)
include h

theorem mapped_iff (a : ℕ) : (Mapped s.heap.os a ∧ ¬ TablePage s.heap.tables a) ↔
    ∃ t i e, cell? s.heap.tables t i = some e ∧ e.OnPages a := by
  constructor
  · intro ha
    rcases h.cover a ha.1 with ⟨n, t, hn, ht⟩
    exact (directRegion_cases hn ht).resolve_left ha.2
  · intro ha
    rcases ha with ⟨t, i, e, he, hon⟩
    rcases onPages_region he hon with ⟨hregion, hhas⟩
    refine ⟨h.regions.mapped _ _ a hregion hhas, fun htable => ?_⟩
    -- the page of a table is no page of an entry
    rcases tablePage_region htable with ⟨k, u, hu, hhas'⟩
    have heq := h.regions.apart _ _ _ _ a hregion hu hhas hhas'
    cases heq

theorem entry_eq {t i t' i' a : ℕ} {e e' : DirectAllocation}
    (he : cell? s.heap.tables t i = some e) (he' : cell? s.heap.tables t' i' = some e')
    (ha : e.OnPages a) (ha' : e'.OnPages a) : t = t' ∧ i = i' := by
  rcases onPages_region he ha with ⟨hregion, hhas⟩
  rcases onPages_region he' ha' with ⟨hregion', hhas'⟩
  have heq := h.regions.apart _ _ _ _ a hregion hregion' hhas hhas'
  simpa using heq

theorem usable (hx : x ∈ s.live) {a : ℕ} (hle : x.pointer ≤ a) (hlt : a < x.pointer + x.size) :
    Mapped s.heap.os a := by
  rcases h.enough x hx with ⟨m, hall, hm⟩
  rcases hall with ⟨hp, t, i, he⟩
  have hextent := le_pageExtent m
  exact h.regions.mapped _ _ a (directRegion_entry he hp) ⟨hle, by simp only; omega⟩

theorem live_iff (p : ℕ) : (∃ x ∈ s.live, x.pointer = p) ↔
    p ≠ 0 ∧ ∃ t i e, cell? s.heap.tables t i = some e ∧ e.pages = p := by
  constructor
  · intro hx
    rcases hx with ⟨x, hx, rfl⟩
    rcases h.enough x hx with ⟨m, ⟨hp, t, i, he⟩, -⟩
    exact ⟨hp, t, i, _, he, rfl⟩
  · intro hp
    rcases hp with ⟨hp, t, i, ⟨m, q⟩, he, rfl⟩
    exact h.recorded q m ⟨hp, t, i, he⟩

end DirectInv

/-! ## One call -/

section Step

variable (h : DirectInv s)
include h

/-- The data is in the new mapping, or nothing has changed. -/
theorem DirectReallocatePost.keeps (hx : x ∈ s.live) (hm : x.size ≤ m) (hp : x.pointer ≠ 0)
    (hpost : DirectReallocatePost kernel s.heap x.pointer m size r) :
    DirectReallocKeeps s x size r := by
  have hmapped : ∀ i, i < min x.size size → Mapped s.heap.os (x.pointer + i) := by
    intro i hi
    exact h.usable hx (Nat.le_add_right _ _) (by omega)
  cases hpost with
  | same _ _ | shrunk t i heap' _ _ _ _ =>
    refine ⟨fun _ bytes i hi => ?_, fun hnull => absurd hnull hp⟩
    exact if_pos (hmapped i hi)
  | grown t i q heap' _ _ hq _ _ _ =>
    refine ⟨fun _ bytes i hi => ?_, fun hnull => absurd hnull hq⟩
    have hcopied := Copy.apply_copied (c := ⟨q, x.pointer, m⟩)
      (m := fun a => if Mapped s.heap.os a then bytes a else 0) (i := i) (by simp only; omega)
    rw [DirectReallocated.bytes, applyAll_singleton, hcopied]
    exact if_pos (hmapped i hi)
  | refused =>
    refine ⟨fun hne => absurd rfl hne, fun _ => ⟨rfl, fun _ => Iff.rfl, fun bytes a ha => ?_⟩⟩
    exact if_pos ha

theorem DirectInv.keeps (kernel : Kernel) (hx : x ∈ s.live) (hsize : 1 ≤ size)
    : ∃ r, directAllocatorReallocate kernel s.heap x.pointer size = some r ∧
      DirectReallocKeeps s x size r := by
  rcases h.enough x hx with ⟨m, hall, hm⟩
  rcases directReallocate_spec h.ok h.regions kernel hall hsize with ⟨r, hrun, hpost⟩
  exact ⟨r, hrun, hpost.keeps h hx hm hall.1⟩

theorem DirectInv.agrees (kernel : Kernel) : DirectAgrees kernel s := by
  refine ⟨?_, h.mapped_iff, fun t i e t' i' e' a => h.entry_eq, h.live_iff,
    fun x hx a => h.usable hx, fun x hx size => h.keeps kernel hx⟩
  intro t i e t' i' e' he he' hne heq
  -- both entries have the first page
  rcases e with ⟨m, p⟩
  rcases e' with ⟨m', p'⟩
  simp only at heq hne
  subst heq
  have hsame := entry_unique h.ok h.regions hne he' he
  exact hsame

/-- The account after the mapping at `p` has become one at `q` of `size` bytes. -/
theorem DirectMoved.account {t i : ℕ} (hmoved : DirectMoved s.heap t i p size q heap')
    : (∀ p' m, heap'.Allocated p' m →
        ∃ x ∈ (⟨q, size⟩ : DirectBlock) :: releaseDirect p s.live, x.pointer = p') ∧
      ∀ x ∈ (⟨q, size⟩ : DirectBlock) :: releaseDirect p s.live,
        ∃ m, heap'.Allocated x.pointer m ∧ x.size ≤ m := by
  constructor
  · intro p' m hall
    rcases (hmoved.allocated p' m).mp hall with ⟨hold, hne⟩ | ⟨rfl, rfl⟩
    · rcases h.recorded p' m hold with ⟨x, hx, rfl⟩
      exact ⟨x, List.mem_cons_of_mem _ (mem_releaseDirect.mpr ⟨hx, hne⟩), rfl⟩
    · exact ⟨_, List.mem_cons_self, rfl⟩
  · intro x hx
    rcases List.mem_cons.mp hx with rfl | hx
    · exact ⟨size, (hmoved.allocated q size).mpr (.inr ⟨rfl, rfl⟩), le_rfl⟩
    · rcases mem_releaseDirect.mp hx with ⟨hx, hne⟩
      rcases h.enough x hx with ⟨m, hall, hm⟩
      exact ⟨m, (hmoved.allocated x.pointer m).mpr (.inl ⟨hall, hne⟩), hm⟩

theorem direct_reallocate_inv (hall : s.heap.Allocated x.pointer old)
    (hpost : DirectReallocatePost kernel s.heap x.pointer old size r)
    : DirectInv (if r.pointer = 0 then ⟨r.heap, s.live⟩
      else ⟨r.heap, ⟨r.pointer, size⟩ :: releaseDirect x.pointer s.live⟩) := by
  cases hpost with
  | same hle _ =>
    -- the entry still records the old size
    rw [if_neg hall.1]
    refine ⟨h.ok, h.regions, h.cover, fun p m hold => ?_, fun y hy => ?_⟩
    · by_cases hp : p = x.pointer
      · exact ⟨_, List.mem_cons_self, hp.symm⟩
      · rcases h.recorded p m hold with ⟨y, hy, rfl⟩
        exact ⟨y, List.mem_cons_of_mem _ (mem_releaseDirect.mpr ⟨hy, hp⟩), rfl⟩
    · rcases List.mem_cons.mp hy with rfl | hy
      · exact ⟨old, hall, hle⟩
      · exact h.enough y (mem_releaseDirect.mp hy).1
  | shrunk t i heap' hle hregion hmoved hos =>
    rw [if_neg hall.1]
    rcases hmoved.account h with ⟨hrecorded, henough⟩
    refine ⟨hmoved.ok, ?_, ?_, hrecorded, henough⟩
    · rw [hmoved.region, hos]
      exact h.regions.shrink hregion hle
    · rw [hmoved.region, hos]
      exact h.cover.shrink hregion hle
  | grown t i q heap' _ hq hne hregion hmoved hos =>
    rw [if_neg hne]
    rcases hmoved.account h with ⟨hrecorded, henough⟩
    refine ⟨hmoved.ok, ?_, ?_, hrecorded, henough⟩
    · rw [hmoved.region, hos, hq]
      exact h.regions.replace hregion size (hq ▸ hne)
    · rw [hmoved.region, hos]
      exact h.cover.replace hregion
  | refused =>
    rw [if_pos rfl]
    exact ⟨h.ok, h.regions.refuse size, h.cover, h.recorded, h.enough⟩

/-- A new mapping, or none. -/
theorem direct_allocate_inv (hsize : 1 ≤ size) {p : ℕ} {heap' : DirectHeap}
    (hrun : directAllocatorAllocate kernel s.heap size = some (p, heap')) :
    DirectInv (if p = 0 then ⟨heap', s.live⟩ else ⟨heap', ⟨p, size⟩ :: s.live⟩) := by
  have hcover := directAllocate_cover h.cover hrun
  rcases directAllocate_post h.ok h.regions hsize hrun with hpost | hpost
  · -- the new entry is the new block
    have hne : p ≠ 0 := hpost.nonzero
    rw [if_neg hne]
    refine ⟨hpost.ok, hpost.grown.regionsOk h.regions, hcover, fun q m hall => ?_, fun y hy => ?_⟩
    · rcases (hpost.allocated q m).mp hall with hold | ⟨rfl, -⟩
      · rcases h.recorded q m hold with ⟨y, hy, hp⟩
        exact ⟨y, List.mem_cons_of_mem _ hy, hp⟩
      · exact ⟨_, List.mem_cons_self, rfl⟩
    · rcases List.mem_cons.mp hy with rfl | hy
      · exact ⟨size, (hpost.allocated p size).mpr (.inr ⟨rfl, rfl⟩), le_rfl⟩
      · rcases h.enough y hy with ⟨m, hall, hm⟩
        exact ⟨m, (hpost.allocated _ m).mpr (.inl hall), hm⟩
  · have hnull : p = 0 := hpost.null
    rw [if_pos hnull]
    refine ⟨hpost.ok, hpost.grown.regionsOk h.regions, hcover,
      fun q m hall => h.recorded q m ((hpost.allocated q m).mp hall), fun y hy => ?_⟩
    rcases h.enough y hy with ⟨m, hall, hm⟩
    exact ⟨m, (hpost.allocated _ m).mpr hall, hm⟩

/-- A mapping that is released. -/
theorem direct_deallocate_inv (hx : x ∈ s.live) {found : Bool} {heap' : DirectHeap}
    (hrun : directAllocatorDeallocate kernel s.heap x.pointer = some (found, heap')) :
    DirectInv ⟨heap', releaseDirect x.pointer s.live⟩ := by
  rcases h.enough x hx with ⟨m, hall, -⟩
  rcases directDeallocate_spec h.ok h.regions kernel hall with
    ⟨t, i, heap'', hrun', hok, hregion, hregion', hos, hallocated⟩
  rcases Prod.mk.inj (Option.some.inj (hrun.symm.trans hrun')) with ⟨-, rfl⟩
  refine ⟨hok, ?_, ?_, fun q k hq => ?_, fun y hy => ?_⟩
  · simp only [hregion', hos]
    exact h.regions.remove hregion
  · simp only [hregion', hos]
    exact h.cover.remove hregion
  · rcases (hallocated q k).mp hq with ⟨hold, hne⟩
    rcases h.recorded q k hold with ⟨y, hy, rfl⟩
    exact ⟨y, mem_releaseDirect.mpr ⟨hy, hne⟩, rfl⟩
  · rcases mem_releaseDirect.mp hy with ⟨hy, hne⟩
    rcases h.enough y hy with ⟨k, hk, hle⟩
    exact ⟨k, (hallocated _ k).mpr ⟨hk, hne⟩, hle⟩

theorem direct_step (hallowed : op.Allowed s) (hstep : directStep kernel op s = some s') :
    DirectInv s' := by
  cases op with
  | allocate =>
    simp only [directStep, Option.bind_eq_bind, Option.bind_eq_some_iff, Option.pure_def] at hstep
    rcases hstep with ⟨⟨p, heap'⟩, hrun, hstep⟩
    rw [← apply_ite some] at hstep
    exact Option.some.inj hstep ▸ direct_allocate_inv h hallowed hrun
  | deallocate =>
    simp only [directStep, Option.bind_eq_bind, Option.bind_eq_some_iff] at hstep
    rcases hstep with ⟨⟨found, heap'⟩, hrun, hstep⟩
    rcases Option.some.inj hstep with rfl
    exact direct_deallocate_inv h hallowed hrun
  | reallocate x size =>
    simp only [directStep, Option.bind_eq_bind, Option.bind_eq_some_iff, Option.pure_def] at hstep
    rcases hstep with ⟨r, hrun, hstep⟩
    rcases h.enough x hallowed.1 with ⟨old, hall, -⟩
    rcases directReallocate_spec h.ok h.regions kernel hall hallowed.2 with ⟨r', hrun', hpost⟩
    rcases Option.some.inj (hrun.symm.trans hrun') with rfl
    rw [← apply_ite some] at hstep
    exact Option.some.inj hstep ▸ direct_reallocate_inv h hall hpost

end Step

theorem direct_init_inv (kernel : Kernel) : DirectInv (firstTable kernel) := by
  have hopen := initialTable_opened kernel ⟨[], []⟩
  have hnone : ∀ p m, ¬ DirectHeap.Allocated ⟨[], []⟩ p m := by
    intro p m hall
    rcases hall with ⟨-, t, i, he⟩
    simp [cell?] at he
  have hok : DirectOk ⟨[], []⟩ := fun p m hall => absurd hall (hnone p m)
  have hregions : RegionsOk (directRegion []) [] := by
    rw [directRegion, rowRegion_nil]
    exact ⟨by simp, by simp, by simp, by simp⟩
  refine ⟨TablesOpened.ok hopen hok, (hopen.grown rfl).regionsOk hregions,
    hopen.cover rfl (fun a ha => absurd ha id), fun p m hall => ?_, fun x hx => ?_⟩
  · exact absurd ((TablesOpened.allocated hopen).mp hall) (hnone p m)
  · simp [firstTable] at hx

/-- In every state of every run, the non-null entries are distinct, the mapped pages are those
of the tables and, disjointly, those of the entries; every live mapping has at least the size
that was asked for last; and a reallocation keeps the data or changes nothing. -/
theorem direct_agrees (hr : Run (directSystem kernel) history s) :
    Always (DirectAgrees kernel) history s := by
  have hinv : Always DirectInv history s := by
    refine hr.always_of_steps (G := fun _ _ => True) ?_ ?_ (fun _ _ => trivial)
    · intro t ht
      rw [ht.1]
      exact direct_init_inv kernel
    · intro op t t' hinv _ hnext
      exact direct_step hinv hnext.1 hnext.2
  exact ⟨hinv.1.agrees kernel, fun x hx => (hinv.2 x hx).agrees kernel⟩

/-! ## A run -/

instance DirectOp.decidableAllowed (s : DirectState) (op : DirectOp) : Decidable (op.Allowed s) :=
  match op with
  | .allocate size => inferInstanceAs (Decidable (1 ≤ size))
  | .deallocate x => inferInstanceAs (Decidable (x ∈ s.live))
  | .reallocate x size => inferInstanceAs (Decidable (x ∈ s.live ∧ 1 ≤ size))

/-- The step of an allowed call. -/
def directNext (kernel : Kernel) (op : DirectOp) (s : DirectState) : Option DirectState :=
  if op.Allowed s then directStep kernel op s else none

/-- A mapping of three pages is shrunk by less than a page, then loses its last page, grows and
moves, and cannot grow any more. -/
theorem direct_agrees_shrunk :
    ∃ history s, Run (directSystem (limitKernel 3)) history s ∧ s.live = [⟨20480, 7000⟩] ∧
      Always (DirectAgrees (limitKernel 3)) history s := by
  have hrun : (exec (directNext (limitKernel 3))
      [.allocate 9000, .reallocate ⟨8192, 9000⟩ 8000, .reallocate ⟨8192, 8000⟩ 4500,
        .reallocate ⟨8192, 4500⟩ 7000, .reallocate ⟨20480, 7000⟩ 20000] []
      (firstTable (limitKernel 3))).map (fun x => x.2.live) = some [⟨20480, 7000⟩] := by
    decide +kernel
  rcases Option.map_eq_some_iff.mp hrun with ⟨x, hx, hlive⟩
  have hfirst : (firstTable (limitKernel 3)).heap.tables ≠ [] := by decide +kernel
  have h0 : Run (directSystem (limitKernel 3)) [] (firstTable (limitKernel 3)) := .init ⟨rfl, hfirst⟩
  have hr : Run (directSystem (limitKernel 3)) x.1 x.2 := by
    refine h0.exec (fun op t t' ht => ?_) hx
    unfold directNext at ht
    split at ht
    · exact ⟨‹_›, ht⟩
    · cases ht
  exact ⟨x.1, x.2, hr, hlive, direct_agrees hr⟩

end SysProg.Memory
