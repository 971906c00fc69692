import Mathlib.Tactic
import SysProg.Memory.SlotArena

/-!
# The arenas of the slot allocator

* `ArenasOk` — the arenas are page aligned, mapped and pairwise disjoint;
* `SlotHeap.Used heap p r` — a used span of `r` slots starts at the user pointer `p`;
* `allocate_arenas_post` — an allocation is served by one arena, possibly a new one, and
  only tidies up the others; or there is no page for a new arena;
* `slotAllocate_post`, `slotDeallocate_spec` — how the used spans change.
-/

namespace SysProg.Memory

open Spans

/-- The memory of the arenas at `bases`. -/
def arenaRegion (bases : List ℕ) (index : ℕ) : Option Range :=
  bases[index]?.map fun base => ⟨base, slotAllocatorSize⟩

/-- The arenas at `bases` are mapped and do not overlap. -/
abbrev ArenasOk (bases : List ℕ) (os : List OsEvent) : Prop :=
  RegionsOk (arenaRegion bases) os

def SlotHeap.bases (heap : SlotHeap) : List ℕ :=
  heap.arenas.map SlotArena.base

/-- A used span of `r` slots whose data starts at `p`. -/
def SlotHeap.Used (heap : SlotHeap) (p r : ℕ) : Prop :=
  ∃ a ∈ heap.arenas, ∃ k, UsedSpan a k r ∧ p = slotPointer a.base k

/-- A heap with all cursors in place. -/
structure SlotOk (heap : SlotHeap) : Prop where
  bases : ArenasOk heap.bases heap.os
  tiled : ∀ a ∈ heap.arenas, Tiled a
  cursor : ∀ a ∈ heap.arenas, CursorOk a

variable {kernel : Kernel} {heap heap' heap₁ : SlotHeap} {a b d : SlotArena} {bases : List ℕ}
  {os : List OsEvent} {p r i k index required size page rounds j q : ℕ} {res : ℕ × SlotHeap}
  {s : SlotHeap × ℕ}

theorem arenasOk_nil : ArenasOk [] os :=
  ⟨by simp [arenaRegion], by simp [arenaRegion], by simp [arenaRegion], by simp [arenaRegion]⟩

/-- A new arena is one more region. -/
theorem arenaRegion_append (bases : List ℕ) (page : ℕ) :
    arenaRegion (bases ++ [page]) =
      Function.update (arenaRegion bases) bases.length (some ⟨page, slotAllocatorSize⟩) := by
  funext j
  rcases Nat.lt_trichotomy j bases.length with hlt | heq | hgt
  · rw [Function.update_of_ne (by omega)]
    simp [arenaRegion, List.getElem?_append_left hlt]
  · subst heq
    simp [arenaRegion]
  · rw [Function.update_of_ne (by omega)]
    have h1 : (bases ++ [page])[j]? = none := List.getElem?_eq_none (by simp; omega)
    have h2 : bases[j]? = none := List.getElem?_eq_none (by omega)
    simp [arenaRegion, h1, h2]

/-- An arena fills its pages. -/
theorem has_arena (base x : ℕ) :
    Range.Has ⟨base, slotAllocatorSize⟩ x ↔ base ≤ x ∧ x < base + slotAllocatorSize := by
  have hextent : pageExtent slotAllocatorSize = slotAllocatorSize := rfl
  unfold Range.Has
  rw [hextent]

/-- Without wrap-around the number of slots is rounded up. -/
theorem requiredSlots_eq (h : 16 + size < 2 ^ 64) : requiredSlots size = (16 + size + 527) / 528 := by
  unfold requiredSlots
  simp only [sizeofSlot, slotSize, slotAllocatorSlotSize, Nat.mod_eq_of_lt h]
  split_ifs <;> omega

theorem slotPointer_bounds (base : ℕ) (hk : k < slotCount) :
    base ≤ slotPointer base k ∧ slotPointer base k < base + slotAllocatorSize := by
  have hcount : slotCount = 248 := rfl
  simp only [slotPointer, sizeofSlotAllocator, slotSize, slotAllocatorSlotSize, sizeofSlot,
    slotAllocatorSize, pageSize]
  omega

theorem slotToIndex_slotPointer (base k : ℕ) : slotToIndex base (slotPointer base k) = k := by
  simp only [slotToIndex, slotPointer, sizeofSlotAllocator, slotSize, slotAllocatorSlotSize,
    sizeofSlot]
  omega

theorem inArena_iff (base p : ℕ) :
    inArena base p = true ↔ base ≤ p ∧ p < base + slotAllocatorSize := by
  simp [inArena]

theorem arenaRegion_bases (ha : heap.arenas[index]? = some a) :
    arenaRegion heap.bases index = some ⟨a.base, slotAllocatorSize⟩ := by
  simp [arenaRegion, SlotHeap.bases, ha]

/-- A pointer into an arena leads to this arena. -/
theorem findArena_eq (h : ArenasOk heap.bases heap.os) (ha : heap.arenas[index]? = some a)
    (hp : inArena a.base p = true) : findArena heap p = some index := by
  rcases List.getElem?_eq_some_iff.mp ha with ⟨hlt, hget⟩
  refine List.findIdx?_eq_some_iff_getElem.mpr ⟨hlt, by rw [hget]; exact hp, ?_⟩
  intro j hj
  rw [inArena_iff] at hp
  rw [inArena_iff]
  intro hin
  -- the pointer would lie in two arenas
  have heq := h.apart j index _ _ p (arenaRegion_bases (List.getElem?_eq_getElem _))
    (arenaRegion_bases ha) ((has_arena _ p).mpr hin) ((has_arena _ p).mpr hp)
  omega

/-! ## Allocation -/

/-- The heap with one more arena. -/
def extended (kernel : Kernel) (heap : SlotHeap) : SlotHeap where
  arenas := heap.arenas ++ [create (kernel.mmap heap.os slotAllocatorSize)]
  os := .map ⟨kernel.mmap heap.os slotAllocatorSize, slotAllocatorSize⟩ :: heap.os

/-- The heap the search ends in: the old one, or the old one with new arenas. -/
inductive Opened (kernel : Kernel) (heap : SlotHeap) : SlotHeap → Prop where
  | same : Opened kernel heap heap
  | fresh {heap₁ : SlotHeap} : Opened kernel heap heap₁ →
      kernel.mmap heap₁.os slotAllocatorSize ≠ 0 → Opened kernel heap (extended kernel heap₁)

/-- The arena `index` of `heap₁` has served the request, the others are tidied up. -/
structure AllocatedAt (heap₁ heap' : SlotHeap) (required p index : ℕ) (a b : SlotArena)
    (i : ℕ) : Prop where
  os : heap'.os = heap₁.os
  length : heap'.arenas.length = heap₁.arenas.length
  old : heap₁.arenas[index]? = some a
  new : heap'.arenas[index]? = some b
  served : Served a b i required
  pointer : p = slotPointer b.base i
  others : ∀ j c, j ≠ index → heap₁.arenas[j]? = some c →
    ∃ d, heap'.arenas[j]? = some d ∧ Tidied c d

/-- The outcome of an allocation: the pointer and the heap after it. -/
def SlotAllocated (kernel : Kernel) (heap : SlotHeap) (required : ℕ) (res : ℕ × SlotHeap) : Prop :=
  ∃ heap₁ index a b i, Opened kernel heap heap₁ ∧
    AllocatedAt heap₁ res.2 required res.1 index a b i

/-- The arenas before the current one are tidied up, the others are as they were. -/
structure Scanning (heap₁ : SlotHeap) (s : SlotHeap × ℕ) : Prop where
  os : s.1.os = heap₁.os
  length : s.1.arenas.length = heap₁.arenas.length
  behind : ∀ j c, j < s.2 → heap₁.arenas[j]? = some c →
    ∃ d, s.1.arenas[j]? = some d ∧ Tidied c d
  ahead : ∀ j, s.2 ≤ j → s.1.arenas[j]? = heap₁.arenas[j]?

/-- A cursor from which a search for `required` slots goes right. -/
def Searchable (required : ℕ) (a : SlotArena) : Prop :=
  Tiled a ∧ (CursorOk a ∨ ∃ i r stale, StaleCursor a required i r stale)

/-- The headers lead from the cursor to the end of the arena. -/
theorem Searchable.seg (h : Searchable required a) : ∃ l, Seg a.slots a.cursor l slotCount := by
  rcases h with ⟨⟨l, hs⟩, hcursor | ⟨i, r, stale, hstale⟩⟩
  · rcases (cursorOk_iff hs).mp hcursor with ⟨pre, post, rfl, hk⟩
    rw [seg_append, Nat.zero_add, hk] at hs
    exact ⟨post, hs.2⟩
  · -- the leftover headers end where the span does
    rcases ((usedSpan_iff hs).mp hstale.span).split with ⟨pre, post, rfl, hk⟩
    rw [seg_append, Nat.zero_add, hk] at hs
    refine ⟨stale ++ post, seg_append.mpr ?_⟩
    rw [← hstale.seg.end_eq]
    exact ⟨hstale.seg, hs.2.2.2⟩

theorem SlotOk.searchable (h : SlotOk heap) (required : ℕ) :
    ∀ a ∈ heap.arenas, Searchable required a :=
  fun a ha => ⟨h.tiled a ha, .inl (h.cursor a ha)⟩

theorem Tidied.refl (ht : Tiled a) : Tidied a a :=
  ⟨rfl, rfl, ht, fun _ _ => Iff.rfl, id, fun _ _ => rfl⟩

theorem create_tiled (page : ℕ) : Seg (create page).slots 0 [⟨slotCount, false⟩] slotCount := by
  refine ⟨?_, by decide, ?_⟩
  · simp [create]
  · simp [Seg]

/-- A new arena serves every request that an arena can serve. -/
theorem search_create (hle : required ≤ slotCount) (page : ℕ) :
    searchArena (create page) required = some ((create page).take 0 required, some 0) := by
  apply Loop.run_succ_inr
  have hslot : (create page).slots 0 = ⟨slotCount, false⟩ := by simp [create]
  show searchStep required (create page, 0) = _
  unfold searchStep
  simp only [hslot]
  rw [if_neg (by decide), if_neg (by simp), if_neg (by simp), if_neg (by omega)]

theorem Scanning.set {s : SlotHeap × ℕ} (h : Scanning heap₁ s) (ha : s.1.arenas[s.2]? = some a)
    (hb : Tidied a b) :
    Scanning heap₁ ({ s.1 with arenas := s.1.arenas.set s.2 b }, s.2 + 1) := by
  have hold : heap₁.arenas[s.2]? = some a := by
    rw [← h.ahead s.2 (le_refl _)]
    exact ha
  have hlt := (List.getElem?_eq_some_iff.mp ha).1
  refine ⟨h.os, by simpa using h.length, ?_, ?_⟩
  · intro j c hj hc
    simp only at hj ⊢
    rcases Nat.lt_or_eq_of_le (Nat.le_of_lt_succ hj) with hlt' | rfl
    · rw [List.getElem?_set_ne (by omega)]
      exact h.behind j c hlt' hc
    · rw [hold] at hc
      rcases Option.some.inj hc with rfl
      exact ⟨b, by simp [hlt], hb⟩
  · intro j hj
    simp only at hj ⊢
    rw [List.getElem?_set_ne (by omega)]
    exact h.ahead j (by omega)

theorem Scanning.served {s : SlotHeap × ℕ} (h : Scanning heap₁ s) (ht : ∀ c ∈ heap₁.arenas, Tiled c)
    (ha : s.1.arenas[s.2]? = some a) (hb : Served a b i required) :
    AllocatedAt heap₁ { s.1 with arenas := s.1.arenas.set s.2 b } required
      (slotPointer b.base i) s.2 a b i := by
  have hlt := (List.getElem?_eq_some_iff.mp ha).1
  refine ⟨h.os, by simpa using h.length, ?_, by simp [hlt], hb, rfl, ?_⟩
  · rw [← h.ahead s.2 (le_refl _)]
    exact ha
  · intro j c hj hc
    simp only
    rw [List.getElem?_set_ne (by omega)]
    rcases Nat.lt_or_ge j s.2 with hlt | hge
    · exact h.behind j c hlt hc
    · rw [h.ahead j hge]
      exact ⟨c, hc, Tidied.refl (ht c (List.mem_of_getElem? hc))⟩

theorem Opened.forall_arenas {P : SlotArena → Prop} (h : Opened kernel heap heap₁)
    (hP : ∀ a ∈ heap.arenas, P a) (hnew : ∀ page, P (create page)) :
    ∀ a ∈ heap₁.arenas, P a := by
  induction h with
  | same => exact hP
  | fresh _ _ ih =>
    intro a ha
    rcases List.mem_append.mp ha with ha | ha
    · exact ih a ha
    · rw [List.mem_singleton.mp ha]
      exact hnew _

theorem Scanning.mem (h : Scanning heap s) (ha : s.1.arenas[s.2]? = some a) :
    a ∈ heap.arenas := by
  rw [h.ahead s.2 (le_refl _)] at ha
  exact List.mem_of_getElem? ha

theorem Scanning.last {s : SlotHeap × ℕ} (h : Scanning (extended kernel heap) s)
    (hindex : s.2 = heap.arenas.length) :
    s.1.arenas[s.2]? = some (create (kernel.mmap heap.os slotAllocatorSize)) := by
  rw [h.ahead s.2 (le_refl _), hindex]
  simp [extended]

/-- All arenas are behind: a new one is created. -/
theorem Scanning.extend (h : Scanning heap s) (hindex : s.2 = heap.arenas.length) :
    Scanning (extended kernel heap)
      ({ arenas := s.1.arenas ++ [create (kernel.mmap heap.os slotAllocatorSize)],
         os := (extended kernel heap).os }, s.2) := by
  have hlen := h.length
  refine ⟨rfl, by simp [extended, hlen], ?_, ?_⟩
  · intro j c hj hc
    simp only at hj ⊢
    have hc' : heap.arenas[j]? = some c := by
      simp only [extended] at hc
      rwa [List.getElem?_append_left (by omega)] at hc
    rcases h.behind j c hj hc' with ⟨d, hd, htidy⟩
    refine ⟨d, ?_, htidy⟩
    rw [List.getElem?_append_left (by omega)]
    exact hd
  · intro j hj
    simp only [extended] at hj ⊢
    rw [List.getElem?_append_right (by omega), List.getElem?_append_right (by omega), hlen]

theorem scanning_start (heap : SlotHeap) : Scanning heap (heap, 0) := by
  refine ⟨rfl, rfl, ?_, fun _ _ => rfl⟩
  intro j c hj
  simp at hj

/-- One round of the loop over the arenas of `heap`. -/
theorem Scanning.round (kernel : Kernel) (hpos : 0 < required)
    (hs : ∀ a ∈ heap.arenas, Searchable required a) (h : Scanning heap s)
    (hindex : s.2 ≤ heap.arenas.length) :
    (∃ a b, allocateArenaStep kernel required s =
        .inl ({ s.1 with arenas := s.1.arenas.set s.2 b }, s.2 + 1) ∧
        heap.arenas[s.2]? = some a ∧ a.room < required ∧
        Scanning heap ({ s.1 with arenas := s.1.arenas.set s.2 b }, s.2 + 1)) ∨
    (∃ a b i, allocateArenaStep kernel required s =
        .inr (slotPointer b.base i, { s.1 with arenas := s.1.arenas.set s.2 b }) ∧
        required ≤ a.room ∧
        AllocatedAt heap { s.1 with arenas := s.1.arenas.set s.2 b } required
          (slotPointer b.base i) s.2 a b i) ∨
    s.2 = heap.arenas.length ∧
      (kernel.mmap heap.os slotAllocatorSize = 0 ∧
          allocateArenaStep kernel required s =
            .inr (0, { s.1 with os := .refuse slotAllocatorSize :: heap.os }) ∨
        kernel.mmap heap.os slotAllocatorSize ≠ 0 ∧ allocateArenaStep kernel required s =
          .inl ({ arenas := s.1.arenas ++ [create (kernel.mmap heap.os slotAllocatorSize)],
                  os := (extended kernel heap).os }, s.2)) := by
  have hlen := h.length
  unfold allocateArenaStep
  simp only
  cases ha : s.1.arenas[s.2]? with
  | some a =>
    have hsa := hs a (h.mem ha)
    rcases search_spec hsa.1 hpos hsa.2 with ⟨⟨b, found⟩, hsearch, hpost⟩
    rcases hsa.seg with ⟨l, hl⟩
    have hfound := search_found_iff hl hpos hsearch
    simp only [hsearch]
    cases found with
    | some i =>
      exact .inr (.inl ⟨a, b, i, rfl, hfound.mp rfl, h.served (fun c hc => (hs c hc).1) ha hpost⟩)
    | none =>
      -- nothing found: on to the next arena
      have hroom : a.room < required := by
        simp only [Option.isSome_none, Bool.false_eq_true, false_iff, not_le] at hfound
        exact hfound
      exact .inl ⟨a, b, rfl, by rw [← h.ahead s.2 le_rfl]; exact ha, hroom, h.set ha hpost⟩
  | none =>
    have hend := List.getElem?_eq_none_iff.mp ha
    refine .inr (.inr ⟨by omega, ?_⟩)
    simp only [requestPage, h.os]
    by_cases hpage : kernel.mmap heap.os slotAllocatorSize = 0
    · refine .inl ⟨hpage, ?_⟩
      simp only [hpage, if_true]
    · refine .inr ⟨hpage, ?_⟩
      simp only [if_neg hpage]
      rfl

theorem create_searchable (required page : ℕ) : Searchable required (create page) :=
  ⟨⟨_, create_tiled page⟩, .inl (.inl .first)⟩

/-- All arenas are tidied up, and there was no page for another one. -/
structure SlotsTidied (heap₁ heap' : SlotHeap) : Prop where
  os : heap'.os = .refuse slotAllocatorSize :: heap₁.os
  length : heap'.arenas.length = heap₁.arenas.length
  arena : ∀ (j : ℕ) (c : SlotArena), heap₁.arenas[j]? = some c →
    ∃ d, heap'.arenas[j]? = some d ∧ Tidied c d

theorem Scanning.tidied (h : Scanning heap s) (hindex : s.2 = heap.arenas.length) :
    SlotsTidied heap { s.1 with os := .refuse slotAllocatorSize :: heap.os } := by
  refine ⟨rfl, h.length, ?_⟩
  intro j c hc
  have hlt := (List.getElem?_eq_some_iff.mp hc).1
  exact h.behind j c (by omega) hc

/-- The allocation failed: no page for a new arena. -/
structure SlotRefused (kernel : Kernel) (heap heap₁ heap' : SlotHeap) : Prop where
  opened : Opened kernel heap heap₁
  tidied : SlotsTidied heap₁ heap'
  cause : kernel.mmap heap₁.os slotAllocatorSize = 0

theorem Opened.getElem? (h : Opened kernel heap heap₁) (ha : heap.arenas[index]? = some a) :
    heap₁.arenas[index]? = some a := by
  induction h with
  | same => exact ha
  | fresh _ _ ih =>
    have hlt := (List.getElem?_eq_some_iff.mp ih).1
    simp only [extended]
    rw [List.getElem?_append_left hlt]
    exact ih

/-- The arenas before `index` have no room for `required` slots. -/
def NoRoomBefore (heap : SlotHeap) (required index : ℕ) : Prop :=
  ∀ (j : ℕ) (c : SlotArena), j < index → heap.arenas[j]? = some c → c.room < required

theorem NoRoomBefore.succ (h : NoRoomBefore heap required index)
    (ha : heap.arenas[index]? = some a) (hroom : a.room < required) :
    NoRoomBefore heap required (index + 1) := by
  intro j c hj hc
  rcases Nat.lt_or_eq_of_le (Nat.le_of_lt_succ hj) with hlt | rfl
  · exact h j c hlt hc
  · exact Option.some.inj (ha.symm.trans hc) ▸ hroom

theorem NoRoomBefore.extend (h : NoRoomBefore heap required index)
    (hle : index ≤ heap.arenas.length) : NoRoomBefore (extended kernel heap) required index := by
  intro j c hj hc
  simp only [extended] at hc
  rw [List.getElem?_append_left (by omega)] at hc
  exact h j c hj hc

/-- No arena has room for `required` slots. -/
def NoArenaRoom (heap : SlotHeap) (required : ℕ) : Prop :=
  NoRoomBefore heap required heap.arenas.length

/-- The search has come to the end of the arenas. -/
theorem NoRoomBefore.all (h : NoRoomBefore heap₁ required index)
    (hopen : Opened kernel heap heap₁) (hend : index = heap₁.arenas.length) :
    NoArenaRoom heap required := by
  intro j c hj hc
  have hc₁ := hopen.getElem? hc
  have hlt := (List.getElem?_eq_some_iff.mp hc₁).1
  exact h j c (by omega) hc₁

/-- The outcome of the loop over the arenas: a new span in the first arena with room, or null.
New arenas are created only when the old ones have no room. -/
def FirstRoomPost (kernel : Kernel) (heap : SlotHeap) (required : ℕ) (res : ℕ × SlotHeap) : Prop :=
  (∃ heap₁ index a b i, Opened kernel heap heap₁ ∧
      AllocatedAt heap₁ res.2 required res.1 index a b i ∧ required ≤ a.room ∧
      NoRoomBefore heap₁ required index ∧ (heap₁ = heap ∨ NoArenaRoom heap required)) ∨
    res.1 = 0 ∧ NoArenaRoom heap required ∧ ∃ heap₁, SlotRefused kernel heap heap₁ res.2

/-- The same, and a request that was refused has found no room in the new arenas either. -/
def ArenaScanPost (kernel : Kernel) (heap : SlotHeap) (required : ℕ) (res : ℕ × SlotHeap) : Prop :=
  FirstRoomPost kernel heap required res ∧
    (res.1 = 0 → ∃ heap₁, NoArenaRoom heap₁ required ∧ SlotRefused kernel heap heap₁ res.2)

section Search

variable (hpos : 0 < required) (hs : ∀ a ∈ heap.arenas, Searchable required a)
include hpos hs

theorem allocate_arenas_scan
    (hrun : Loop.run (allocateArenaStep kernel required) rounds (heap, 0) = some res) :
    ArenaScanPost kernel heap required res := by
  refine Loop.run_post
    (fun s => ∃ heap₁, Opened kernel heap heap₁ ∧ Scanning heap₁ s ∧
      s.2 ≤ heap₁.arenas.length ∧ NoRoomBefore heap₁ required s.2 ∧
      (heap₁ = heap ∨ NoArenaRoom heap required))
    (ArenaScanPost kernel heap required)
    ?_ ?_ ⟨heap, .same, scanning_start heap, Nat.zero_le _,
      fun j _ hj => absurd hj (Nat.not_lt_zero j), .inl rfl⟩ hrun
  · intro s s' hinv hstep
    rcases hinv with ⟨heap₁, hopen, hscan, hindex, hbefore, hnew⟩
    have hs₁ := hopen.forall_arenas hs (create_searchable required)
    rcases hscan.round kernel hpos hs₁ hindex with
      ⟨a, b, hround, ha, hroom, hnext⟩ | ⟨a, b, i, hround, -⟩ |
      ⟨hend, ⟨-, hround⟩ | ⟨hpage, hround⟩⟩
    · cases hround.symm.trans hstep
      have hlt := (List.getElem?_eq_some_iff.mp ha).1
      exact ⟨heap₁, hopen, hnext, hlt, hbefore.succ ha hroom, hnew⟩
    · cases hround.symm.trans hstep
    · cases hround.symm.trans hstep
    · -- one more arena
      cases hround.symm.trans hstep
      exact ⟨extended kernel heap₁, hopen.fresh hpage, hscan.extend hend,
        by simp [extended]; omega, hbefore.extend hindex, .inr (hbefore.all hopen hend)⟩
  · intro s res hinv hstep
    rcases hinv with ⟨heap₁, hopen, hscan, hindex, hbefore, hnew⟩
    have hs₁ := hopen.forall_arenas hs (create_searchable required)
    rcases hscan.round kernel hpos hs₁ hindex with
      ⟨a, b, hround, -⟩ | ⟨a, b, i, hround, hroom, hserved⟩ |
      ⟨hend, ⟨hpage, hround⟩ | ⟨-, hround⟩⟩
    · cases hround.symm.trans hstep
    · cases hround.symm.trans hstep
      refine ⟨.inl ⟨heap₁, s.2, a, b, i, hopen, hserved, hroom, hbefore, hnew⟩, fun hnull => ?_⟩
      simp [slotPointer] at hnull
    · cases hround.symm.trans hstep
      have hrefused : SlotRefused kernel heap heap₁ _ := ⟨hopen, hscan.tidied hend, hpage⟩
      refine ⟨.inr ⟨rfl, hbefore.all hopen hend, heap₁, hrefused⟩, fun _ => ⟨heap₁, ?_, hrefused⟩⟩
      rw [NoArenaRoom, ← hend]
      exact hbefore
    · cases hround.symm.trans hstep

/-- Whatever the loop over the arenas returns is a new span or null. -/
theorem allocate_arenas_post
    (hrun : Loop.run (allocateArenaStep kernel required) rounds (heap, 0) = some res) :
    SlotAllocated kernel heap required res ∨
      res.1 = 0 ∧ ∃ heap₁, SlotRefused kernel heap heap₁ res.2 := by
  rcases (allocate_arenas_scan hpos hs hrun).1 with
    ⟨heap₁, index, a, b, i, hopen, hserved, -⟩ | ⟨hnull, -, hrefused⟩
  · exact .inl ⟨heap₁, index, a, b, i, hopen, hserved⟩
  · exact .inr ⟨hnull, hrefused⟩

/-- For a request that an arena can hold the loop ends, at the latest in a new arena. -/
theorem allocate_arenas_ends (kernel : Kernel) (hle : required ≤ slotCount) :
    ∃ res, Loop.run (allocateArenaStep kernel required) (heap.arenas.length + 3) (heap, 0) =
      some res := by
  have hrun : ∃ res, Loop.run (allocateArenaStep kernel required) (heap.arenas.length + 3)
      (heap, 0) = some res ∧ True := by
    refine Loop.run_of_measure
      (fun s => Scanning heap s ∧ s.2 ≤ heap.arenas.length ∨
        Scanning (extended kernel heap) s ∧ s.2 = heap.arenas.length)
      (fun _ => True)
      (fun s => (heap.arenas.length - s.2) + (heap.arenas.length + 1 - s.1.arenas.length))
      ?_ (fun _ _ _ _ => trivial) (.inl ⟨scanning_start heap, Nat.zero_le _⟩) ?_
    · intro s s' hinv hstep
      rcases hinv with ⟨hscan, hindex⟩ | ⟨hscan, hindex⟩
      · have hlen := hscan.length
        rcases hscan.round kernel hpos hs hindex with
          ⟨a, b, hround, ha, -, hnext⟩ | ⟨a, b, i, hround, -⟩ |
          ⟨hend, ⟨-, hround⟩ | ⟨hpage, hround⟩⟩
        · cases hround.symm.trans hstep
          have hlt := (List.getElem?_eq_some_iff.mp ha).1
          refine ⟨.inl ⟨hnext, hlt⟩, ?_⟩
          simp only [List.length_set]
          omega
        · cases hround.symm.trans hstep
        · cases hround.symm.trans hstep
        · cases hround.symm.trans hstep
          refine ⟨.inr ⟨hscan.extend hend, hend⟩, ?_⟩
          simp only [List.length_append, List.length_singleton]
          omega
      · -- the new arena does not fail
        unfold allocateArenaStep at hstep
        simp only [hscan.last hindex, search_create hle] at hstep
        cases hstep
    · simp only
      omega
  rcases hrun with ⟨res, hrun, -⟩
  exact ⟨res, hrun⟩

end Search

theorem used_iff_getElem? : heap.Used p r ↔
    ∃ (j : ℕ) (a : SlotArena), heap.arenas[j]? = some a ∧
      ∃ k, UsedSpan a k r ∧ p = slotPointer a.base k := by
  unfold SlotHeap.Used
  simp only [List.mem_iff_getElem?]
  constructor
  · rintro ⟨a, ⟨j, hj⟩, h⟩
    exact ⟨j, a, hj, h⟩
  · rintro ⟨j, a, hj, h⟩
    exact ⟨a, ⟨j, hj⟩, h⟩

/-- Every used span of an arena is found from its pointer. -/
theorem findArena_of_usedSpan (h : ArenasOk heap.bases heap.os) (ha : heap.arenas[index]? = some a)
    (ht : Tiled a) (hu : UsedSpan a k r) : findArena heap (slotPointer a.base k) = some index := by
  apply findArena_eq h ha
  have hbounds := hu.bounds ht
  rw [inArena_iff]
  exact slotPointer_bounds a.base (by omega)

/-- Opening a heap requests arenas only. -/
theorem Opened.grown (h : Opened kernel heap heap₁) :
    Grown kernel (arenaRegion heap.bases) heap.os (arenaRegion heap₁.bases) heap₁.os := by
  induction h with
  | same => exact .refl
  | @fresh heap₁ _ hpage ih =>
    have hbases : (extended kernel heap₁).bases =
        heap₁.bases ++ [kernel.mmap heap₁.os slotAllocatorSize] := by
      simp [SlotHeap.bases, extended, create]
    rw [hbases, arenaRegion_append]
    exact ih.add _ _ hpage

theorem Opened.bases_ok (h : Opened kernel heap heap₁) (hb : ArenasOk heap.bases heap.os) :
    ArenasOk heap₁.bases heap₁.os :=
  h.grown.regionsOk hb

theorem Opened.ok (h : Opened kernel heap heap₁) (hok : SlotOk heap) : SlotOk heap₁ :=
  ⟨h.bases_ok hok.bases, h.forall_arenas hok.tiled fun page => ⟨_, create_tiled page⟩,
    h.forall_arenas hok.cursor fun _ => .inl .first⟩

theorem create_unused (page k r : ℕ) : ¬ UsedSpan (create page) k r := by
  intro h
  rw [usedSpan_iff (create_tiled page)] at h
  simp [At] at h

theorem Opened.used_iff (h : Opened kernel heap heap₁) : heap₁.Used p r ↔ heap.Used p r := by
  induction h with
  | same => exact Iff.rfl
  | fresh _ _ ih =>
    rw [← ih]
    unfold SlotHeap.Used
    simp only [extended, List.mem_append, List.mem_singleton, or_and_right, exists_or,
      exists_eq_left]
    constructor
    · intro h
      rcases h with h | ⟨k, hk, -⟩
      · exact h
      · exact absurd hk (create_unused _ k r)
    · exact .inl

/-- The first arena with room for `required` slots. -/
def firstRoom (heap : SlotHeap) (required : ℕ) : Option ℕ :=
  heap.arenas.findIdx? fun a => decide (required ≤ a.room)

theorem firstRoom_iff (hopen : Opened kernel heap heap₁) (hlt : index < heap.arenas.length)
    (ha : heap₁.arenas[j]? = some a) (hroom : required ≤ a.room)
    (hbefore : NoRoomBefore heap₁ required j) : firstRoom heap required = some index ↔ index = j := by
  unfold firstRoom
  rw [List.findIdx?_eq_some_iff_getElem]
  constructor
  · intro h
    rcases h with ⟨_, hfits, hnone⟩
    rcases Nat.lt_trichotomy index j with hij | hij | hji
    · have hno := hbefore index _ hij (hopen.getElem? (List.getElem?_eq_getElem hlt))
      have hfits := of_decide_eq_true hfits
      omega
    · exact hij
    · -- the arena that served the request is not a new one
      have hj : j < heap.arenas.length := lt_trans hji hlt
      have hsame := Option.some.inj
        (ha.symm.trans (hopen.getElem? (List.getElem?_eq_getElem hj)))
      exact absurd (decide_eq_true (hsame ▸ hroom)) (hnone j hji)
  · intro h
    subst h
    have hsame := Option.some.inj (ha.symm.trans (hopen.getElem? (List.getElem?_eq_getElem hlt)))
    refine ⟨hlt, decide_eq_true (hsame ▸ hroom), fun k hk => ?_⟩
    have hno := hbefore k _ hk
      (hopen.getElem? (List.getElem?_eq_getElem (show k < heap.arenas.length by omega)))
    simp only [decide_eq_true_eq]
    omega

/-- New arenas show in the page requests. -/
theorem Opened.os_cases (h : Opened kernel heap heap₁) :
    heap₁ = heap ∨ heap.os.length < heap₁.os.length := by
  induction h with
  | same => exact .inl rfl
  | @fresh heap₂ _ _ ih =>
    have hlen : (extended kernel heap₂).os.length = heap₂.os.length + 1 := rfl
    rcases ih with rfl | hlt
    · exact .inr (by omega)
    · exact .inr (by omega)

theorem NoArenaRoom.not_exists (h : NoArenaRoom heap required) :
    ¬ ∃ a ∈ heap.arenas, required ≤ a.room := by
  intro hsome
  rcases hsome with ⟨a, ha, hroom⟩
  rcases List.mem_iff_getElem?.mp ha with ⟨j, hj⟩
  have hlt := h j a (List.getElem?_eq_some_iff.mp hj).1 hj
  omega

/-- Another arena is asked for exactly when no arena has room behind its cursor. -/
theorem FirstRoomPost.os_eq_iff (h : FirstRoomPost kernel heap required res) :
    res.2.os = heap.os ↔ ∃ a ∈ heap.arenas, required ≤ a.room := by
  rcases h with ⟨heap₁, index, a, b, i, hopen, halloc, hroom, hbefore, hnew⟩ |
    ⟨-, hno, heap₁, hrefused⟩
  · rw [halloc.os]
    rcases hopen.os_cases with rfl | hlt
    · exact ⟨fun _ => ⟨a, List.mem_of_getElem? halloc.old, hroom⟩, fun _ => rfl⟩
    · rcases hnew with rfl | hno
      · omega
      · refine ⟨fun heq => ?_, fun hsome => absurd hsome hno.not_exists⟩
        rw [heq] at hlt
        omega
  · refine ⟨fun heq => ?_, fun hsome => absurd hsome hno.not_exists⟩
    have hlen := congrArg List.length (hrefused.tidied.os.symm.trans heq)
    simp only [List.length_cons] at hlen
    rcases hrefused.opened.os_cases with rfl | hlt <;> omega

/-- The room of the arenas is all that counts. -/
theorem firstRoom_modify (ha : heap.arenas[index]? = some a) (hroom : b.room = a.room) :
    firstRoom (heap.modify index fun _ => b) required = firstRoom heap required := by
  have hmap : (heap.arenas.modify index fun _ => b).map SlotArena.room =
      heap.arenas.map SlotArena.room := by
    apply List.ext_getElem?
    intro j
    rw [List.getElem?_map, List.getElem?_map, List.getElem?_modify]
    by_cases hj : index = j
    · subst hj
      simp [ha, hroom]
    · simp [hj]
  have hcongr := congrArg (List.findIdx? fun room => decide (required ≤ room)) hmap
  rw [List.findIdx?_map, List.findIdx?_map] at hcongr
  exact hcongr

section ArenaByArena

variable {P : ℕ → SlotArena → SlotArena → Prop}
  (hlength : heap'.arenas.length = heap₁.arenas.length)
  (harena : ∀ j c, heap₁.arenas[j]? = some c → ∃ d, heap'.arenas[j]? = some d ∧ P j c d)
include hlength harena

/-- Every arena comes from one of the heap before. -/
theorem exists_origin (hd : heap'.arenas[j]? = some d) :
    ∃ c, heap₁.arenas[j]? = some c ∧ P j c d := by
  have hlt := (List.getElem?_eq_some_iff.mp hd).1
  rw [hlength] at hlt
  have hc := List.getElem?_eq_getElem hlt
  rcases harena j _ hc with ⟨d', hd', hP⟩
  rcases Option.some.inj (hd.symm.trans hd') with rfl
  exact ⟨_, hc, hP⟩

theorem bases_eq_of_arenas (hbase : ∀ j c d, P j c d → d.base = c.base) :
    heap'.bases = heap₁.bases := by
  apply List.ext_getElem?
  intro j
  simp only [SlotHeap.bases, List.getElem?_map]
  cases hc : heap₁.arenas[j]? with
  | some c =>
    rcases harena j c hc with ⟨d, hd, hP⟩
    simp [hd, hbase j c d hP]
  | none =>
    have hge := List.getElem?_eq_none_iff.mp hc
    have hnone : heap'.arenas[j]? = none := List.getElem?_eq_none_iff.mpr (hlength ▸ hge)
    simp [hnone]

end ArenaByArena

namespace AllocatedAt

variable (h : AllocatedAt heap₁ heap' required p index a b i)
include h

/-- What becomes of each arena. -/
theorem arena_cases {c : SlotArena} (hc : heap₁.arenas[j]? = some c) :
    ∃ d, heap'.arenas[j]? = some d ∧
      (j = index ∧ c = a ∧ d = b ∨ j ≠ index ∧ Tidied c d) := by
  by_cases hj : j = index
  · subst hj
    have hca : c = a := Option.some.inj (hc.symm.trans h.old)
    exact ⟨b, h.new, .inl ⟨rfl, hca, rfl⟩⟩
  · rcases h.others j c hj hc with ⟨d, hd, htidy⟩
    exact ⟨d, hd, .inr ⟨hj, htidy⟩⟩

theorem arena_origin (hd : heap'.arenas[j]? = some d) :
    ∃ c, heap₁.arenas[j]? = some c ∧
      (j = index ∧ c = a ∧ d = b ∨ j ≠ index ∧ Tidied c d) :=
  exists_origin h.length (fun _ _ => h.arena_cases) hd

theorem bases_eq : heap'.bases = heap₁.bases := by
  apply bases_eq_of_arenas h.length fun _ _ => h.arena_cases
  intro j c d hcases
  rcases hcases with ⟨-, rfl, rfl⟩ | ⟨-, htidy⟩
  · exact h.served.base
  · exact htidy.base

theorem bases_ok (hb : ArenasOk heap₁.bases heap₁.os) : ArenasOk heap'.bases heap'.os := by
  rw [h.bases_eq, h.os]
  exact hb

theorem used_iff {q r : ℕ} :
    heap'.Used q r ↔ heap₁.Used q r ∨ q = p ∧ r = required := by
  have hp := h.pointer
  rw [used_iff_getElem?, used_iff_getElem?]
  constructor
  · rintro ⟨j, d, hd, k, hk, rfl⟩
    rcases h.arena_origin hd with ⟨c, hc, ⟨-, rfl, rfl⟩ | ⟨-, htidy⟩⟩
    · rcases (h.served.used k r).mp hk with hk | ⟨rfl, rfl⟩
      · exact .inl ⟨j, c, hc, k, hk, by rw [h.served.base]⟩
      · exact .inr ⟨hp.symm, rfl⟩
    · exact .inl ⟨j, c, hc, k, (htidy.used k r).mp hk, by rw [htidy.base]⟩
  · rintro (⟨j, c, hc, k, hk, rfl⟩ | ⟨rfl, rfl⟩)
    · rcases h.arena_cases hc with ⟨d, hd, ⟨-, rfl, rfl⟩ | ⟨-, htidy⟩⟩
      · exact ⟨j, d, hd, k, (h.served.used k r).mpr (.inl hk), by rw [h.served.base]⟩
      · exact ⟨j, d, hd, k, (htidy.used k r).mpr hk, by rw [htidy.base]⟩
    · exact ⟨index, b, h.new, i, (h.served.used i _).mpr (.inr ⟨rfl, rfl⟩), hp⟩

/-- The new span lies inside its arena. -/
theorem index_lt : i < slotCount := by
  have hu : UsedSpan b i required := (h.served.used i required).mpr (.inr ⟨rfl, rfl⟩)
  have hbounds := hu.bounds h.served.tiled
  omega

theorem tiled : ∀ d ∈ heap'.arenas, Tiled d := by
  intro d hd
  rcases List.mem_iff_getElem?.mp hd with ⟨j, hj⟩
  rcases h.arena_origin hj with ⟨c, hc, ⟨-, rfl, rfl⟩ | ⟨-, htidy⟩⟩
  · exact h.served.tiled
  · exact htidy.tiled

/-- Used spans stay where they are. -/
theorem kept {j : ℕ} {c d : SlotArena}
    (hcases : j = index ∧ c = a ∧ d = b ∨ j ≠ index ∧ Tidied c d) :
    d.base = c.base ∧ ∀ k r, UsedSpan c k r → UsedSpan d k r := by
  rcases hcases with ⟨-, rfl, rfl⟩ | ⟨-, htidy⟩
  · exact ⟨h.served.base, fun k r hk => (h.served.used k r).mpr (.inl hk)⟩
  · exact ⟨htidy.base, fun k r hk => (htidy.used k r).mpr hk⟩

/-- The search writes no header into the data of a used span. -/
theorem data_kept {j k : ℕ} {c d : SlotArena}
    (hcases : j = index ∧ c = a ∧ d = b ∨ j ≠ index ∧ Tidied c d) (hk : DataSlot c k) :
    d.slots k = c.slots k := by
  rcases hcases with ⟨-, rfl, rfl⟩ | ⟨-, htidy⟩
  · exact h.served.data k hk
  · exact htidy.data k hk

/-- The new pointer lies in the arena that served the request. -/
theorem findArena_pointer (hb : ArenasOk heap₁.bases heap₁.os) :
    findArena heap₁ p = some index := by
  apply findArena_eq hb h.old
  rw [inArena_iff, h.pointer, ← h.served.base]
  exact slotPointer_bounds b.base h.index_lt

/-- And in no other. -/
theorem inArena_pointer (hb : ArenasOk heap₁.bases heap₁.os) {c : SlotArena}
    (hc : heap₁.arenas[j]? = some c) : inArena c.base p = true ↔ j = index := by
  constructor
  · intro hp
    have hj := findArena_eq hb hc hp
    rw [h.findArena_pointer hb] at hj
    exact (Option.some.inj hj).symm
  · intro heq
    subst heq
    have hca : c = a := Option.some.inj (hc.symm.trans h.old)
    rw [inArena_iff, h.pointer, h.served.base, hca]
    exact slotPointer_bounds a.base h.index_lt

/-- No span was used at the new pointer. -/
theorem pointer_unused (hb : ArenasOk heap₁.bases heap₁.os) (ht : ∀ c ∈ heap₁.arenas, Tiled c)
    (r : ℕ) : ¬ heap₁.Used p r := by
  rw [used_iff_getElem?]
  rintro ⟨j, c, hc, k, hk, hpk⟩
  have hj := findArena_of_usedSpan hb hc (ht c (List.mem_of_getElem? hc)) hk
  rw [← hpk, h.findArena_pointer hb] at hj
  rcases Option.some.inj hj with rfl
  rcases Option.some.inj (hc.symm.trans h.old) with rfl
  have hk' : k = i := by
    rw [← slotToIndex_slotPointer c.base k, ← hpk, h.pointer, h.served.base,
      slotToIndex_slotPointer]
  exact h.served.free r (hk' ▸ hk)

end AllocatedAt

namespace SlotsTidied

variable (h : SlotsTidied heap₁ heap')
include h

theorem arena_origin (hd : heap'.arenas[j]? = some d) :
    ∃ c, heap₁.arenas[j]? = some c ∧ Tidied c d :=
  exists_origin h.length h.arena hd

theorem bases_eq : heap'.bases = heap₁.bases :=
  bases_eq_of_arenas h.length h.arena fun _ _ _ htidy => htidy.base

theorem used_iff : heap'.Used p r ↔ heap₁.Used p r := by
  rw [used_iff_getElem?, used_iff_getElem?]
  constructor
  · rintro ⟨j, d, hd, k, hk, rfl⟩
    rcases h.arena_origin hd with ⟨c, hc, htidy⟩
    exact ⟨j, c, hc, k, (htidy.used k r).mp hk, by rw [htidy.base]⟩
  · rintro ⟨j, c, hc, k, hk, rfl⟩
    rcases h.arena j c hc with ⟨d, hd, htidy⟩
    exact ⟨j, d, hd, k, (htidy.used k r).mpr hk, by rw [htidy.base]⟩

theorem ok (hok : SlotOk heap₁) : SlotOk heap' := by
  have harena : ∀ d ∈ heap'.arenas, ∃ c ∈ heap₁.arenas, Tidied c d := by
    intro d hd
    rcases List.mem_iff_getElem?.mp hd with ⟨j, hj⟩
    rcases h.arena_origin hj with ⟨c, hc, htidy⟩
    exact ⟨c, List.mem_of_getElem? hc, htidy⟩
  refine ⟨?_, ?_, ?_⟩
  · rw [h.bases_eq, h.os]
    exact hok.bases.refuse _
  · intro d hd
    rcases harena d hd with ⟨c, -, htidy⟩
    exact htidy.tiled
  · intro d hd
    rcases harena d hd with ⟨c, hc, htidy⟩
    exact htidy.cursorOk (hok.cursor c hc)

end SlotsTidied

namespace SlotRefused

variable (h : SlotRefused kernel heap heap₁ heap')
include h

theorem fails : ¬ kernel.Succeeds :=
  fun hkernel => hkernel _ _ h.cause

theorem ok (hok : SlotOk heap) : SlotOk heap' :=
  h.tidied.ok (h.opened.ok hok)

theorem grown :
    Grown kernel (arenaRegion heap.bases) heap.os (arenaRegion heap'.bases) heap'.os := by
  rw [h.tidied.bases_eq, h.tidied.os]
  exact .refuse _ h.opened.grown h.cause

theorem used_iff : heap'.Used p r ↔ heap.Used p r := by
  rw [h.tidied.used_iff, h.opened.used_iff]

end SlotRefused

/-- What an allocation on a heap with all cursors in place returns: a new span, or null. -/
structure SlotAllocatePost (kernel : Kernel) (heap : SlotHeap) (size : ℕ) (res : ℕ × SlotHeap) :
    Prop where
  ok : SlotOk res.2
  grown : Grown kernel (arenaRegion heap.bases) heap.os (arenaRegion res.2.bases) res.2.os
  outcome : res.1 ≠ 0 ∧ (∀ q r, res.2.Used q r ↔ heap.Used q r ∨ q = res.1 ∧ r = requiredSlots size) ∧
      (∀ r, ¬ heap.Used res.1 r) ∨
    res.1 = 0 ∧ ¬ kernel.Succeeds ∧ ∀ q r, res.2.Used q r ↔ heap.Used q r

theorem slotAllocate_post (h : SlotOk heap) (hpos : 0 < requiredSlots size)
    (hrun : slotAllocatorAllocateWithin kernel rounds heap size = some res) :
    SlotAllocatePost kernel heap size res := by
  rcases allocate_arenas_post hpos (h.searchable _) hrun with
    ⟨heap₁, index, a, b, i, hopen, halloc⟩ | ⟨hnull, heap₁, hrefused⟩
  · rcases hopen.ok h with ⟨hbases, htiled, hcursor⟩
    refine ⟨⟨halloc.bases_ok hbases, halloc.tiled, ?_⟩, ?_, .inl ⟨?_, ?_, ?_⟩⟩
    · -- the cursor of the serving arena is behind the new span
      intro d hd
      rcases List.mem_iff_getElem?.mp hd with ⟨j, hj⟩
      rcases halloc.arena_origin hj with ⟨c, hc, ⟨-, rfl, rfl⟩ | ⟨-, htidy⟩⟩
      · exact halloc.served.cursorOk
      · exact htidy.cursorOk (hcursor c (List.mem_of_getElem? hc))
    · rw [halloc.bases_eq, halloc.os]
      exact hopen.grown
    · rw [halloc.pointer, slotPointer]
      simp
    · intro q r
      rw [halloc.used_iff, hopen.used_iff]
    · intro r hr
      exact halloc.pointer_unused hbases htiled r (hopen.used_iff.mpr hr)
  · refine ⟨hrefused.ok h, hrefused.grown, .inr ⟨hnull, hrefused.fails, ?_⟩⟩
    intro q r
    exact hrefused.used_iff

/-- An allocation that an arena can hold returns. -/
theorem slotAllocate_spec (kernel : Kernel) (h : SlotOk heap)
    (hpos : 0 < requiredSlots size) (hle : requiredSlots size ≤ slotCount) :
    ∃ res, slotAllocatorAllocate kernel heap size = some res ∧
      SlotAllocatePost kernel heap size res := by
  rcases allocate_arenas_ends hpos (h.searchable _) kernel hle with ⟨res, hrun⟩
  exact ⟨res, hrun, slotAllocate_post h hpos hrun⟩

/-! ## Changing one arena -/

/-- `heap'` is `heap` with the arena `a` at `index` replaced by `b`. -/
structure Replaced (heap heap' : SlotHeap) (index : ℕ) (a b : SlotArena) : Prop where
  os : heap'.os = heap.os
  old : heap.arenas[index]? = some a
  new : heap'.arenas[index]? = some b
  others : ∀ j, j ≠ index → heap'.arenas[j]? = heap.arenas[j]?
  base : b.base = a.base

theorem replaced_modify {f : SlotArena → SlotArena} (ha : heap.arenas[index]? = some a)
    (hbase : (f a).base = a.base) : Replaced heap (heap.modify index f) index a (f a) := by
  refine ⟨rfl, ha, ?_, ?_, hbase⟩
  · simp [SlotHeap.modify, ha]
  · intro j hj
    simp [SlotHeap.modify, Ne.symm hj]

theorem replaced_by (ha : heap.arenas[index]? = some a) (hbase : b.base = a.base) :
    Replaced heap (heap.modify index fun _ => b) index a b :=
  replaced_modify (f := fun _ => b) ha hbase

namespace Replaced

variable (h : Replaced heap heap' index a b)
include h

theorem bases_eq : heap'.bases = heap.bases := by
  apply List.ext_getElem?
  intro j
  simp only [SlotHeap.bases, List.getElem?_map]
  by_cases hj : j = index
  · subst hj
    simp [h.old, h.new, h.base]
  · rw [h.others j hj]

theorem bases_ok (hb : ArenasOk heap.bases os) : ArenasOk heap'.bases os :=
  h.bases_eq ▸ hb

theorem forall_arenas {P : SlotArena → Prop} (hP : ∀ c ∈ heap.arenas, P c) (hb : P b) :
    ∀ c ∈ heap'.arenas, P c := by
  intro c hc
  rcases List.mem_iff_getElem?.mp hc with ⟨j, hj⟩
  by_cases hindex : j = index
  · subst hindex
    rw [h.new] at hj
    exact Option.some.inj hj ▸ hb
  · rw [h.others j hindex] at hj
    exact hP c (List.mem_of_getElem? hj)

theorem ok (hok : SlotOk heap) (ht : Tiled b) (hc : CursorOk b) : SlotOk heap' :=
  ⟨h.os ▸ h.bases_ok hok.bases, h.forall_arenas hok.tiled ht, h.forall_arenas hok.cursor hc⟩

/-- Spans at other pointers are the same when only the span at `i` has changed. -/
theorem used_of_ne (hspans : ∀ k r, k ≠ i → (UsedSpan b k r ↔ UsedSpan a k r))
    (hq : q ≠ slotPointer a.base i) : heap'.Used q r ↔ heap.Used q r := by
  rw [used_iff_getElem?, used_iff_getElem?]
  constructor
  · rintro ⟨j, c, hc, k, hk, hqk⟩
    by_cases hj : j = index
    · subst hj
      rcases Option.some.inj (hc.symm.trans h.new) with rfl
      rw [h.base] at hqk
      have hki : k ≠ i := fun heq => hq (heq ▸ hqk)
      exact ⟨j, a, h.old, k, (hspans k r hki).mp hk, hqk⟩
    · exact ⟨j, c, by rw [← h.others j hj]; exact hc, k, hk, hqk⟩
  · rintro ⟨j, c, hc, k, hk, hqk⟩
    by_cases hj : j = index
    · subst hj
      rcases Option.some.inj (hc.symm.trans h.old) with rfl
      have hki : k ≠ i := fun heq => hq (heq ▸ hqk)
      exact ⟨j, b, h.new, k, (hspans k r hki).mpr hk, by rw [h.base]; exact hqk⟩
    · exact ⟨j, c, by rw [h.others j hj]; exact hc, k, hk, hqk⟩

end Replaced

/-- The span at a pointer is the span in the arena of the pointer. -/
theorem used_at (hb : ArenasOk heap.bases heap.os) (ht : ∀ c ∈ heap.arenas, Tiled c)
    (ha : heap.arenas[index]? = some a) (hi : i < slotCount) :
    heap.Used (slotPointer a.base i) r ↔ UsedSpan a i r := by
  rw [used_iff_getElem?]
  constructor
  · rintro ⟨j, c, hc, k, hk, heq⟩
    have hj := findArena_of_usedSpan hb hc (ht c (List.mem_of_getElem? hc)) hk
    have hindex : findArena heap (slotPointer a.base i) = some index :=
      findArena_eq hb ha ((inArena_iff _ _).mpr (slotPointer_bounds a.base hi))
    rw [← heq, hindex] at hj
    rcases Option.some.inj hj with rfl
    rcases Option.some.inj (hc.symm.trans ha) with rfl
    have hki : k = i := by
      rw [← slotToIndex_slotPointer c.base k, ← heq, slotToIndex_slotPointer]
    exact hki ▸ hk
  · intro hu
    exact ⟨index, a, ha, i, hu, rfl⟩

/-- Replacing an arena by one with the same used spans changes no used span. -/
theorem Replaced.used_same (h : Replaced heap heap' index a b)
    (hspans : ∀ k r, UsedSpan b k r ↔ UsedSpan a k r) : heap'.Used q r ↔ heap.Used q r := by
  -- no slot lies behind `slotCount + q`, so every pointer in question is another one
  refine h.used_of_ne (i := slotCount + q) (fun k r _ => hspans k r) ?_
  have hcount : slotCount = 248 := rfl
  simp only [slotPointer, sizeofSlotAllocator, slotSize, slotAllocatorSlotSize, sizeofSlot]
  omega

/-- Replacing an arena by one without the used span at `i`. -/
theorem Replaced.used_removed (h : Replaced heap heap' index a b)
    (hb : ArenasOk heap'.bases heap'.os) (ht : ∀ c ∈ heap'.arenas, Tiled c) (hi : i < slotCount)
    (hspans : ∀ k r, UsedSpan b k r ↔ UsedSpan a k r ∧ k ≠ i) :
    heap'.Used q r ↔ heap.Used q r ∧ q ≠ slotPointer a.base i := by
  by_cases hq : q = slotPointer a.base i
  · subst hq
    have hat := used_at (r := r) hb ht h.new hi
    rw [h.base, hspans] at hat
    rw [hat]
    simp
  · rw [h.used_of_ne (fun k r hk => by simp [hspans, hk]) hq]
    simp [hq]

/-! ## Deallocation -/

theorem initialArena_of_used (hu : heap.Used p r) : initialArena kernel heap = some heap := by
  rcases hu with ⟨a, ha, -⟩
  unfold initialArena
  rw [if_neg]
  rintro hnil
  simp [hnil] at ha

/-- The arena and the slot behind a pointer that is in use. -/
theorem SlotOk.locate (h : SlotOk heap) (hu : heap.Used p r) :
    ∃ index a i, heap.arenas[index]? = some a ∧ a ∈ heap.arenas ∧ UsedSpan a i r ∧
      p = slotPointer a.base i ∧ i < slotCount ∧ findArena heap p = some index ∧
      slotToIndex a.base p = i := by
  rcases used_iff_getElem?.mp hu with ⟨index, a, ha, i, hi, rfl⟩
  have hmem := List.mem_of_getElem? ha
  have hbounds := hi.bounds (h.tiled a hmem)
  exact ⟨index, a, i, ha, hmem, hi, rfl, by omega,
    findArena_of_usedSpan h.bases ha (h.tiled a hmem) hi, slotToIndex_slotPointer _ _⟩

/-- The data of a used span lies in its arena. -/
theorem slotPointer_holds (base : ℕ) (hr : 0 < r) (hk : k + r ≤ slotCount) :
    Range.Holds ⟨base, slotAllocatorSize⟩ (slotPointer base k) (r * slotSize - sizeofSlot) := by
  have hcount : slotCount = 248 := rfl
  have hextent : pageExtent slotAllocatorSize = 131072 := rfl
  unfold Range.Holds
  rw [hextent]
  simp only [slotPointer, sizeofSlotAllocator, slotSize, slotAllocatorSlotSize, sizeofSlot]
  omega

/-- Used spans have no data in common. -/
theorem SlotHeap.Used.disjoint {q r' : ℕ} (h : SlotOk heap) (hu : heap.Used p r)
    (hu' : heap.Used q r') (hne : p ≠ q) :
    p + (r * slotSize - sizeofSlot) ≤ q ∨ q + (r' * slotSize - sizeofSlot) ≤ p := by
  rcases h.locate hu with ⟨index, a, i, ha, hmem, hi, rfl, -⟩
  rcases h.locate hu' with ⟨index', b, j, hb, hmem', hj, rfl, -⟩
  have hibounds := hi.bounds (h.tiled a hmem)
  have hjbounds := hj.bounds (h.tiled b hmem')
  -- in one arena the spans are apart, and otherwise the arenas
  by_cases heq : index = index'
  · subst heq
    rcases Option.some.inj (ha.symm.trans hb) with rfl
    have hspans := hi.disjoint (h.tiled a hmem) hj
    simp only [slotPointer, sizeofSlotAllocator, slotSize, slotAllocatorSlotSize, sizeofSlot] at hne ⊢
    omega
  · refine h.bases.disjoint (arenaRegion_bases ha) (arenaRegion_bases hb) heq
      (slotPointer_holds _ hibounds.1 hibounds.2) (slotPointer_holds _ hjbounds.1 hjbounds.2) ?_ ?_
    · simp only [slotSize, slotAllocatorSlotSize, sizeofSlot]
      omega
    · simp only [slotSize, slotAllocatorSlotSize, sizeofSlot]
      omega

/-- A deallocation of a used span removes this span. -/
theorem slotDeallocate_spec (kernel : Kernel) (h : SlotOk heap) (hu : heap.Used p r) :
    ∃ heap', slotAllocatorDeallocate kernel heap p = some (true, heap') ∧ SlotOk heap' ∧
      heap'.os = heap.os ∧ heap'.bases = heap.bases ∧
      ∀ q r', heap'.Used q r' ↔ heap.Used q r' ∧ q ≠ p := by
  rcases h.locate hu with ⟨index, a, i, ha, hmem, hi, rfl, hlt, hfind, hindex⟩
  rcases free_spec (h.tiled a hmem) (h.cursor a hmem) hi with ⟨htiled, hcursor, hspans⟩
  let f : SlotArena → SlotArena := fun c => c.free (slotToIndex c.base (slotPointer a.base i))
  have hfa : f a = a.free i := by
    show a.free (slotToIndex a.base _) = _
    rw [hindex]
  have hrep : Replaced heap (heap.modify index f) index a (a.free i) :=
    hfa ▸ replaced_modify ha rfl
  have hok := hrep.ok h htiled hcursor
  refine ⟨heap.modify index f, ?_, hok, rfl, hrep.bases_eq, fun q r' => ?_⟩
  · unfold slotAllocatorDeallocate
    rw [initialArena_of_used hu]
    simp only [Option.bind_eq_bind, Option.bind_some, hfind]
    rfl
  · exact hrep.used_removed hok.bases hok.tiled hlt hspans

/-- The first arena is created, or nothing happens. -/
theorem initialArena_opened (h : initialArena kernel heap = some heap') :
    Opened kernel heap heap' := by
  unfold initialArena at h
  by_cases hnil : heap.arenas = []
  · by_cases hpage : kernel.mmap heap.os slotAllocatorSize = 0
    · simp only [hnil, if_true, requestPage, hpage, reduceCtorEq] at h
    · simp only [hnil, if_true, requestPage, if_neg hpage, Option.some.injEq] at h
      have hopen : Opened kernel heap (extended kernel heap) := Opened.same.fresh hpage
      rw [extended, hnil, List.nil_append, h] at hopen
      exact hopen
  · simp only [hnil, if_false, Option.some.injEq] at h
    exact h ▸ .same

theorem initialArena_succeeds (hkernel : kernel.Succeeds) (heap : SlotHeap) :
    ∃ heap', initialArena kernel heap = some heap' := by
  unfold initialArena
  split
  · have hpage : kernel.mmap heap.os slotAllocatorSize ≠ 0 := hkernel _ _
    simp only [requestPage, if_neg hpage]
    exact ⟨_, rfl⟩
  · exact ⟨heap, rfl⟩

/-- New arenas do not contain an address that was mapped before, nor null. -/
theorem Opened.outside (h : Opened kernel heap heap₁) (hold : p = 0 ∨ Mapped heap.os p)
    (hp : ∀ b ∈ heap.bases, inArena b p = false) : ∀ b ∈ heap₁.bases, inArena b p = false := by
  induction h with
  | same => exact hp
  | @fresh heap₁ hopen hpage ih =>
    intro b hb
    simp only [SlotHeap.bases, extended, List.map_append, List.map_singleton, List.mem_append,
      List.mem_singleton] at hb
    rcases hb with hb | rfl
    · exact ih b hb
    · by_contra hin
      simp only [Bool.not_eq_false, inArena_iff, create] at hin
      rcases hold with rfl | hmapped
      · omega
      · exact kernel.fresh heap₁.os slotAllocatorSize p hpage ((has_arena _ p).mpr hin)
          (hopen.grown.mapped hmapped)

theorem findArena_outside (hp : ∀ b ∈ heap.bases, inArena b p = false) :
    findArena heap p = none := by
  refine List.findIdx?_eq_none_iff.mpr fun a ha => ?_
  exact hp a.base (List.mem_map_of_mem ha)

/-- A deallocation of a pointer that no arena contains changes no span. -/
theorem slotDeallocate_foreign (hold : p = 0 ∨ Mapped heap.os p)
    (hp : ∀ b ∈ heap.bases, inArena b p = false) (hinit : initialArena kernel heap = some heap') :
    slotAllocatorDeallocate kernel heap p = some (false, heap') := by
  have hnone := findArena_outside ((initialArena_opened hinit).outside hold hp)
  simp [slotAllocatorDeallocate, hinit, hnone]

/-- The same for a reallocation. -/
theorem slotReallocate_foreign (rounds size : ℕ) (hold : p = 0 ∨ Mapped heap.os p)
    (hp : ∀ b ∈ heap.bases, inArena b p = false) (hinit : initialArena kernel heap = some heap') :
    slotAllocatorReallocateWithin kernel rounds heap p size = some ⟨0, heap', []⟩ := by
  have hnone := findArena_outside ((initialArena_opened hinit).outside hold hp)
  simp [slotAllocatorReallocateWithin, hinit, hnone]

end SysProg.Memory
