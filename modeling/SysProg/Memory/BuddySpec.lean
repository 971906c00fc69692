import Mathlib.Tactic
import SysProg.Memory.BuddyBitmap

/-!
# What the operations of the buddy allocator do to the set of blocks

`Tracks nodes L` says that the bitmap is an exact account of the blocks `L`, a set of
tree nodes. Each operation of `buddy_allocator.c` gets one specification over it:

* `allocate_spec` — the search ends, and either finds no node or hands out a node of
  the fitting bucket that is apart from all blocks;
* `findBuddy_spec` — the node of a live pointer is found;
* `deallocate_spec`, `reallocate_spec` — how the set of blocks changes.

Every loop is shown to end by `Loop.run_of_measure`.
-/

namespace SysProg.Memory

open ByteMemory HeapTree

/-- The marked nodes of a bitmap are the ancestors of the blocks `L`. -/
abbrev Tracks (nodes : Bitmap) (L : Set ℕ) : Prop :=
  Exact (fun i => isMarked nodes i = true) L

variable {nodes : Bitmap} {L : Set ℕ} {size page p b n : ℕ} {a : BuddyAllocator}
  {s s' : AllocateLoop}

theorem tracks_emptyBitmap : Tracks emptyBitmap ∅ := by
  apply Exact.empty
  intro i h
  rw [isMarked_emptyBitmap] at h
  exact Bool.false_ne_true h

theorem not_mem_of_isSplit (h : Tracks nodes L) {i : ℕ} (hs : isSplit nodes i b = true) :
    i ∉ L := by
  apply h.not_mem_of_child
  simp only [isSplit, Bool.and_eq_true, Bool.or_eq_true, decide_eq_true_eq] at hs
  exact hs.2

/-! ## Allocation -/

/-- The search stands on a node of the tree with no block above it. -/
structure Searching (nodes : Bitmap) (L : Set ℕ) (size : ℕ) (s : AllocateLoop) : Prop where
  same : s.nodes = nodes
  node : NodeAt 0 s.pageOffset s.bucket s.i
  fits : size ≤ bucketSize s.bucket
  above : ∀ a, Below a s.i → a ≠ s.i → a ∉ L

/-- A node has been chosen, and the path from it up to `s.i` is marked. -/
structure Marking (nodes : Bitmap) (L : Set ℕ) (size : ℕ) (s : AllocateLoop) (n : ℕ) : Prop where
  node : NodeAt 0 s.pageOffset (fitBucket size) n
  apart : ∀ m ∈ L, Apart m n
  path : Below s.i n
  marks : ∀ j, isMarked s.nodes j = true ↔ isMarked nodes j = true ∨ Below s.i j ∧ Below j n

/-- The search climbs out of marked nodes only. -/
def AllocateInv (nodes : Bitmap) (L : Set ℕ) (size : ℕ) (s : AllocateLoop) : Prop :=
  match s.pc with
  | .visit => Searching nodes L size s
  | .climb => Searching nodes L size s ∧ isMarked nodes s.i = true
  | .markUp => ∃ n, Marking nodes L size s n

/-- The search goes through the tree from left to right: what is still to be seen
begins at the node (`visit`) or behind it (`climb`). -/
def allocateMeasure (s : AllocateLoop) : ℕ :=
  match s.pc with
  | .visit => 1000 + (256 - start 8 s.bucket s.i) * 20 + (9 - s.bucket)
  | .climb => 1000 + (256 - (start 8 s.bucket s.i + 2 ^ (8 - s.bucket))) * 20 + (10 + s.bucket)
  | .markUp => s.i

/-- What one allocation did to the bitmap. -/
def AllocatePost (nodes : Bitmap) (L : Set ℕ) (size : ℕ) (r : Option ℕ × Bitmap) : Prop :=
  match r.1 with
  | none => r.2 = nodes ∧ isMarked nodes 0 = true
  | some offset => ∃ n, NodeAt 0 offset (fitBucket size) n ∧
      (∀ m ∈ L, Apart m n) ∧ ∀ j, isMarked r.2 j = true ↔ isMarked nodes j = true ∨ Below j n

/-- What one step of the search does. -/
inductive AllocateRound (size : ℕ) (s : AllocateLoop) :
    AllocateLoop ⊕ (Option ℕ × Bitmap) → Prop where
  | used : s.pc = .visit → isMarked s.nodes s.i = true →
      bucketSize (s.bucket + 1) < size ∨ isSplit s.nodes s.i s.bucket = false →
      AllocateRound size s (.inl { s with pc := .climb })
  | descend : s.pc = .visit →
      (isMarked s.nodes s.i = true → isSplit s.nodes s.i s.bucket = true) →
      size ≤ bucketSize (s.bucket + 1) →
      AllocateRound size s (.inl { s with pc := .visit, i := left s.i, bucket := s.bucket + 1 })
  | choose : s.pc = .visit → isMarked s.nodes s.i = false → bucketSize (s.bucket + 1) < size →
      AllocateRound size s (.inl { s with pc := .markUp, nodes := mark s.nodes s.i })
  | up : s.pc = .climb → isLeft s.i = false →
      AllocateRound size s (.inl { s with
        pc := .climb
        i := parent s.i
        pageOffset := s.pageOffset - bucketSize s.bucket
        bucket := s.bucket - 1 })
  | full : s.pc = .climb → s.i = 0 → AllocateRound size s (.inr (none, s.nodes))
  | across : s.pc = .climb → isLeft s.i = true → s.i ≠ 0 →
      AllocateRound size s (.inl { s with
        pc := .visit
        i := sibling s.i
        pageOffset := s.pageOffset + bucketSize s.bucket })
  | found : s.pc = .markUp → s.i = 0 → AllocateRound size s (.inr (some s.pageOffset, s.nodes))
  | markUp : s.pc = .markUp → s.i ≠ 0 →
      AllocateRound size s (.inl { s with
        pc := .markUp
        i := parent s.i
        nodes := mark s.nodes (parent s.i) })

theorem allocateStep_round (size : ℕ) (s : AllocateLoop) :
    AllocateRound size s (allocateStep size s) := by
  cases hpc : s.pc with
  | visit =>
    simp only [allocateStep, hpc]
    split
    · rename_i hused
      simp only [Bool.and_eq_true, Bool.or_eq_true, decide_eq_true_eq, Bool.not_eq_true'] at hused
      exact .used hpc hused.1 hused.2
    · -- not marked, or split and still large enough for its halves
      rename_i hfree
      simp only [Bool.and_eq_true, Bool.or_eq_true, decide_eq_true_eq, Bool.not_eq_true', not_and,
        not_or, not_lt, Bool.not_eq_false] at hfree
      split
      · rename_i hle
        exact .descend hpc (fun hmark => (hfree hmark).2) hle
      · rename_i hgt
        refine .choose hpc (Bool.eq_false_of_not_eq_true fun hmark => ?_) (not_le.mp hgt)
        exact hgt (hfree hmark).1
  | climb =>
    simp only [allocateStep, hpc]
    split_ifs with hright h0
    · exact .up hpc (by simpa using hright)
    · exact .full hpc h0
    · exact .across hpc (by simpa using hright) h0
  | markUp =>
    simp only [allocateStep, hpc]
    split_ifs with h0
    · exact .found hpc h0
    · exact .markUp hpc h0

theorem allocateStep_inl (hstep : allocateStep size s = .inl s') :
    AllocateRound size s (.inl s') :=
  hstep ▸ allocateStep_round size s

theorem allocateStep_inr {s : AllocateLoop} {r : Option ℕ × Bitmap}
    (hstep : allocateStep size s = .inr r) : AllocateRound size s (.inr r) :=
  hstep ▸ allocateStep_round size s

section Step

variable {s : AllocateLoop}

section

variable (hinv : Searching nodes L size s)
include hinv

/-- The search goes down to the left child. -/
theorem Searching.descend (hi : s.i ∉ L) (hb : s.bucket < 8)
    (hle : size ≤ bucketSize (s.bucket + 1)) :
    Searching nodes L size { s with pc := .visit, i := left s.i, bucket := s.bucket + 1 } := by
  rcases hinv with ⟨hsame, ⟨hlevel, hdepth, haddr⟩, hfits, habove⟩
  refine ⟨hsame, ⟨hlevel.left, by simp only; omega, ?_⟩, hle, ?_⟩
  · show s.pageOffset = 0 + 16 * start 8 (s.bucket + 1) (2 * s.i + 1)
    rw [start_left hb, haddr]
  · intro a ha hne
    rcases Below.left_iff.mp ha with ha | ha
    · exact absurd ha hne
    · by_cases hai : a = s.i
      · exact hai ▸ hi
      · exact habove a ha hai

/-- An unmarked node of the right size is handed out. -/
theorem Searching.choose (h : Tracks nodes L) (hunmarked : isMarked s.nodes s.i = false)
    (hgt : bucketSize (s.bucket + 1) < size) :
    Marking nodes L size { s with pc := .markUp, nodes := mark s.nodes s.i } s.i := by
  rcases hinv with ⟨hsame, ⟨hlevel, hdepth, haddr⟩, hfits, habove⟩
  have hlt := AtLevel_lt hlevel hdepth
  have hfit : fitBucket size = s.bucket := fitBucket_eq hdepth hfits (.inr hgt)
  rw [hsame] at hunmarked
  refine ⟨?_, h.apart_of_unmarked (by simp [hunmarked]) habove, .refl, ?_⟩
  · rw [hfit]
    exact ⟨hlevel, hdepth, haddr⟩
  · intro j
    show isMarked (mark s.nodes s.i) j = true ↔ _
    rw [isMarked_mark (by omega), hsame, Bool.or_eq_true, decide_eq_true_eq]
    constructor
    · rintro (rfl | hj)
      · exact .inr ⟨.refl, .refl⟩
      · exact .inl hj
    · rintro (hj | ⟨h1, h2⟩)
      · exact .inr hj
      · exact .inl (h2.antisymm h1)

/-- The search goes on with the sibling of a left child. -/
theorem Searching.across {q : ℕ} (hi : s.i = left q) (hsibling : sibling s.i = right q)
    : Searching nodes L size { s with
      pc := .visit
      i := sibling s.i
      pageOffset := s.pageOffset + bucketSize s.bucket } := by
  rcases hinv with ⟨hsame, ⟨hlevel, hdepth, haddr⟩, hfits, habove⟩
  rcases hlevel.of_child (.inl hi) with ⟨c, hc, hlq⟩
  have hstart := start_left (i := q) (show c < 8 by omega)
  have hright := start_right hlq (show c < 8 by omega)
  simp only [hi, hc, left] at haddr habove
  simp only [hsibling]
  refine ⟨hsame, ⟨?_, hdepth, ?_⟩, hfits, ?_⟩
  · show AtLevel s.bucket (2 * q + 2)
    rw [hc]
    exact hlq.right
  · show s.pageOffset + bucketSize s.bucket = 0 + 16 * start 8 s.bucket (2 * q + 2)
    rw [hc, hright, bucketSize_eq (by omega), haddr, hstart]
    ring
  · intro a ha hne
    have haq : Below a q := (Below.right_iff.mp ha).resolve_left hne
    refine habove a haq.left ?_
    have := haq.le
    omega

/-- The search goes up from a right child. -/
theorem Searching.up {q : ℕ} (hi : s.i = right q) (hparent : parent s.i = q)
    : Searching nodes L size { s with
      pc := .climb
      i := parent s.i
      pageOffset := s.pageOffset - bucketSize s.bucket
      bucket := s.bucket - 1 } := by
  rcases hinv with ⟨hsame, ⟨hlevel, hdepth, haddr⟩, hfits, habove⟩
  rcases hlevel.of_child (.inr hi) with ⟨c, hc, hlq⟩
  have hright := start_right hlq (show c < 8 by omega)
  simp only [hi, hc, right] at haddr habove
  simp only [hparent]
  refine ⟨hsame, ⟨?_, by simp only; omega, ?_⟩, ?_, ?_⟩
  · show AtLevel (s.bucket - 1) q
    rw [hc]
    exact hlq
  · show s.pageOffset - bucketSize s.bucket = 0 + 16 * start 8 (s.bucket - 1) q
    rw [hc, bucketSize_eq (by omega), haddr, hright, Nat.add_sub_cancel]
    omega
  · exact hfits.trans (bucketSize_antitone (Nat.sub_le _ _))
  · intro a ha hne
    refine habove a ha.right ?_
    have : a ≤ q := ha.le
    omega

end

/-- One more node of the path is marked. -/
theorem Marking.markUp (hinv : Marking nodes L size s n) (h0 : s.i ≠ 0) :
    parent s.i < s.i ∧ Marking nodes L size { s with
      pc := .markUp
      i := parent s.i
      nodes := mark s.nodes (parent s.i) } n := by
  rcases hinv with ⟨hnode, hapart, hpath, hmarks⟩
  have hlt : s.i < 511 := lt_of_le_of_lt hpath.le (AtLevel_lt hnode.level hnode.depth)
  have hs := siblings_of_ne_zero (by omega) h0
  have hp := hs.lt
  refine ⟨hp, hnode, hapart, hs.parent_below.trans hpath, ?_⟩
  intro j
  show isMarked (mark s.nodes (parent s.i)) j = true ↔ _ ∨ Below (parent s.i) j ∧ Below j n
  rw [isMarked_mark (by omega), Bool.or_eq_true, decide_eq_true_eq, hmarks]
  constructor
  · rintro (rfl | hj | ⟨h1, h2⟩)
    · exact .inr ⟨.refl, hs.parent_below.trans hpath⟩
    · exact .inl hj
    · exact .inr ⟨hs.parent_below.trans h1, h2⟩
  · rintro (hj | ⟨h1, h2⟩)
    · exact .inr (.inl hj)
    · -- `j` and `s.i` are both above `n`, so one is above the other
      rcases h2.comparable hpath with h | h
      · rcases hs.below_iff.mp h with rfl | h
        · exact .inr (.inr ⟨.refl, h2⟩)
        · exact .inl (h.antisymm h1)
      · exact .inr (.inr ⟨h, h2⟩)

end Step

/-- A step from one visit to the next goes down to the left child. -/
theorem visit_descends (hpc : s.pc = .visit) (hpc' : s'.pc = .visit)
    (hstep : allocateStep size s = .inl s') :
    s'.i = left s.i ∧ (isMarked s.nodes s.i = true → isSplit s.nodes s.i s.bucket = true) ∧
      size ≤ bucketSize (s.bucket + 1) := by
  cases allocateStep_inl hstep with
  | descend _ hsplit hle => exact ⟨rfl, hsplit, hle⟩
  | used | choose => cases hpc'
  | up hclimb | across hclimb => cases hpc.symm.trans hclimb
  | markUp hmark => cases hpc.symm.trans hmark

/-- No size but zero fits below the lowest bucket, so the search descends to nodes only. -/
theorem descend_lt (hsize : 1 ≤ size) (hdepth : s.bucket ≤ 8)
    (hpc : s.pc = .visit) (hstep : allocateStep size s = .inl s') (hpc' : s'.pc = .visit) :
    s.bucket < 8 := by
  by_contra hb
  obtain hb : s.bucket = 8 := by omega
  have hle := (visit_descends hpc hpc' hstep).2.2
  rw [hb, bucketSize_nine] at hle
  omega

theorem allocate_done {s : AllocateLoop} {r : Option ℕ × Bitmap}
    (hinv : AllocateInv nodes L size s) (hstep : allocateStep size s = .inr r) :
    AllocatePost nodes L size r := by
  cases allocateStep_inr hstep with
  | full hpc h0 =>
    simp only [AllocateInv, hpc] at hinv
    exact ⟨hinv.1.same, h0 ▸ hinv.2⟩
  | found hpc h0 =>
    simp only [AllocateInv, hpc] at hinv
    rcases hinv with ⟨n, hnode, hapart, hpath, hmarks⟩
    refine ⟨n, hnode, hapart, fun j => ?_⟩
    rw [hmarks j, h0]
    simp [Below.root]

theorem allocate_step (h : Tracks nodes L) (hinv : AllocateInv nodes L size s)
    (hdescend : s.pc = .visit → s'.pc = .visit → s.bucket < 8)
    (hstep : allocateStep size s = .inl s') :
    AllocateInv nodes L size s' ∧ allocateMeasure s' < allocateMeasure s := by
  cases allocateStep_inl hstep with
  | used hpc hmark _ =>
    simp only [AllocateInv, hpc] at hinv
    rw [hinv.same] at hmark
    have hdepth := hinv.node.depth
    have hend := start_add_le hinv.node.level hdepth
    have hpos := Nat.two_pow_pos (8 - s.bucket)
    refine ⟨⟨⟨hinv.same, hinv.node, hinv.fits, hinv.above⟩, hmark⟩, ?_⟩
    simp only [allocateMeasure, hpc]
    omega
  | descend hpc hsplit hle =>
    simp only [AllocateInv, hpc] at hinv
    have hb := hdescend hpc rfl
    -- a block is marked and not split
    have hi : s.i ∉ L := by
      intro hL
      have hmark : isMarked nodes s.i = true := (h.mark_iff _).mpr ⟨_, hL, .refl⟩
      exact not_mem_of_isSplit h (hinv.same ▸ hsplit (hinv.same ▸ hmark)) hL
    refine ⟨hinv.descend hi hb hle, ?_⟩
    simp only [allocateMeasure, hpc, left, start_left hb]
    omega
  | choose hpc hunmarked hgt =>
    simp only [AllocateInv, hpc] at hinv
    have hlt := AtLevel_lt hinv.node.level hinv.node.depth
    refine ⟨⟨s.i, hinv.choose h hunmarked hgt⟩, ?_⟩
    simp only [allocateMeasure, hpc]
    omega
  | up hpc hright =>
    simp only [AllocateInv, hpc] at hinv
    rcases hinv with ⟨hinv, hmark⟩
    rcases exists_right (AtLevel_lt hinv.node.level hinv.node.depth) hright with ⟨q, hi, hparent⟩
    rcases hinv.node.level.of_child (.inr hi) with ⟨c, hc, hlq⟩
    have hdepth := hinv.node.depth
    have hstart := start_right hlq (show c < 8 by omega)
    have hhalf := two_pow_sub (show c < 8 by omega)
    have hmarked : isMarked nodes q = true := by
      rcases (h.mark_iff _).mp hmark with ⟨n, hn, hbelow⟩
      rw [hi] at hbelow
      exact (h.mark_iff _).mpr ⟨n, hn, Below.refl.right.trans hbelow⟩
    refine ⟨⟨hinv.up hi hparent, hparent.symm ▸ hmarked⟩, ?_⟩
    simp only [allocateMeasure, hpc, hparent]
    simp only [hi, hc, right, hstart, Nat.add_sub_cancel]
    omega
  | across hpc hleft h0 =>
    simp only [AllocateInv, hpc] at hinv
    rcases hinv with ⟨hinv, -⟩
    rcases exists_left (AtLevel_lt hinv.node.level hinv.node.depth) h0 hleft with ⟨q, hi, hsibling⟩
    rcases hinv.node.level.of_child (.inl hi) with ⟨c, hc, hlq⟩
    have hdepth := hinv.node.depth
    have hstart := start_left (i := q) (show c < 8 by omega)
    have hright := start_right hlq (show c < 8 by omega)
    have hend := start_add_le hlq.right (by omega)
    refine ⟨hinv.across hi hsibling, ?_⟩
    simp only [allocateMeasure, hpc, hsibling]
    simp only [hi, hc, left, right, hstart, hright]
    omega
  | markUp hpc h0 =>
    simp only [AllocateInv, hpc] at hinv
    rcases hinv with ⟨n, hinv⟩
    rcases hinv.markUp h0 with ⟨hless, hinv'⟩
    refine ⟨⟨n, hinv'⟩, ?_⟩
    simp only [allocateMeasure, hpc]
    exact hless

/-- The search for a block of at least one byte. -/
theorem allocate_step_pos (h : Tracks nodes L) (hsize : 1 ≤ size)
    (hinv : AllocateInv nodes L size s) (hstep : allocateStep size s = .inl s') :
    AllocateInv nodes L size s' ∧ allocateMeasure s' < allocateMeasure s := by
  refine allocate_step h hinv (fun hpc hpc' => ?_) hstep
  simp only [AllocateInv, hpc] at hinv
  exact descend_lt hsize hinv.node.depth hpc hstep hpc'

theorem allocate_start (nodes : Bitmap) (L : Set ℕ) (hmax : size ≤ 4096) :
    AllocateInv nodes L size (allocateStart nodes) := by
  refine ⟨rfl, ⟨AtLevel.zero, Nat.zero_le 8, by simp [allocateStart, start]⟩, hmax, ?_⟩
  intro a ha hne
  exact absurd (Below.zero_iff.mp ha) hne

theorem measure_start (nodes : Bitmap) : allocateMeasure (allocateStart nodes) < allocateFuel := by
  simp [allocateMeasure, allocateStart, allocateFuel, start]

theorem allocate_loop (h : Tracks nodes L) (hsize : 1 ≤ size) (hmax : size ≤ 4096) :
    ∃ r, Loop.run (allocateStep size) allocateFuel (allocateStart nodes) = some r ∧
      AllocatePost nodes L size r :=
  Loop.run_of_measure (AllocateInv nodes L size) (AllocatePost nodes L size) allocateMeasure
    (fun _ _ hinv hstep => allocate_step_pos h hsize hinv hstep) (fun _ _ => allocate_done)
    (allocate_start nodes L hmax) (measure_start nodes)

/-- An allocation ends. It changes nothing, which happens in a tree that is in use or for
a size too large for it, or it hands out a node of the fitting bucket that is apart from
all blocks. -/
theorem allocate_spec (h : Tracks a.nodes L) (hsize : 1 ≤ size) :
    ∃ r a', buddyAllocatorAllocate a size = some (r, a') ∧ a'.page = a.page ∧
      (r = none ∧ a' = a ∧ (size ≤ 4096 → isMarked a.nodes 0 = true) ∨
        ∃ p n, r = some p ∧ size ≤ 4096 ∧ NodeAt a.page p (fitBucket size) n ∧
          (∀ m ∈ L, Apart m n) ∧ Tracks a'.nodes (insert n L)) := by
  unfold buddyAllocatorAllocate
  split
  · rename_i hmax
    have hmax : 4096 < size := by simpa [Nat.shiftLeft_eq] using hmax
    exact ⟨none, a, rfl, rfl, .inl ⟨rfl, rfl, fun hle => by omega⟩⟩
  · rename_i hmax
    have hmax : size ≤ 4096 := by simpa [Nat.shiftLeft_eq] using hmax
    rcases allocate_loop h hsize hmax with ⟨⟨offset, nodes'⟩, hrun, hpost⟩
    rw [hrun]
    refine ⟨_, _, rfl, rfl, ?_⟩
    cases offset with
    | none =>
      obtain ⟨rfl, hroot⟩ : nodes' = a.nodes ∧ isMarked a.nodes 0 = true := hpost
      exact .inl ⟨rfl, rfl, fun _ => hroot⟩
    | some offset =>
      rcases hpost with ⟨n, ⟨hlevel, hdepth, haddr⟩, hapart, hmarks⟩
      refine .inr ⟨a.page + offset, n, rfl, hmax, ⟨hlevel, hdepth, ?_⟩, hapart, h.add hmarks hapart⟩
      omega

/-! ## Deallocation -/

/-- `find_buddy` is at a node on the way to the block `n`. -/
def Seeking (page n : ℕ) (s : FindLoop) : Prop :=
  Below s.i n ∧ NodeAt page s.pointer s.bucket s.i

/-- On the way to a block exactly the nodes above it are split. -/
theorem Seeking.isSplit_iff (h : Tracks a.nodes L) (hn : n ∈ L)
    (hat : NodeAt a.page p b n) {s : FindLoop} (hs : Seeking a.page n s) :
    isSplit a.nodes s.i s.bucket = true ↔ s.i ≠ n := by
  rcases hat with ⟨hlevel, hdepth, -⟩
  rcases hs with ⟨hbelow, hslevel, -, -⟩
  simp only [isSplit, Bool.and_eq_true, Bool.or_eq_true, decide_eq_true_eq]
  constructor
  · rintro ⟨-, hc⟩ rfl
    exact h.not_mem_of_child hc hn
  · intro hne
    refine ⟨?_, h.child_marked hn hbelow hne⟩
    have hlt := hbelow.level_lt hslevel hlevel hne
    show s.bucket < 8
    omega

/-- The descent ends at a node that starts at the pointer and is not split. -/
theorem findStep_inr {s : FindLoop} {r : ℕ × ℕ} (hstep : findStep nodes p s = .inr r) :
    r = (s.i, s.bucket) ∧ isSplit nodes s.i s.bucket = false := by
  unfold findStep at hstep
  split at hstep
  · rename_i hdone
    simp only [Bool.and_eq_true, Bool.not_eq_true'] at hdone
    exact ⟨(Sum.inr.inj hstep).symm, hdone.2⟩
  · split at hstep <;> cases hstep

/-- The descent continues in the half that holds the node. -/
theorem Seeking.descend (hat : NodeAt page p b n) {s s' : FindLoop} (hs : Seeking page n s)
    (hne : s.i ≠ n) (hstep : findStep nodes p s = .inl s') :
    Seeking page n s' ∧ 8 - s'.bucket < 8 - s.bucket := by
  rcases hat with ⟨hlevel, hdepth, haddr⟩
  rcases hs with ⟨hbelow, hslevel, hsdepth, hsaddr⟩
  unfold findStep at hstep
  split at hstep
  · simp at hstep
  · have hb : s.bucket < 8 := lt_of_lt_of_le (hbelow.level_lt hslevel hlevel hne) hdepth
    have hsize := bucketSize_eq (show s.bucket + 1 ≤ 8 by omega)
    have hpos := Nat.two_pow_pos (8 - b)
    have hleft := start_left (i := s.i) hb
    have hright := start_right hslevel hb
    rcases hbelow.child with heq | hl | hr
    · exact absurd heq hne
    · -- the node lies in the left half
      have hle := hl.start_le hslevel.left hlevel hdepth
      rw [if_pos (by omega)] at hstep
      rcases Sum.inl.inj hstep with rfl
      refine ⟨⟨hl, hslevel.left, by simp only; omega, ?_⟩, by simp only; omega⟩
      show s.pointer = page + 16 * start 8 (s.bucket + 1) (2 * s.i + 1)
      omega
    · -- the node lies in the right half
      have hle := hr.start_le hslevel.right hlevel hdepth
      rw [if_neg (by omega)] at hstep
      rcases Sum.inl.inj hstep with rfl
      refine ⟨⟨hr, hslevel.right, by simp only; omega, ?_⟩, by simp only; omega⟩
      show s.pointer + bucketSize (s.bucket + 1) =
        page + 16 * start 8 (s.bucket + 1) (2 * s.i + 2)
      omega

theorem Seeking.step {a : BuddyAllocator} (h : Tracks a.nodes L) (hn : n ∈ L)
    (hat : NodeAt a.page p b n) {s s' : FindLoop} (hs : Seeking a.page n s)
    (hstep : findStep a.nodes p s = .inl s') :
    Seeking a.page n s' ∧ 8 - s'.bucket < 8 - s.bucket := by
  have hne : s.i ≠ n := by
    intro heq
    have hnot : isSplit a.nodes s.i s.bucket = false := by
      by_contra hyes
      exact (hs.isSplit_iff h hn hat).mp (by simpa using hyes) heq
    have hpointer : s.pointer = p := by
      have hsat := hs.2
      rw [heq] at hsat
      exact (hsat.unique hat).1
    -- the search would have ended here
    simp [findStep, hpointer, hnot] at hstep
  exact hs.descend hat hne hstep

/-- The descent ends at the block. -/
theorem Seeking.done (h : Tracks a.nodes L) (hn : n ∈ L) (hat : NodeAt a.page p b n) {s : FindLoop}
    {r : ℕ × ℕ} (hs : Seeking a.page n s) (hstep : findStep a.nodes p s = .inr r) : r = (n, b) := by
  rcases findStep_inr hstep with ⟨rfl, hsplit⟩
  have heq : s.i = n := by
    by_contra hne
    rw [(hs.isSplit_iff h hn hat).mpr hne] at hsplit
    cases hsplit
  have hslevel := hs.2.1
  rw [heq] at hslevel ⊢
  rw [hslevel.unique hat.1]

/-- `find_buddy` descends to the block of a live pointer. -/
theorem findBuddy_spec (h : Tracks a.nodes L) (hn : n ∈ L)
    (hat : NodeAt a.page p b n) : findBuddy a p = some (n, b) := by
  have hrun : ∃ r, findBuddy a p = some r ∧ r = (n, b) := by
    refine Loop.run_of_measure (Seeking a.page n) (fun r => r = (n, b)) (fun s => 8 - s.bucket)
      (fun s s' hs hstep => hs.step h hn hat hstep) (fun s r hs hstep => hs.done h hn hat hstep)
      ?_ ?_
    · exact ⟨Below.root n, AtLevel.zero, Nat.zero_le 8, by simp [start]⟩
    · simp
  rcases hrun with ⟨r, hr, rfl⟩
  exact hr

/-- A loop works on the node `s.i`, a block besides those in `L`. -/
structure Holding (L : Set ℕ) (s : NodeLoop) : Prop where
  tracks : Tracks s.nodes (insert s.i L)
  fresh : s.i ∉ L
  level : AtLevel s.bucket s.i
  depth : s.bucket ≤ 8

theorem isMarked_unmark_iff (nodes : Bitmap) (i j : ℕ) :
    isMarked (unmark nodes i) j = true ↔ j ≠ i ∧ isMarked nodes j = true := by
  simp [isMarked_unmark]

/-- Unmarking a block with a free sibling makes the parent the block. -/
theorem Holding.up {s : NodeLoop} (h : Holding L s) (h0 : s.i ≠ 0)
    (hfree : ¬ isMarked (unmark s.nodes s.i) (sibling s.i) = true) :
    Holding L { nodes := unmark s.nodes s.i, i := parent s.i, bucket := s.bucket - 1 } ∧
      0 < s.bucket := by
  have hlt := AtLevel_lt h.level h.depth
  have hs := siblings_of_ne_zero (show s.i < 512 by omega) h0
  have hne : sibling s.i ≠ s.i := by
    intro heq
    have hnot := hs.symm.not_below
    rw [heq] at hnot
    exact hnot .refl
  rw [isMarked_unmark_iff, not_and] at hfree
  have hup := h.tracks.unmark_up h.fresh hs (hfree hne) (isMarked_unmark_iff _ _)
  rcases h.level.of_child (j := parent s.i) (hs.imp And.left And.left) with ⟨c, hc, hlevel⟩
  refine ⟨⟨hup.1, hup.2, ?_, ?_⟩, by omega⟩
  · show AtLevel (s.bucket - 1) (parent s.i)
    rw [hc]
    exact hlevel
  · have := h.depth
    show s.bucket - 1 ≤ 8
    omega

/-- Unmarking the root, or a block whose sibling is in use, releases the block. -/
theorem Holding.stop {s : NodeLoop} (h : Holding L s)
    (hstop : s.i = 0 ∨ isMarked (unmark s.nodes s.i) (sibling s.i) = true) :
    Tracks (unmark s.nodes s.i) L := by
  refine h.tracks.unmark_stop h.fresh ?_ (isMarked_unmark_iff _ _)
  by_cases h0 : s.i = 0
  · exact .inl h0
  · have hlt := AtLevel_lt h.level h.depth
    have hs := siblings_of_ne_zero (show s.i < 512 by omega) h0
    have hmark := hstop.resolve_left h0
    rw [isMarked_unmark_iff] at hmark
    exact .inr ⟨_, _, hs, hmark.2⟩

theorem merge_loop {s : NodeLoop} (h : Holding L s) :
    ∃ r, Loop.run mergeStep (buddyAllocatorDepth + 1) s = some r ∧ Tracks r L := by
  refine Loop.run_of_measure (Holding L) (Tracks · L) NodeLoop.bucket ?_ ?_ h ?_
  · intro s s' hinv hstep
    rcases ite_eq_iff.mp hstep with ⟨-, ⟨⟩⟩ | ⟨hcont, ⟨⟩⟩
    simp only [Bool.or_eq_true, decide_eq_true_eq, not_or] at hcont
    rcases hinv.up hcont.1 hcont.2 with ⟨hup, hpos⟩
    exact ⟨hup, by simp only; omega⟩
  · intro s r hinv hstep
    rcases ite_eq_iff.mp hstep with ⟨hstop, ⟨⟩⟩ | ⟨-, ⟨⟩⟩
    simp only [Bool.or_eq_true, decide_eq_true_eq] at hstop
    exact hinv.stop hstop
  · have := h.depth
    simp only [buddyAllocatorDepth]
    omega

/-- A deallocation ends and removes exactly the block of the pointer. -/
theorem deallocate_spec (h : Tracks a.nodes (insert n L)) (hn : n ∉ L) (hat : NodeAt a.page p b n) :
    ∃ a', buddyAllocatorDeallocate a p = some a' ∧ a'.page = a.page ∧ Tracks a'.nodes L := by
  obtain ⟨nodes, hrun, htracks⟩ :=
    merge_loop (s := { nodes := a.nodes, i := n, bucket := b }) ⟨h, hn, hat.level, hat.depth⟩
  refine ⟨{ a with nodes := nodes }, ?_, rfl, htracks⟩
  unfold buddyAllocatorDeallocate
  rw [findBuddy_spec h (.inl rfl) hat]
  simp only [Option.bind_eq_bind, Option.bind_some, hrun]
  rfl

/-! ## Releasing what is not in use -/

/-- For any address of a lowest block `find_buddy` ends, on a node above that block which
is not split. -/
theorem findBuddy_leaf {leaf : ℕ} (hat : NodeAt a.page p 8 leaf) :
    ∃ i c, findBuddy a p = some (i, c) ∧ Below i leaf ∧ AtLevel c i ∧ c ≤ 8 ∧
      isSplit a.nodes i c = false := by
  have hrun : ∃ r, findBuddy a p = some r ∧ Below r.1 leaf ∧ AtLevel r.2 r.1 ∧ r.2 ≤ 8 ∧
      isSplit a.nodes r.1 r.2 = false := by
    refine Loop.run_of_measure (Seeking a.page leaf)
      (fun r : ℕ × ℕ =>
        Below r.1 leaf ∧ AtLevel r.2 r.1 ∧ r.2 ≤ 8 ∧ isSplit a.nodes r.1 r.2 = false)
      (fun s => 8 - s.bucket) ?_ ?_ ?_ ?_
    · intro s s' hs hstep
      have hne : s.i ≠ leaf := by
        intro heq
        have hsat := hs.2
        rw [heq] at hsat
        rcases hsat.unique hat with ⟨hpointer, hbucket⟩
        -- the lowest blocks are not split
        simp [findStep, hpointer, hbucket, isSplit] at hstep
      exact hs.descend hat hne hstep
    · intro s r hs hstep
      rcases findStep_inr hstep with ⟨rfl, hsplit⟩
      exact ⟨hs.1, hs.2.level, hs.2.depth, hsplit⟩
    · exact ⟨Below.root leaf, AtLevel.zero, Nat.zero_le 8, by simp [start]⟩
    · simp
  rcases hrun with ⟨⟨i, c⟩, hr, hpost⟩
  exact ⟨i, c, hr, hpost⟩

theorem unmark_of_not_marked {i : ℕ} (h : isMarked nodes i = false) : unmark nodes i = nodes := by
  apply bitmap_ext
  intro j
  rw [isMarked_unmark]
  by_cases hj : j = i
  · rw [hj, h]
    simp
  · simp [hj]

/-- The merging loop stands above a block that is not in use, and has changed nothing. -/
structure Vacant (nodes : Bitmap) (leaf : ℕ) (s : NodeLoop) : Prop where
  same : s.nodes = nodes
  unmarked : isMarked nodes s.i = false
  path : Below s.i leaf
  level : AtLevel s.bucket s.i
  depth : s.bucket ≤ 8

/-- With an unmarked node and an unmarked sibling the parent is unmarked. -/
theorem Vacant.up {leaf : ℕ} {s : NodeLoop} (h : Tracks nodes L) (hfree : ∀ m ∈ L, ¬ Below m leaf)
    (hs : Vacant nodes leaf s) (h0 : s.i ≠ 0) (hsibling : isMarked nodes (sibling s.i) = false) :
    Vacant nodes leaf { nodes := nodes, i := parent s.i, bucket := s.bucket - 1 } ∧
      0 < s.bucket := by
  have hlt := AtLevel_lt hs.level hs.depth
  have hsib := siblings_of_ne_zero (show s.i < 512 by omega) h0
  have hpath := hsib.parent_below.trans hs.path
  rcases hs.level.of_child (j := parent s.i) (hsib.imp And.left And.left) with ⟨c, hc, hlevel⟩
  have hdepth := hs.depth
  refine ⟨⟨rfl, ?_, hpath, ?_, by simp only; omega⟩, by omega⟩
  · by_contra hmarked
    rcases (h.mark_iff _).mp (by simpa using hmarked) with ⟨m, hm, hbelow⟩
    rcases hsib.cases_below hbelow with rfl | hi | hsi
    · exact hfree _ hm hpath
    · exact absurd ((h.mark_iff _).mpr ⟨m, hm, hi⟩) (by simp [hs.unmarked])
    · exact absurd ((h.mark_iff _).mpr ⟨m, hm, hsi⟩) (by simp [hsibling])
  · show AtLevel (s.bucket - 1) (parent s.i)
    rw [hc]
    exact hlevel

/-- Releasing an address that lies in no block changes nothing. -/
theorem deallocate_vacant {leaf : ℕ} (h : Tracks a.nodes L) (hL : ∀ m ∈ L, ∃ c, c ≤ 8 ∧ AtLevel c m)
    (hat : NodeAt a.page p 8 leaf) (hfree : ∀ m ∈ L, ¬ Below m leaf) :
    buddyAllocatorDeallocate a p = some a := by
  rcases findBuddy_leaf hat with ⟨i, c, hfind, hpath, hlevel, hdepth, hunsplit⟩
  have hunmarked : isMarked a.nodes i = false := by
    by_contra hmarked
    rcases (h.mark_iff _).mp (by simpa using hmarked) with ⟨m, hm, hbelow⟩
    by_cases heq : i = m
    · exact hfree m hm (heq ▸ hpath)
    · -- a marked node that is no block has a marked child
      have hchild := h.child_marked hm hbelow heq
      rcases hL m hm with ⟨d, hd, hmlevel⟩
      have hlt := hbelow.level_lt hlevel hmlevel heq
      have hc : c < 8 := by omega
      have hsplit : isSplit a.nodes i c = true := by
        simp only [isSplit, Bool.and_eq_true, Bool.or_eq_true, decide_eq_true_eq]
        exact ⟨hc, hchild⟩
      rw [hsplit] at hunsplit
      cases hunsplit
  have hrun : ∃ r, Loop.run mergeStep (buddyAllocatorDepth + 1)
      { nodes := a.nodes, i := i, bucket := c } = some r ∧ r = a.nodes := by
    refine Loop.run_of_measure (Vacant a.nodes leaf) (· = a.nodes) NodeLoop.bucket ?_ ?_
      ⟨rfl, hunmarked, hpath, hlevel, hdepth⟩ ?_
    · intro s s' hs hstep
      simp only [mergeStep, hs.same, unmark_of_not_marked hs.unmarked] at hstep
      rcases ite_eq_iff.mp hstep with ⟨-, ⟨⟩⟩ | ⟨hcont, ⟨⟩⟩
      simp only [Bool.or_eq_true, decide_eq_true_eq, not_or, Bool.not_eq_true] at hcont
      rcases hs.up h hfree hcont.1 hcont.2 with ⟨hup, hpos⟩
      exact ⟨hup, by simp only; omega⟩
    · intro s r hs hstep
      simp only [mergeStep, hs.same, unmark_of_not_marked hs.unmarked] at hstep
      split at hstep
      · exact (Sum.inr.inj hstep).symm
      · simp at hstep
    · simp only [buddyAllocatorDepth]
      omega
  rcases hrun with ⟨r, hrun, rfl⟩
  unfold buddyAllocatorDeallocate
  simp only [hfind, Option.bind_eq_bind, Option.bind_some, hrun]
  rfl

/-! ## Reallocation -/

/-- The shrinking loop ends on a left descendant that starts at the same address; it
is the same node exactly when it is on the same level. -/
theorem shrink_loop {s : NodeLoop} (h : Holding L s) (hfit : size ≤ bucketSize s.bucket) :
    ∃ r, Loop.run (shrinkStep size) (buddyAllocatorDepth + 1) s = some r ∧ Holding L r ∧
      fitBucket size = r.bucket ∧ start 8 r.bucket r.i = start 8 s.bucket s.i := by
  refine Loop.run_of_measure
    (fun r => Holding L r ∧ size ≤ bucketSize r.bucket ∧
      start 8 r.bucket r.i = start 8 s.bucket s.i)
    (fun r => Holding L r ∧ fitBucket size = r.bucket ∧
      start 8 r.bucket r.i = start 8 s.bucket s.i)
    (fun r => 8 - r.bucket) ?_ ?_ ⟨h, hfit, rfl⟩ ?_
  · rintro r r' ⟨hinv, hfits, hstart⟩ hstep
    have hlt := AtLevel_lt hinv.level hinv.depth
    rcases ite_eq_iff.mp hstep with ⟨hcont, ⟨⟩⟩ | ⟨-, ⟨⟩⟩
    simp only [Bool.and_eq_true, decide_eq_true_eq] at hcont
    have hb : r.bucket < 8 := hcont.2
    have hlevel := hinv.level.left
    have hlt' := AtLevel_lt hlevel (by omega)
    -- the left child takes over from its parent
    have hmark : ∀ j, isMarked (mark r.nodes (left r.i)) j = true ↔
        j = left r.i ∨ isMarked r.nodes j = true := by
      intro j
      simp [isMarked_mark (show left r.i < 512 by unfold left; omega)]
    have hshrink := hinv.tracks.shrink hinv.fresh (s := right r.i) (.inl ⟨rfl, rfl⟩) hmark
    refine ⟨⟨⟨hshrink.1, hshrink.2, hlevel, by simp only; omega⟩, hcont.1, ?_⟩,
      by simp only; omega⟩
    rw [← hstart]
    exact start_left (by omega)
  · rintro r r' ⟨hinv, hfits, hstart⟩ hstep
    rcases ite_eq_iff.mp hstep with ⟨-, ⟨⟩⟩ | ⟨hstop, ⟨⟩⟩
    have hdepth := hinv.depth
    simp only [Bool.and_eq_true, decide_eq_true_eq, not_and] at hstop
    simp only [buddyAllocatorDepth] at hstop
    -- the half is too small, or there is none
    exact ⟨hinv, fitBucket_eq hinv.depth hfits (by omega), hstart⟩
  · simp only [buddyAllocatorDepth]
    omega

/-- A size that the block does not hold, or that no smaller block holds, leaves the
shrinking loop at once. -/
theorem shrink_none {s : NodeLoop} (h : bucketSize (s.bucket + 1) < size) :
    Loop.run (shrinkStep size) (buddyAllocatorDepth + 1) s = some s := by
  apply Loop.run_succ_inr
  unfold shrinkStep
  rw [if_neg]
  simp only [Bool.and_eq_true, decide_eq_true_eq, not_and]
  omega

/-- There is no room around the block `n`: a node of the size that is apart from the
blocks `L` is also apart from `n`. -/
def NoRoom (L : Set ℕ) (size n : ℕ) : Prop :=
  ∀ w, AtLevel (fitBucket size) w → (∀ m ∈ L, Apart m w) → Apart n w

/-- A node too small for the size, with its sibling in use, has no room around it. -/
theorem Holding.noRoom {s : NodeLoop} (h : Holding L s) (h0 : s.i ≠ 0) (hn : AtLevel b n)
    (hbelow : Below s.i n) (hmax : size ≤ 4096) (hsmall : bucketSize s.bucket < size)
    (hused : isMarked (unmark s.nodes s.i) (sibling s.i) = true) : NoRoom L size n := by
  have hlt := AtLevel_lt h.level h.depth
  have hsib := siblings_of_ne_zero (show s.i < 512 by omega) h0
  rw [isMarked_unmark_iff] at hused
  rcases (h.tracks.mark_iff _).mp hused.2 with ⟨m, hm, hsm⟩
  -- what is in use below the sibling is one of the other blocks
  have hmL : m ∈ L := by
    rcases hm with rfl | hm
    · exact absurd hsm hsib.not_below
    · exact hm
  intro w hw hap
  refine hsib.apart_of_higher h.level hn hw hbelow hsm ?_ (hap m hmL)
  by_contra hge
  have hle := bucketSize_antitone (not_lt.mp hge)
  have hfit := le_bucketSize_fitBucket hmax
  omega

theorem Holding.ne_zero {s : NodeLoop} (h : Holding L s) (hb : s.bucket ≠ 0) : s.i ≠ 0 := by
  intro h0
  have hlevel := h.level
  rw [h0] at hlevel
  exact hb (hlevel.unique AtLevel.zero)

/-- The sibling is free, and the loop goes on with the parent. -/
theorem Holding.grow {r r' : NodeLoop} (h : Holding L r) (hbelow : Below r.i n)
    (hstep : growStep size r = .inl r') :
    (Holding L r' ∧ bucketSize (r'.bucket + 1) < size ∧ Below r'.i n) ∧
      r'.bucket < r.bucket := by
  simp only [growStep] at hstep
  split at hstep
  · simp at hstep
  · split at hstep
    · simp at hstep
    · split at hstep
      · simp at hstep
      · rename_i hsmall hb hfree
        rcases Sum.inl.inj hstep with rfl
        have h0 := h.ne_zero hb
        have hlt := AtLevel_lt h.level h.depth
        have hsib := siblings_of_ne_zero (show r.i < 512 by omega) h0
        rcases h.up h0 hfree with ⟨hup, hpos⟩
        refine ⟨⟨hup, ?_, hsib.parent_below.trans hbelow⟩, by simp only; omega⟩
        show bucketSize (r.bucket - 1 + 1) < size
        rw [Nat.sub_add_cancel hpos]
        omega

/-- The block is large enough, or the sibling is in use. -/
theorem Holding.grown {r : NodeLoop} {res : Bool × NodeLoop} (h : Holding L r) (hn : AtLevel b n)
    (hmax : size ≤ 4096) (hnext : bucketSize (r.bucket + 1) < size) (hbelow : Below r.i n)
    (hstep : growStep size r = .inr res) :
    if res.1 then Holding L res.2 ∧ fitBucket size = res.2.bucket ∧ Below res.2.i n
    else Tracks res.2.nodes L ∧ NoRoom L size n := by
  simp only [growStep] at hstep
  split at hstep
  · rename_i hlarge
    rcases Sum.inr.inj hstep with rfl
    simp only [if_true]
    exact ⟨h, fitBucket_eq h.depth hlarge (.inr hnext), hbelow⟩
  · rename_i hsmall
    split at hstep
    · -- the root is large enough for the size
      rename_i hb
      have hroot : bucketSize 0 = 4096 := rfl
      rw [hb] at hsmall
      omega
    · rename_i hb
      rcases ite_eq_iff.mp hstep with ⟨hused, ⟨⟩⟩ | ⟨-, ⟨⟩⟩
      simp only [Bool.false_eq_true, if_false]
      exact ⟨h.stop (.inr hused), h.noRoom (h.ne_zero hb) hn hbelow hmax (by omega) hused⟩

/-- The growing loop ends on a block of the fitting bucket above the old one, or it has
released the block because there is no room around it. -/
theorem grow_loop {s : NodeLoop} (h : Holding L s) (hgrow : bucketSize s.bucket < size)
    (hmax : size ≤ 4096) :
    ∃ r, Loop.run (growStep size) (buddyAllocatorDepth + 1) s = some r ∧
      if r.1 then Holding L r.2 ∧ fitBucket size = r.2.bucket ∧ Below r.2.i s.i
      else Tracks r.2.nodes L ∧ NoRoom L size s.i := by
  refine Loop.run_of_measure
    (fun r => Holding L r ∧ bucketSize (r.bucket + 1) < size ∧ Below r.i s.i)
    (fun r : Bool × NodeLoop =>
      if r.1 then Holding L r.2 ∧ fitBucket size = r.2.bucket ∧ Below r.2.i s.i
      else Tracks r.2.nodes L ∧ NoRoom L size s.i)
    NodeLoop.bucket ?_ ?_
    ⟨h, lt_of_le_of_lt (bucketSize_succ_le _) hgrow, .refl⟩ ?_
  · rintro r r' ⟨hinv, -, hbelow⟩ hstep
    exact hinv.grow hbelow hstep
  · rintro r res ⟨hinv, hnext, hbelow⟩ hstep
    exact hinv.grown h.level hmax hnext hbelow hstep
  · have := h.depth
    simp only [buddyAllocatorDepth]
    omega

/-- How the data of a block of `length` bytes gets from `p` to `q`: it is there already,
or the block grows and one copy between disjoint ranges takes it there. -/
def DataMoved (p q length size : ℕ) (copies : List Copy) : Prop :=
  copies = [] ∧ q = p ∨
    copies = [⟨q, p, length⟩] ∧ length < size ∧ (⟨q, p, length⟩ : Copy).Disjoint

/-- What a reallocation of the block `n` at `p` did: it moved or resized the block, or it
refused a size no block has, or it found no room and released the block. -/
inductive ReallocatePost (a : BuddyAllocator) (L : Set ℕ) (p b n size : ℕ) (r : Reallocated) :
    Prop where
  | moved (q m : ℕ) : r.pointer = some q → size ≤ 4096 → NodeAt a.page q (fitBucket size) m →
      m ∉ L → Tracks r.allocator.nodes (insert m L) →
      DataMoved p q (bucketSize b) size r.copy.toList → ReallocatePost a L p b n size r
  | refused : r.pointer = none → 4096 < size → r.allocator = a → r.copy = none →
      ReallocatePost a L p b n size r
  | released : r.pointer = none → bucketSize b < size → size ≤ 4096 →
      Tracks r.allocator.nodes L → NoRoom L size n → r.copy = none →
      ReallocatePost a L p b n size r

theorem bucketSize_le (b : ℕ) : bucketSize b ≤ 4096 :=
  bucketSize_antitone (Nat.zero_le b)

/-- The block has grown to the node `m` above it. -/
theorem NodeAt.grown_copy {m q c : ℕ} (hat : NodeAt page p b n) (hat' : NodeAt page q c m)
    (hbelow : Below m n) (hgrow : bucketSize b < size) :
    DataMoved p q (bucketSize b) size (if q ≠ p then some ⟨q, p, bucketSize b⟩ else none).toList := by
  by_cases hq : q = p
  · exact .inl ⟨by simp [hq], hq⟩
  · refine .inr ⟨by simp [hq], hgrow, .inl ?_⟩
    have haddr := hat.address
    have haddr' := hat'.address
    have hle := hbelow.start_add_le hat'.level hat.level hat.depth (by omega)
    have hsize := bucketSize_eq hat.depth
    show q + bucketSize b ≤ p
    omega

/-- The block has moved to a node with no room for it around the old one. -/
theorem NodeAt.moved_copy {m q : ℕ} (hat : NodeAt page p b n)
    (hat' : NodeAt page q (fitBucket size) m) (hroom : NoRoom L size n)
    (hapart : ∀ k ∈ L, Apart k m) (hle : bucketSize b ≤ bucketSize (fitBucket size)) :
    (⟨q, p, bucketSize b⟩ : Copy).Disjoint := by
  unfold Copy.Disjoint
  rcases hat.disjoint hat' (hroom m hat'.level hapart) with hd | hd
  · exact .inr hd
  · exact .inl (le_trans (Nat.add_le_add_left hle q) hd)

theorem reallocate_spec (size : ℕ) (h : Tracks a.nodes (insert n L)) (hn : n ∉ L)
    (hat : NodeAt a.page p b n) :
    ∃ r, buddyAllocatorReallocate a p size = some r ∧ r.allocator.page = a.page ∧
      r.currentAllocationSize = bucketSize b ∧ ReallocatePost a L p b n size r := by
  have hfind := findBuddy_spec h (.inl rfl) hat
  have hhold : Holding L { nodes := a.nodes, i := n, bucket := b } :=
    ⟨h, hn, hat.level, hat.depth⟩
  unfold buddyAllocatorReallocate
  simp only [hfind, Option.bind_eq_bind, Option.bind_some]
  rcases Nat.lt_or_ge (bucketSize b) size with hgrow | hfit
  · -- the block is too small
    have hmax := bucketSize_le b
    rw [shrink_none (lt_of_le_of_lt (bucketSize_succ_le _) hgrow)]
    simp only [Option.bind_some, ne_eq, not_true_eq_false, if_false, if_neg (not_le.mpr hgrow)]
    split
    · rename_i hlarge
      have hlarge : 4096 < size := by simpa [Nat.shiftLeft_eq] using hlarge
      exact ⟨_, rfl, rfl, rfl, .refused rfl hlarge rfl rfl⟩
    · rename_i hlarge
      have hle : size ≤ 4096 := by simpa [Nat.shiftLeft_eq] using hlarge
      rcases grow_loop hhold hgrow hle with ⟨⟨expanded, grown⟩, hrun, hpost⟩
      rw [hrun]
      cases expanded with
      | true =>
        simp only [if_true] at hpost
        rcases hpost with ⟨hgrown, hbucket, hbelow⟩
        have hat' : NodeAt a.page (nodeToPointer a.page grown.i grown.bucket) grown.bucket grown.i :=
          ⟨hgrown.level, hgrown.depth, nodeToPointer_eq _ hgrown.depth⟩
        refine ⟨_, rfl, rfl, rfl, .moved _ grown.i rfl hle ?_ hgrown.fresh hgrown.tracks
          (hat.grown_copy hat' hbelow hgrow)⟩
        rw [hbucket]
        exact hat'
      | false =>
        simp only [Bool.false_eq_true, if_false] at hpost
        rcases hpost with ⟨hreleased, hroom⟩
        rcases allocate_spec (a := { a with nodes := grown.nodes }) hreleased
          (show 1 ≤ size by omega) with ⟨q, a', halloc, hpage, hcases⟩
        simp only [Option.bind_some, Bool.false_eq_true, if_false, halloc]
        refine ⟨_, rfl, hpage, rfl, ?_⟩
        rcases hcases with ⟨rfl, rfl, -⟩ | ⟨q, m, rfl, -, hnode, hapart, htracks⟩
        · exact .released rfl hgrow hle hreleased hroom rfl
        · have hcopy := hat.moved_copy hnode hroom hapart
            (le_trans hgrow.le (le_bucketSize_fitBucket hle))
          exact .moved q m rfl hle hnode (fun hm => (hapart m hm).1 .refl) htracks
            (.inr ⟨rfl, hgrow, hcopy⟩)
  · -- the block is large enough: it shrinks or stays
    have hle : size ≤ 4096 := hfit.trans (bucketSize_le b)
    rcases shrink_loop hhold hfit with ⟨r, hrun, hr, hbucket, hstart⟩
    rw [hrun]
    simp only [Option.bind_some]
    split
    · refine ⟨_, rfl, rfl, rfl, .moved p r.i rfl hle ?_ hr.fresh hr.tracks (.inl ⟨rfl, rfl⟩)⟩
      rw [hbucket]
      exact ⟨hr.level, hr.depth, by rw [hstart]; exact hat.address⟩
    · rename_i hsame
      simp only [ne_eq, not_not] at hsame
      refine ⟨_, rfl, rfl, rfl, .moved p n rfl hle ?_ hn h (.inl ⟨rfl, rfl⟩)⟩
      rw [hbucket, hsame]
      exact hat

end SysProg.Memory
