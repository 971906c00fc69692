import Mathlib.Tactic
import SysProg.Memory.BuddyRuns

/-!
# The search of `buddy_allocator_allocate` is complete

The search goes through the tree from left to right. What it has passed holds no free node of
the fitting bucket, so the node it hands out is the first one, and it fails only if there is
none.

* `FreeNode` — a node of the fitting bucket that is apart from all blocks;
* `PassedInv`, `passed_step` — no free node begins before the point that is reached;
* `allocate_first` — the result of the search;
* `aligned_iff`, `apart_iff` — nodes are aligned blocks, and overlap as blocks do;
* `allocate_first_fit` — the same in terms of the blocks of a client.
-/

namespace SysProg.Memory

open HeapTree Lts

variable {nodes : Bitmap} {L : Set ℕ} {size page p q b c n m i w : ℕ} {s s' : AllocateLoop}

/-! ## The search -/

/-- A node of the fitting bucket that is apart from all blocks. -/
structure FreeNode (L : Set ℕ) (size w : ℕ) : Prop where
  level : AtLevel (fitBucket size) w
  apart : ∀ m ∈ L, Apart m w

/-- No free node begins before leaf `k`. -/
def NoneBefore (L : Set ℕ) (size k : ℕ) : Prop :=
  ∀ w, FreeNode L size w → k ≤ start 8 (fitBucket size) w

/-- What is passed holds no free node. -/
def PassedInv (L : Set ℕ) (size : ℕ) (s : AllocateLoop) : Prop :=
  match s.pc with
  | .visit => NoneBefore L size (start 8 s.bucket s.i)
  | .climb => NoneBefore L size (start 8 s.bucket s.i + 2 ^ (8 - s.bucket))
  | .markUp => ∀ w, FreeNode L size w → s.pageOffset ≤ 16 * start 8 (fitBucket size) w

theorem fitBucket_le (size : ℕ) : fitBucket size ≤ 8 :=
  Nat.findGreatest_le 8

theorem le_fitBucket (hb : b ≤ 8) (hfits : size ≤ bucketSize b) : b ≤ fitBucket size :=
  Nat.le_findGreatest hb hfits

/-- No free node lies below a node that the search leaves. -/
theorem not_below_of_used (h : Tracks nodes L) (hL : ∀ m ∈ L, ∃ c, c ≤ 8 ∧ AtLevel c m)
    (hlevel : AtLevel b i) (hdepth : b ≤ 8) (hfits : size ≤ bucketSize b)
    (hmarked : isMarked nodes i = true)
    (hused : bucketSize (b + 1) < size ∨ isSplit nodes i b = false) (hw : FreeNode L size w) :
    ¬ Below i w := by
  intro hbelow
  rcases (h.mark_iff i).mp hmarked with ⟨m, hm, him⟩
  have hapart := hw.apart m hm
  rcases hused with hgt | hunsplit
  · -- the node is of the fitting bucket itself
    have hfit : fitBucket size = b := fitBucket_eq hdepth hfits (.inr hgt)
    have hwl := hw.level
    rw [hfit] at hwl
    by_cases heq : i = w
    · exact hapart.2 (heq ▸ him)
    · exact absurd (hbelow.level_lt hlevel hwl heq) (lt_irrefl b)
  · by_cases heq : i = m
    · exact hapart.1 (heq ▸ hbelow)
    · rcases hL m hm with ⟨c, hc, hmlevel⟩
      have hlt := him.level_lt hlevel hmlevel heq
      have hsplit : isSplit nodes i b = true := by
        simp only [isSplit, Bool.and_eq_true, Bool.or_eq_true, decide_eq_true_eq]
        exact ⟨lt_of_lt_of_le hlt hc, h.child_marked hm him heq⟩
      rw [hsplit] at hunsplit
      cases hunsplit

theorem passed_step (h : Tracks nodes L) (hL : ∀ m ∈ L, ∃ c, c ≤ 8 ∧ AtLevel c m)
    (hinv : AllocateInv nodes L size s) (hdescend : s.pc = .visit → s'.pc = .visit → s.bucket < 8)
    (hseen : PassedInv L size s) (hstep : allocateStep size s = .inl s') : PassedInv L size s' := by
  cases allocateStep_inl hstep with
  | used hpc hmark hused =>
    simp only [AllocateInv, hpc] at hinv
    simp only [PassedInv, hpc] at hseen
    rcases hinv with ⟨hsame, ⟨hlevel, hdepth, -⟩, hfits, -⟩
    rw [hsame] at hmark hused
    intro w hw
    have hnot := not_below_of_used h hL hlevel hdepth hfits hmark hused hw
    exact start_add_le_of_not_below hlevel hw.level (le_fitBucket hdepth hfits)
      (fitBucket_le size) (hseen w hw) hnot
  | descend hpc _ _ =>
    -- the left child begins where the node begins
    simp only [PassedInv, hpc] at hseen
    simp only [PassedInv, left, start_left (hdescend hpc rfl)]
    exact hseen
  | choose hpc _ _ =>
    simp only [AllocateInv, hpc] at hinv
    simp only [PassedInv, hpc] at hseen
    intro w hw
    have hle := hseen w hw
    have haddr := hinv.node.address
    show s.pageOffset ≤ 16 * start 8 (fitBucket size) w
    omega
  | up hpc hright =>
    -- the parent ends where the node ends
    simp only [AllocateInv, hpc] at hinv
    simp only [PassedInv, hpc] at hseen
    have hdepth := hinv.1.node.depth
    rcases exists_right (AtLevel_lt hinv.1.node.level hdepth) hright with ⟨q, hi, hparent⟩
    rcases hinv.1.node.level.of_child (.inr hi) with ⟨c, hc, hlq⟩
    have hstart := start_right hlq (show c < 8 by omega)
    have hhalf := two_pow_sub (show c < 8 by omega)
    simp only [hi, hc, right, hstart] at hseen
    simp only [PassedInv, hparent, hc, Nat.add_sub_cancel]
    rw [hhalf, ← Nat.add_assoc]
    exact hseen
  | across hpc hleft h0 =>
    -- the sibling begins where the node ends
    simp only [AllocateInv, hpc] at hinv
    simp only [PassedInv, hpc] at hseen
    have hdepth := hinv.1.node.depth
    rcases exists_left (AtLevel_lt hinv.1.node.level hdepth) h0 hleft with ⟨q, hi, hsibling⟩
    rcases hinv.1.node.level.of_child (.inl hi) with ⟨c, hc, hlq⟩
    have hstart := start_left (i := q) (show c < 8 by omega)
    have hright := start_right hlq (show c < 8 by omega)
    simp only [hi, hc, left, hstart] at hseen
    simp only [PassedInv, hsibling, hc, right, hright]
    exact hseen
  | markUp hpc _ =>
    simp only [PassedInv, hpc] at hseen
    exact hseen

/-- There is no free node, or the offset is that of the first one. -/
def FirstPost (L : Set ℕ) (size : ℕ) (r : Option ℕ × Bitmap) : Prop :=
  match r.1 with
  | none => ∀ w, ¬ FreeNode L size w
  | some offset => ∀ w, FreeNode L size w → offset ≤ 16 * start 8 (fitBucket size) w

theorem passed_done {s : AllocateLoop} {r : Option ℕ × Bitmap} (hinv : AllocateInv nodes L size s)
    (hseen : PassedInv L size s) (hstep : allocateStep size s = .inr r) : FirstPost L size r := by
  cases allocateStep_inr hstep with
  | full hpc h0 =>
    -- all of the tree is passed
    simp only [AllocateInv, hpc] at hinv
    simp only [PassedInv, hpc] at hseen
    have hlevel := hinv.1.node.level
    rw [h0] at hlevel hseen
    rw [hlevel.unique AtLevel.zero] at hseen
    intro w hw
    have hle := hseen w hw
    have hend := start_add_le hw.level (fitBucket_le size)
    have hpos := Nat.two_pow_pos (8 - fitBucket size)
    have h256 : start 8 0 0 + 2 ^ (8 - 0) = 256 := rfl
    omega
  | found hpc _ =>
    simp only [PassedInv, hpc] at hseen
    exact hseen

theorem passed_start (nodes : Bitmap) (L : Set ℕ) (size : ℕ) :
    PassedInv L size (allocateStart nodes) := by
  intro w _
  simp [allocateStart, start]

/-- A leaf that the search descends from is a free node. -/
theorem free_of_descend (h : Tracks nodes L) (hinv : Searching nodes L size s)
    (hpc : s.pc = .visit) (hstep : allocateStep size s = .inl s') (hpc' : s'.pc = .visit)
    (hb : ¬ s.bucket < 8) : FreeNode L size s.i := by
  rcases hinv with ⟨hsame, ⟨hlevel, hdepth, -⟩, -, habove⟩
  obtain hb : s.bucket = 8 := by omega
  have hunsplit : isSplit s.nodes s.i s.bucket = false := by
    simp [isSplit, hb, buddyAllocatorDepth]
  rcases visit_descends hpc hpc' hstep with ⟨-, hsplit, hle⟩
  rw [hb, bucketSize_nine] at hle
  obtain rfl : size = 0 := by omega
  -- a leaf is not split, so it is not marked either
  have hunmarked : ¬ isMarked nodes s.i = true := by
    intro hmark
    rw [hsplit (hsame ▸ hmark)] at hunsplit
    cases hunsplit
  refine ⟨?_, h.apart_of_unmarked hunmarked habove⟩
  rw [fitBucket_eq hdepth (Nat.zero_le _) (.inl hb)]
  exact hlevel

/-- The search for at least one byte, or in a tree without a free node, stays in the tree. -/
theorem descend_inside (h : Tracks nodes L)
    (hinside : 1 ≤ size ∨ ∀ w, ¬ FreeNode L size w) (hinv : AllocateInv nodes L size s)
    (hstep : allocateStep size s = .inl s') (hpc : s.pc = .visit) (hpc' : s'.pc = .visit) :
    s.bucket < 8 := by
  simp only [AllocateInv, hpc] at hinv
  rcases hinside with hsize | hfull
  · exact descend_lt hsize hinv.node.depth hpc hstep hpc'
  · by_contra hb
    exact hfull s.i (free_of_descend h hinv hpc hstep hpc' hb)

/-- The search ends and is complete. -/
theorem allocate_first (h : Tracks nodes L) (hL : ∀ m ∈ L, ∃ c, c ≤ 8 ∧ AtLevel c m)
    (hinside : 1 ≤ size ∨ ∀ w, ¬ FreeNode L size w) (hmax : size ≤ 4096) :
    ∃ r, Loop.run (allocateStep size) allocateFuel (allocateStart nodes) = some r ∧
      AllocatePost nodes L size r ∧ FirstPost L size r := by
  refine Loop.run_of_measure (fun s => AllocateInv nodes L size s ∧ PassedInv L size s)
    (fun r => AllocatePost nodes L size r ∧ FirstPost L size r) allocateMeasure ?_ ?_
    ⟨allocate_start nodes L hmax, passed_start nodes L size⟩ (measure_start nodes)
  · rintro s s' ⟨hinv, hseen⟩ hstep
    have hdescend := descend_inside h hinside hinv hstep
    rcases allocate_step h hinv hdescend hstep with ⟨hinv', hless⟩
    exact ⟨⟨hinv', passed_step h hL hinv hdescend hseen hstep⟩, hless⟩
  · rintro s r ⟨hinv, hseen⟩ hstep
    exact ⟨allocate_done hinv hstep, passed_done hinv hseen hstep⟩

/-! ## Aligned blocks -/

/-- An aligned block of bucket `b` of the page, at address `p`. -/
structure AlignedBlock (page b p : ℕ) : Prop where
  start : page ≤ p
  aligned : bucketSize b ∣ p - page
  fits : p + bucketSize b ≤ page + buddyAllocatorMaximalAllocation

/-- The aligned blocks are the nodes of the tree. -/
theorem aligned_iff (hb : b ≤ 8) : AlignedBlock page b p ↔ ∃ n, NodeAt page p b n := by
  have hsize := bucketSize_eq hb
  have hmax : buddyAllocatorMaximalAllocation = 4096 := rfl
  have hpow : 2 ^ b * 2 ^ (8 - b) = 256 := by
    rw [← pow_add, Nat.add_sub_cancel' hb]
    norm_num
  constructor
  · rintro ⟨hstart, ⟨k, hk⟩, hfits⟩
    rw [hsize] at hk
    rw [hsize, hmax] at hfits
    -- the block number is below the number of nodes of the level
    have hlt : k < 2 ^ b := by
      by_contra hge
      have hle : 2 ^ b * 2 ^ (8 - b) ≤ k * 2 ^ (8 - b) := Nat.mul_le_mul_right _ (not_lt.mp hge)
      have hpos := Nat.two_pow_pos (8 - b)
      have hk' : p - page = 16 * (k * 2 ^ (8 - b)) := by rw [hk]; ring
      omega
    have hpos := Nat.two_pow_pos b
    refine ⟨2 ^ b - 1 + k, ⟨by omega, by rw [pow_succ]; omega⟩, hb, ?_⟩
    have hindex : 2 ^ b - 1 + k + 1 - 2 ^ b = k := by omega
    have hk' : p - page = 16 * (k * 2 ^ (8 - b)) := by rw [hk]; ring
    rw [HeapTree.start, hindex]
    omega
  · rintro ⟨n, hn⟩
    have hend := start_add_le hn.level hb
    have haddr := hn.address
    refine ⟨by omega, ⟨n + 1 - 2 ^ b, ?_⟩, by rw [hsize, hmax]; omega⟩
    have hsub : p - page = 16 * HeapTree.start 8 b n := by omega
    rw [hsub, hsize, HeapTree.start]
    ring

/-- Nodes are apart just when their blocks have no byte in common. -/
theorem apart_iff (hn : NodeAt page p b n) (hm : NodeAt page q c m) :
    Apart n m ↔ p + bucketSize b ≤ q ∨ q + bucketSize c ≤ p := by
  refine ⟨hn.disjoint hm, fun hdisjoint => ?_⟩
  have hb := bucketSize_pos hn.depth
  have hc := bucketSize_pos hm.depth
  rw [bucketSize_eq hn.depth, bucketSize_eq hm.depth, hn.address, hm.address] at hdisjoint
  have hpos := Nat.two_pow_pos (8 - b)
  have hpos' := Nat.two_pow_pos (8 - c)
  constructor
  · intro hbelow
    have hle := hbelow.start_le hn.level hm.level hm.depth
    omega
  · intro hbelow
    have hle := hbelow.start_le hm.level hn.level hn.depth
    omega

/-- The block has a byte in common with `length` bytes at `p`. -/
def Block.Overlaps (x : Block) (p length : ℕ) : Prop :=
  x.pointer < p + length ∧ p < x.pointer + bucketSize x.bucket

/-- A node of the fitting bucket is free just when its block overlaps no live block. -/
theorem freeNode_iff {s : BuddyState} (hinv : BuddyInv page s)
    (hw : NodeAt page p (fitBucket size) w) :
    FreeNode (liveNodes page s.live) size w ↔
      ∀ x ∈ s.live, ¬ x.Overlaps p (bucketSize (fitBucket size)) := by
  constructor
  · intro hfree x hx hover
    rcases hinv.placed.node x hx with ⟨m, hm⟩
    have hdisjoint := (apart_iff hm hw).mp (hfree.apart m ⟨x, hx, hm⟩)
    unfold Block.Overlaps at hover
    omega
  · intro hnone
    refine ⟨hw.level, ?_⟩
    rintro m ⟨x, hx, hm⟩
    refine (apart_iff hm hw).mpr ?_
    have hnot := hnone x hx
    unfold Block.Overlaps at hnot
    omega

theorem liveNodes_level (m : ℕ) {live : List Block} (hm : m ∈ liveNodes page live) :
    ∃ c, c ≤ 8 ∧ AtLevel c m := by
  rcases hm with ⟨x, -, hx⟩
  exact ⟨_, hx.depth, hx.level⟩

/-! ## First fit -/

/-- What `buddy_allocator_allocate` returned is null, and there was no place for the block, or
the first place there was. -/
structure FirstFit (page : ℕ) (s : BuddyState) (size : ℕ) (r : Option ℕ) (a : BuddyAllocator) :
    Prop where
  full : r = none ↔ ∀ p, AlignedBlock page (fitBucket size) p →
    ∃ x ∈ s.live, x.Overlaps p (bucketSize (fitBucket size))
  unchanged : r = none → a = s.allocator
  free : ∀ p, r = some p → AlignedBlock page (fitBucket size) p ∧
    ∀ x ∈ s.live, ¬ x.Overlaps p (bucketSize (fitBucket size))
  first : ∀ p, r = some p → ∀ q, AlignedBlock page (fitBucket size) q →
    (∀ x ∈ s.live, ¬ x.Overlaps q (bucketSize (fitBucket size))) → p ≤ q
  marked : ∀ p, r = some p → ∃ n, p = nodeToPointer page n (fitBucket size) ∧
    isMarked s.allocator.nodes n = false ∧
    ∀ j, isMarked a.nodes j = true ↔ isMarked s.allocator.nodes j = true ∨ Below j n

/-- No free node, so no place. -/
theorem firstFit_none {s : BuddyState} (hinv : BuddyInv page s)
    (hnone : ∀ w, ¬ FreeNode (liveNodes page s.live) size w) :
    FirstFit page s size none s.allocator := by
  refine ⟨⟨fun _ p hp => ?_, fun _ => rfl⟩, fun _ => rfl, fun p h => (nomatch h),
    fun p h => (nomatch h), fun p h => (nomatch h)⟩
  rcases (aligned_iff (fitBucket_le size)).mp hp with ⟨w, hw⟩
  by_contra hfree
  push Not at hfree
  exact hnone w ((freeNode_iff hinv hw).mpr hfree)

/-- The first free node is the first place. -/
theorem firstFit_some {s : BuddyState} (hinv : BuddyInv page s) {a : BuddyAllocator}
    (hat : NodeAt page p (fitBucket size) n) (hapart : ∀ m ∈ liveNodes page s.live, Apart m n)
    (hfirst : ∀ w, FreeNode (liveNodes page s.live) size w →
      p ≤ page + 16 * start 8 (fitBucket size) w)
    (hmarks : ∀ j, isMarked a.nodes j = true ↔ isMarked s.allocator.nodes j = true ∨ Below j n) :
    FirstFit page s size (some p) a := by
  have hfree := (freeNode_iff hinv hat).mp ⟨hat.level, hapart⟩
  have haligned := (aligned_iff (fitBucket_le size)).mpr ⟨n, hat⟩
  refine ⟨⟨fun h => (nomatch h), fun hall => ?_⟩, fun h => (nomatch h), ?_, ?_, ?_⟩
  · rcases hall _ haligned with ⟨x, hx, hover⟩
    exact absurd hover (hfree x hx)
  · intro p' hp
    rcases Option.some.inj hp with rfl
    exact ⟨haligned, hfree⟩
  · -- no free place is lower
    intro p' hp q hq hnone
    rcases Option.some.inj hp with rfl
    rcases (aligned_iff (fitBucket_le size)).mp hq with ⟨w, hw⟩
    rw [hw.address]
    exact hfirst w ((freeNode_iff hinv hw).mpr hnone)
  · intro p' hp
    rcases Option.some.inj hp with rfl
    refine ⟨n, ?_, ?_, hmarks⟩
    · rw [nodeToPointer_eq page (fitBucket_le size)]
      exact hat.address
    · by_contra hmarked
      rcases (hinv.tracks.mark_iff n).mp (by simpa using hmarked) with ⟨m, hm, hbelow⟩
      exact (hapart m hm).2 hbelow

/-- `buddy_allocator_allocate` returns the first aligned block of the smallest bucket that holds
the size, or null if all of them are in use. -/
theorem allocate_first_fit (page : ℕ) (s : BuddyState) (hr : Reachable (buddySystem page) s)
    (size : ℕ) (hsize : 1 ≤ size) (hmax : size ≤ buddyAllocatorMaximalAllocation) :
    (size ≤ bucketSize (fitBucket size) ∧ ∀ c, c < buddyAllocatorDepth → size ≤ bucketSize c →
      bucketSize (fitBucket size) ≤ bucketSize c) ∧
    ∃ r a, buddyAllocatorAllocate s.allocator size = some (r, a) ∧ FirstFit page s size r a := by
  have hinv := buddy_reachable_inv hr
  have hle : size ≤ 4096 := hmax
  refine ⟨⟨le_bucketSize_fitBucket hle, fun c hc hfits => ?_⟩, ?_⟩
  · exact bucketSize_antitone (le_fitBucket (Nat.le_of_lt_succ hc) hfits)
  rcases allocate_first hinv.tracks (fun m => liveNodes_level m) (.inl hsize) hle with
    ⟨⟨offset, nodes⟩, hrun, hpost, hfirst⟩
  -- the call is the loop, relative to the page
  have hcall : buddyAllocatorAllocate s.allocator size =
      some (offset.map (s.allocator.page + ·), { s.allocator with nodes := nodes }) := by
    rw [buddyAllocatorAllocate, if_neg (not_lt.mpr hmax), hrun]
    rfl
  refine ⟨_, _, hcall, ?_⟩
  rw [hinv.page_eq]
  cases offset with
  | none =>
    obtain ⟨rfl, -⟩ : nodes = s.allocator.nodes ∧ _ := hpost
    obtain rfl : s.allocator.page = page := hinv.page_eq
    exact firstFit_none hinv hfirst
  | some offset =>
    rcases hpost with ⟨n, ⟨hlevel, hdepth, haddr⟩, hapart, hmarks⟩
    have hat : NodeAt page (page + offset) (fitBucket size) n := ⟨hlevel, hdepth, by omega⟩
    exact firstFit_some hinv hat hapart (fun w hw => Nat.add_le_add_left (hfirst w hw) page) hmarks

/-- After two blocks of 112 and 16 bytes the first place for 300 bytes is the second block of
512 bytes. -/
theorem allocate_first_fit_third :
    ∃ s r a, Reachable (buddySystem 4096) s ∧ s.live = [⟨4224, 16⟩, ⟨4096, 112⟩] ∧
      buddyAllocatorAllocate s.allocator 300 = some (r, a) ∧ r = some 4608 ∧
      FirstFit 4096 s 300 r a := by
  have h0 : Run (buddySystem 4096) [] ⟨⟨4096, emptyBitmap⟩, []⟩ := .init rfl
  obtain ⟨x, hx, hlive, hthird⟩ : ∃ x, exec buddyNext [.allocate 112, .allocate 16] []
      ⟨⟨4096, emptyBitmap⟩, []⟩ = some x ∧ x.2.live = [⟨4224, 16⟩, ⟨4096, 112⟩] ∧
        (buddyAllocatorAllocate x.2.allocator 300).map Prod.fst = some (some 4608) := by
    refine ⟨_, rfl, rfl, by decide +kernel⟩
  have hr := (h0.exec (fun _ _ _ => next_of_buddyNext) hx).reachable
  rcases allocate_first_fit 4096 x.2 hr 300 (by decide) (by decide) with ⟨-, r, a, hcall, hfirst⟩
  rw [hcall] at hthird
  exact ⟨x.2, r, a, hr, hlive, hcall, Option.some.inj hthird, hfirst⟩

end SysProg.Memory
