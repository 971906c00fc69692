import SysProg.Memory.BuddyRuns

/-!
# The utilization of a page, `task5-memory/src/buddy_allocator.c`

* `usageRecurse`, `usage`, `buddyAllocatorUtilization` — the functions of the source;
* `usageRecurse_eq` — under a node they count the live blocks below it;
* `utilization_iff` — the quotient is taken over the size of the bitmap and not over the
  capacity of the page, so it is the live fraction only of an empty page.
-/

namespace SysProg.Memory

open HeapTree Lts

theorem lt_of_isSplit {nodes : Bitmap} {i b : ℕ} (h : isSplit nodes i b = true) : b < 8 := by
  unfold isSplit at h
  exact of_decide_eq_true (Bool.and_eq_true_iff.mp h).1

/-- `usage_recurse`. -/
def usageRecurse (nodes : Bitmap) (i bucket : ℕ) : ℕ :=
  if isSplit nodes i bucket then
    let usageLeft := usageRecurse nodes (left i) (bucket + 1)
    let usageRight := usageRecurse nodes (right i) (bucket + 1)
    usageLeft + usageRight
  else if isMarked nodes i then bucketSize bucket else 0
termination_by buddyAllocatorDepth - bucket
decreasing_by
  all_goals
    have hb := lt_of_isSplit ‹_›
    simp only [buddyAllocatorDepth]
    omega

def usage (nodes : Bitmap) : ℕ :=
  usageRecurse nodes 0 0

/-- `buddy_allocator_utilization`, with the exact quotient. -/
def buddyAllocatorUtilization (allocator : BuddyAllocator) : ℚ :=
  (usage allocator.nodes : ℚ) / (buddyAllocatorBitmapSize : ℚ)

/-- The sum of the bucket sizes of the live blocks. -/
def liveBytes (live : List Block) : ℕ :=
  (live.map fun x => bucketSize x.bucket).sum

/-! ## What the recursion counts -/

/-- The tree node at the address of the block. -/
def Block.node (page : ℕ) (x : Block) : ℕ :=
  2 ^ x.bucket - 1 + (x.pointer - page) / bucketSize x.bucket

variable {page n i b : ℕ} {nodes : Bitmap} {live : List Block} {x : Block} {s : BuddyState}

theorem NodeAt.node_eq (h : NodeAt page x.pointer x.bucket n) : x.node page = n := by
  have hpow : 0 < 16 * 2 ^ (8 - x.bucket) := by positivity
  have hlow := h.level.1
  unfold Block.node
  rw [h.address, bucketSize_eq h.depth, Nat.add_sub_cancel_left]
  unfold start
  rw [Nat.mul_left_comm, Nat.mul_div_cancel _ hpow]
  have := Nat.two_pow_pos x.bucket
  omega

theorem bucketSize_split (hb : b < 8) : bucketSize b = bucketSize (b + 1) + bucketSize (b + 1) := by
  rw [bucketSize_eq (by omega : b ≤ 8), bucketSize_eq (by omega : b + 1 ≤ 8), two_pow_sub hb]
  omega

/-- What is in use under a node is at most its size. -/
theorem usageRecurse_le (nodes : Bitmap) (i b : ℕ) : usageRecurse nodes i b ≤ bucketSize b := by
  fun_induction usageRecurse nodes i b with
  | case1 i b hs _ _ ihl ihr =>
    rw [bucketSize_split (lt_of_isSplit hs)]
    exact Nat.add_le_add ihl ihr
  | case2 => exact le_refl _
  | case3 => exact Nat.zero_le _

/-- Under a node the recursion counts the live blocks of its subtree. -/
theorem usageRecurse_eq (hplaced : WellPlaced page live) (h : Tracks nodes (liveNodes page live))
    (hi : AtLevel b i) (hb : b ≤ 8) :
    usageRecurse nodes i b = weightBelow (Block.node page) (fun x => bucketSize x.bucket) live i := by
  have hmem : ∀ x ∈ live, x.node page ∈ liveNodes page live ∧
      NodeAt page x.pointer x.bucket (x.node page) := by
    intro x hx
    rcases hplaced.node x hx with ⟨n, hn⟩
    have heq := hn.node_eq
    subst heq
    exact ⟨⟨x, hx, hn⟩, hn⟩
  fun_induction usageRecurse nodes i b with
  | case1 i b hs _ _ ihl ihr =>
    -- a split node is no block, so its blocks are those of its children
    have hlt := lt_of_isSplit hs
    have hne : ∀ x ∈ live, x.node page ≠ i := by
      intro x hx heq
      exact not_mem_of_isSplit h hs (heq ▸ (hmem x hx).1)
    rw [weightBelow_children _ _ hne]
    exact congrArg₂ (· + ·) (ihl hi.left hlt) (ihr hi.right hlt)
  | case2 i b hs hm =>
    -- a marked node that is not split is a block, and no other block is below it
    rcases (h.mark_iff i).mp hm with ⟨n, ⟨x, hx, hn⟩, hbelow⟩
    have hin : i = n := by
      by_contra hne
      have hlt : b < 8 := lt_of_lt_of_le (hbelow.level_lt hi hn.level hne) hn.depth
      have hchild := h.child_marked ⟨x, hx, hn⟩ hbelow hne
      apply hs
      simp only [isSplit, Bool.and_eq_true, decide_eq_true_eq, Bool.or_eq_true]
      exact ⟨hlt, hchild⟩
    subst hin
    have hbucket : x.bucket = b := hn.level.unique hi
    have hnode := hn.node_eq
    have honly : ∀ y ∈ live, Below i (y.node page) → y = x := by
      intro y hy hb'
      have hyn := hmem y hy
      have hsame : y.node page = i := by
        by_contra hne
        exact (h.apart i ⟨x, hx, hn⟩ _ hyn.1 (Ne.symm hne)).1 hb'
      have hpointer := (hn.unique (hsame ▸ hyn.2)).1
      exact List.inj_on_of_nodup_map hplaced.distinct hy hx hpointer.symm
    rw [weightBelow_item _ _ hplaced.distinct.of_map hx (hnode.symm ▸ .refl) honly, hbucket]
  | case3 i b hs hm =>
    -- below an unmarked node there is no block
    rw [weightBelow_eq_zero]
    intro x hx hbelow
    exact hm ((h.mark_iff i).mpr ⟨x.node page, (hmem x hx).1, hbelow⟩)

/-- `usage` is the sum of the bucket sizes of the live blocks. -/
theorem BuddyInv.usage_eq (h : BuddyInv page s) : usage s.allocator.nodes = liveBytes s.live := by
  unfold usage
  rw [usageRecurse_eq h.placed h.tracks AtLevel.zero (by omega), weightBelow_root]
  rfl

theorem BuddyInv.liveBytes_le (h : BuddyInv page s) :
    liveBytes s.live ≤ buddyAllocatorMaximalAllocation := by
  rw [← h.usage_eq]
  exact usageRecurse_le s.allocator.nodes 0 0

theorem BuddyInv.liveBytes_eq_zero (h : BuddyInv page s) : liveBytes s.live = 0 ↔ s.live = [] := by
  constructor
  · intro hzero
    rcases hlive : s.live with _ | ⟨x, rest⟩
    · rfl
    · have hx : x ∈ s.live := by
        rw [hlive]
        exact List.mem_cons_self
      rcases h.placed.node x hx with ⟨n, hn⟩
      have hpos := bucketSize_pos hn.depth
      rw [hlive] at hzero
      simp only [liveBytes, List.map_cons, List.sum_cons] at hzero
      omega
  · intro hnil
    rw [hnil]
    rfl

/-! ## The quotient -/

/-- The bitmap has 64 bytes. -/
theorem BuddyInv.utilization_eq (h : BuddyInv page s) :
    buddyAllocatorUtilization s.allocator = (liveBytes s.live : ℚ) / 64 := by
  have hsize : (buddyAllocatorBitmapSize : ℚ) = 64 :=
    congrArg Nat.cast (show buddyAllocatorBitmapSize = 64 from rfl)
  unfold buddyAllocatorUtilization
  rw [h.usage_eq, hsize]

/-- `buddy_allocator_utilization` reports the live fraction of the page. -/
def ReportsFraction (s : BuddyState) : Prop :=
  buddyAllocatorUtilization s.allocator =
      (liveBytes s.live : ℚ) / (buddyAllocatorMaximalAllocation : ℚ) ∧
    0 ≤ buddyAllocatorUtilization s.allocator ∧ buddyAllocatorUtilization s.allocator ≤ 1

/-- A run that takes the whole page. -/
theorem wholePage_run :
    ∃ s, Reachable (buddySystem 4096) s ∧ s.live = [⟨4096, 4096⟩] := by
  have h0 : Run (buddySystem 4096) [] ⟨⟨4096, emptyBitmap⟩, []⟩ := .init rfl
  obtain ⟨x, hx, hlive⟩ : ∃ x, exec buddyNext [.allocate 4096] [] ⟨⟨4096, emptyBitmap⟩, []⟩ = some x ∧
      x.2.live = [⟨4096, 4096⟩] := by
    refine ⟨_, rfl, rfl⟩
  exact ⟨x.2, (h0.exec (fun _ _ _ => next_of_buddyNext) hx).reachable, hlive⟩

theorem liveBytes_wholePage : liveBytes [⟨4096, 4096⟩] = 4096 := by
  decide +kernel

/-- In every reachable state `usage` is the sum of the bucket sizes of the live blocks,
at most the capacity of the page; the reported quotient is the live fraction if and only
if no block is live. -/
theorem utilization_iff (page : ℕ) (s : BuddyState) (hr : Reachable (buddySystem page) s) :
    usage s.allocator.nodes = liveBytes s.live ∧
    liveBytes s.live ≤ buddyAllocatorMaximalAllocation ∧
    (ReportsFraction s ↔ s.live = []) := by
  have h := buddy_reachable_inv hr
  refine ⟨h.usage_eq, h.liveBytes_le, ?_⟩
  have hmax : (buddyAllocatorMaximalAllocation : ℚ) = 4096 :=
    congrArg Nat.cast (show buddyAllocatorMaximalAllocation = 4096 from rfl)
  unfold ReportsFraction
  rw [h.utilization_eq, hmax, ← h.liveBytes_eq_zero]
  constructor
  · rintro ⟨heq, -, -⟩
    have : (liveBytes s.live : ℚ) = 0 := by linarith
    exact_mod_cast this
  · intro hzero
    rw [hzero]
    norm_num

/-- The whole page is live. -/
theorem utilization_wholePage :
    ∃ s, Reachable (buddySystem 4096) s ∧ liveBytes s.live = 4096 ∧ ¬ ReportsFraction s := by
  rcases wholePage_run with ⟨s, hr, hlive⟩
  refine ⟨s, hr, ?_, ?_⟩
  · rw [hlive]
    exact liveBytes_wholePage
  · intro h
    have := (utilization_iff 4096 s hr).2.2.mp h
    rw [hlive] at this
    cases this

/-- With 4096 of 4096 bytes live the reported quotient is 64. -/
theorem utilization_exceeds :
    ¬ ∀ s, Reachable (buddySystem 4096) s → usage s.allocator.nodes = liveBytes s.live ∧
      ReportsFraction s := by
  intro hall
  rcases wholePage_run with ⟨s, hr, hlive⟩
  -- the quotient is 4096 / 64
  have hle := (hall s hr).2.2.2
  rw [(buddy_reachable_inv hr).utilization_eq, hlive, liveBytes_wholePage] at hle
  norm_num at hle

end SysProg.Memory
