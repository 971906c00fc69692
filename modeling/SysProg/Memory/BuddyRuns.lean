import Mathlib.Tactic
import SysProg.Lib.Lts
import SysProg.Memory.BuddySpec

/-!
# Runs of the buddy allocator

A client allocates, deallocates and reallocates on one page, starting from a zeroed
bitmap. The state pairs the allocator with the client's account of its live blocks.

* `buddyStep`, `buddySystem` — the step function and the transition system;
* `BuddyInv` — the bitmap tracks the nodes of the live blocks, and pointers are
  pairwise different;
* `bitmap_exact` — what follows in every reachable state.
-/

namespace SysProg.Memory

open HeapTree Lts

/-- A block the client holds: the pointer it was given and the size it asked for. -/
structure Block where
  pointer : ℕ
  size : ℕ
deriving DecidableEq, Repr

/-- The bucket the block was taken from. -/
def Block.bucket (x : Block) : ℕ :=
  fitBucket x.size

/-- Two blocks have no byte in common. -/
def Block.Disjoint (x y : Block) : Prop :=
  x.pointer + bucketSize x.bucket ≤ y.pointer ∨ y.pointer + bucketSize y.bucket ≤ x.pointer

structure BuddyState where
  allocator : BuddyAllocator
  live : List Block

inductive BuddyOp where
  | allocate (size : ℕ)
  | deallocate (pointer : ℕ)
  | reallocate (pointer size : ℕ)

/-- The blocks that are left when the block at `p` is given up. -/
def release (p : ℕ) (live : List Block) : List Block :=
  live.filter fun x => x.pointer ≠ p

/-- The client keeps to the contract: it asks for at least one byte, and passes only
pointers it holds. -/
def BuddyOp.Allowed (s : BuddyState) : BuddyOp → Prop
  | .allocate size => 1 ≤ size
  | .deallocate p => ∃ x ∈ s.live, x.pointer = p
  | .reallocate p _ => ∃ x ∈ s.live, x.pointer = p

/-- One call, and what it does to the client's account. A failed reallocation keeps
the block when the size exceeds the maximum and loses it otherwise. -/
def buddyStep (op : BuddyOp) (s : BuddyState) : Option BuddyState :=
  match op with
  | .allocate size => do
      let (r, allocator) ← buddyAllocatorAllocate s.allocator size
      match r with
      | some p => return ⟨allocator, ⟨p, size⟩ :: s.live⟩
      | none => return ⟨allocator, s.live⟩
  | .deallocate p => do
      let allocator ← buddyAllocatorDeallocate s.allocator p
      return ⟨allocator, release p s.live⟩
  | .reallocate p size => do
      let r ← buddyAllocatorReallocate s.allocator p size
      match r.pointer with
      | some q => return ⟨r.allocator, ⟨q, size⟩ :: release p s.live⟩
      | none =>
          if size > buddyAllocatorMaximalAllocation then return ⟨r.allocator, s.live⟩
          else return ⟨r.allocator, release p s.live⟩

def buddySystem (page : ℕ) : System BuddyState BuddyOp where
  Init s := s = ⟨⟨page, emptyBitmap⟩, []⟩
  Next op s s' := op.Allowed s ∧ buddyStep op s = some s'

/-! ## The invariant -/

/-- The tree nodes of the live blocks. -/
def liveNodes (page : ℕ) (live : List Block) : Set ℕ :=
  {n | ∃ x ∈ live, NodeAt page x.pointer x.bucket n}

/-- The live blocks are large enough tree nodes with distinct addresses. -/
structure WellPlaced (page : ℕ) (live : List Block) : Prop where
  node : ∀ x ∈ live, ∃ n, NodeAt page x.pointer x.bucket n
  fits : ∀ x ∈ live, x.size ≤ bucketSize x.bucket
  distinct : (live.map Block.pointer).Nodup

structure BuddyInv (page : ℕ) (s : BuddyState) : Prop where
  page_eq : s.allocator.page = page
  placed : WellPlaced page s.live
  tracks : Tracks s.allocator.nodes (liveNodes page s.live)

variable {page p q b n m : ℕ} {live : List Block} {x y : Block} {s s' : BuddyState}

theorem liveNodes_nil : liveNodes page [] = ∅ := by
  simp [liveNodes]

theorem liveNodes_cons (h : NodeAt page x.pointer x.bucket n) :
    liveNodes page (x :: live) = insert n (liveNodes page live) := by
  ext m
  simp only [liveNodes, List.mem_cons, exists_eq_or_imp, Set.mem_ofPred_eq, Set.mem_insert_iff]
  constructor
  · rintro (hx | hm)
    · exact .inl (hx.node_unique h)
    · exact .inr hm
  · rintro (rfl | hm)
    · exact .inl h
    · exact .inr hm

theorem mem_release : y ∈ release p live ↔ y ∈ live ∧ y.pointer ≠ p := by
  simp [release]

/-- Giving up the block of node `n` takes `n` out of the live nodes, and nothing else. -/
theorem liveNodes_release (hd : (live.map Block.pointer).Nodup) (hx : x ∈ live)
    (h : NodeAt page x.pointer x.bucket n) :
    liveNodes page live = insert n (liveNodes page (release x.pointer live)) ∧
      n ∉ liveNodes page (release x.pointer live) := by
  constructor
  · ext m
    constructor
    · rintro ⟨y, hy, hm⟩
      by_cases hp : y.pointer = x.pointer
      · rcases List.inj_on_of_nodup_map hd hy hx hp with rfl
        exact .inl (hm.node_unique h)
      · exact .inr ⟨y, mem_release.mpr ⟨hy, hp⟩, hm⟩
    · rintro (rfl | ⟨y, hy, hm⟩)
      · exact ⟨x, hx, h⟩
      · exact ⟨y, (mem_release.mp hy).1, hm⟩
  · rintro ⟨y, hy, hn⟩
    exact (mem_release.mp hy).2 (hn.unique h).1

theorem BuddyInv.release_block (h : BuddyInv page s) (hx : x ∈ s.live) :
    ∃ n, NodeAt page x.pointer x.bucket n ∧ n ∉ liveNodes page (release x.pointer s.live) ∧
      Tracks s.allocator.nodes (insert n (liveNodes page (release x.pointer s.live))) := by
  rcases h.placed.node x hx with ⟨n, hn⟩
  rcases liveNodes_release h.placed.distinct hx hn with ⟨hset, hfresh⟩
  exact ⟨n, hn, hfresh, hset ▸ h.tracks⟩

theorem WellPlaced.release (h : WellPlaced page live) (p : ℕ) :
    WellPlaced page (release p live) := by
  refine ⟨fun x hx => h.node x (mem_release.mp hx).1, fun x hx => h.fits x (mem_release.mp hx).1,
    h.distinct.sublist ?_⟩
  exact List.filter_sublist.map _

/-- A new node gives a new block. -/
theorem BuddyInv.add {a : BuddyAllocator} {size : ℕ} (hpage : a.page = page) (h : WellPlaced page live)
    (hle : size ≤ 4096) (hat : NodeAt page p (fitBucket size) n) (hn : n ∉ liveNodes page live)
    (ht : Tracks a.nodes (insert n (liveNodes page live))) :
    BuddyInv page ⟨a, ⟨p, size⟩ :: live⟩ := by
  refine ⟨hpage, ⟨?_, ?_, ?_⟩, ?_⟩
  · intro x hx
    rcases List.mem_cons.mp hx with rfl | hx
    · exact ⟨n, hat⟩
    · exact h.node x hx
  · intro x hx
    rcases List.mem_cons.mp hx with rfl | hx
    · exact le_bucketSize_fitBucket hle
    · exact h.fits x hx
  · -- disjoint nodes have different addresses
    refine List.nodup_cons.mpr ⟨fun hp => ?_, h.distinct⟩
    rcases List.mem_map.mp hp with ⟨y, hy, hyp⟩
    rcases h.node y hy with ⟨m, hm⟩
    have hd := hat.disjoint hm (ht.apart_rest hn m ⟨y, hy, hm⟩).symm
    have h1 := bucketSize_pos hat.depth
    have h2 := bucketSize_pos hm.depth
    simp only at hyp
    omega
  · rw [liveNodes_cons (x := ⟨p, size⟩) hat]
    exact ht

theorem buddy_init_inv (page : ℕ) : BuddyInv page ⟨⟨page, emptyBitmap⟩, []⟩ := by
  refine ⟨rfl, ⟨?_, ?_, ?_⟩, ?_⟩
  · simp
  · simp
  · exact List.nodup_nil
  · rw [liveNodes_nil]
    exact tracks_emptyBitmap

/-- Every allowed call returns, and it keeps the invariant. -/
theorem buddy_step_inv {op : BuddyOp} (h : BuddyInv page s) (hallowed : op.Allowed s) :
    ∃ s', buddyStep op s = some s' ∧ BuddyInv page s' := by
  have hpage := h.page_eq
  cases op with
  | allocate size =>
    rcases allocate_spec h.tracks hallowed with ⟨r, a, hrun, hpage', hpost⟩
    rcases hpost with ⟨rfl, rfl, -⟩ | ⟨p, n, rfl, hle, hat, hapart, ht⟩
    · exact ⟨⟨s.allocator, s.live⟩, by simp [buddyStep, hrun], h⟩
    · refine ⟨⟨a, ⟨p, size⟩ :: s.live⟩, by simp [buddyStep, hrun], ?_⟩
      refine BuddyInv.add (hpage'.trans hpage) h.placed hle (hpage ▸ hat) ?_ ht
      exact fun hn => (hapart n hn).1 .refl
  | deallocate =>
    rcases hallowed with ⟨x, hx, rfl⟩
    rcases h.release_block hx with ⟨n, hat, hfresh, ht⟩
    rcases deallocate_spec ht hfresh (hpage ▸ hat) with ⟨a, hrun, hpage', ht'⟩
    refine ⟨⟨a, release x.pointer s.live⟩, by simp [buddyStep, hrun], ?_⟩
    exact ⟨hpage'.trans hpage, h.placed.release _, ht'⟩
  | reallocate p size =>
    rcases hallowed with ⟨x, hx, rfl⟩
    rcases h.release_block hx with ⟨n, hat, hfresh, ht⟩
    rcases reallocate_spec size ht hfresh (hpage ▸ hat) with ⟨r, hrun, hpage', -, hpost⟩
    have hmaximum : buddyAllocatorMaximalAllocation = 4096 := rfl
    rcases hpost with ⟨q, m, hr, hle, hat', hm, ht', -⟩ | ⟨hr, hlarge, ha, -⟩ |
      ⟨hr, -, hle, ht', -, -⟩
    · refine ⟨⟨r.allocator, ⟨q, size⟩ :: release x.pointer s.live⟩, ?_, ?_⟩
      · simp [buddyStep, hrun, hr]
      · exact BuddyInv.add (hpage'.trans hpage) (h.placed.release _) hle (hpage ▸ hat') hm ht'
    · -- too large for a tree: nothing happens
      refine ⟨⟨r.allocator, s.live⟩, ?_, ha ▸ h⟩
      simp only [buddyStep, hrun, hr, hmaximum, Option.bind_eq_bind, Option.bind_some]
      rw [if_pos hlarge]
      rfl
    · -- no room in the tree: the block is gone
      refine ⟨⟨r.allocator, release x.pointer s.live⟩, ?_, ?_⟩
      · simp only [buddyStep, hrun, hr, hmaximum, Option.bind_eq_bind, Option.bind_some]
        rw [if_neg (by omega)]
        rfl
      · exact ⟨hpage'.trans hpage, h.placed.release _, ht'⟩

theorem buddy_reachable_inv (h : Reachable (buddySystem page) s) : BuddyInv page s := by
  refine Reachable.invariant ?_ ?_ h
  · rintro s rfl
    exact buddy_init_inv page
  · rintro op s s' hinv ⟨hallowed, hstep⟩
    rcases buddy_step_inv hinv hallowed with ⟨t, ht, hinv'⟩
    rw [ht] at hstep
    rcases Option.some.inj hstep with rfl
    exact hinv'

/-! ## What holds in every reachable state -/

/-- Blocks of a well placed list are pairwise disjoint when the bitmap tracks them. -/
theorem BuddyInv.disjoint (h : BuddyInv page s) : s.live.Pairwise Block.Disjoint := by
  have hne : s.live.Pairwise fun x y => x.pointer ≠ y.pointer := List.pairwise_map.mp h.placed.distinct
  refine hne.imp_of_mem fun {x y} hx hy hxy => ?_
  rcases h.placed.node x hx with ⟨n, hn⟩
  rcases h.placed.node y hy with ⟨m, hm⟩
  refine hn.disjoint hm (h.tracks.apart n ⟨x, hx, hn⟩ m ⟨y, hy, hm⟩ ?_)
  rintro rfl
  exact hxy (hn.unique hm).1

/-- The block is the node `n` of the tree. -/
def Block.IsNode (page : ℕ) (x : Block) (n : ℕ) : Prop :=
  x.bucket < buddyAllocatorDepth ∧ AtLevel x.bucket n ∧ n < buddyAllocatorNodeCount ∧
    x.pointer = nodeToPointer page n x.bucket

theorem isNode_iff (page : ℕ) (x : Block) (n : ℕ) :
    x.IsNode page n ↔ NodeAt page x.pointer x.bucket n := by
  unfold Block.IsNode
  constructor
  · rintro ⟨hdepth, hlevel, -, haddr⟩
    have hdepth : x.bucket ≤ 8 := Nat.le_of_lt_succ hdepth
    exact ⟨hlevel, hdepth, haddr.trans (nodeToPointer_eq page hdepth)⟩
  · intro h
    refine ⟨Nat.lt_succ_of_le h.depth, h.level, AtLevel_lt h.level h.depth, ?_⟩
    rw [nodeToPointer_eq page h.depth]
    exact h.address

/-- The bitmap is an exact account of the live blocks: in every reachable state the
live blocks are pairwise disjoint tree nodes that hold the requested bytes, and the
marked nodes are exactly the nodes with a live block at or below them. The bitmap is a
function of the set of live blocks, it is zero when nothing is live, and every allowed
call returns. -/
theorem bitmap_exact (page : ℕ) (s : BuddyState) (hr : Reachable (buddySystem page) s) :
    s.live.Pairwise Block.Disjoint ∧
    (∀ x ∈ s.live, x.size ≤ bucketSize x.bucket ∧ ∃ n, x.IsNode page n) ∧
    (∀ i, isMarked s.allocator.nodes i = true ↔
      ∃ x ∈ s.live, ∃ n, x.IsNode page n ∧ Below i n) ∧
    (∀ s', Reachable (buddySystem page) s' →
      (∀ p b, (∃ x ∈ s.live, x.pointer = p ∧ x.bucket = b) ↔
        ∃ x ∈ s'.live, x.pointer = p ∧ x.bucket = b) →
      s.allocator.nodes = s'.allocator.nodes) ∧
    (s.live = [] → s.allocator.nodes = emptyBitmap) ∧
    ∀ op, op.Allowed s → ∃ s', (buddySystem page).Next op s s' := by
  have h := buddy_reachable_inv hr
  refine ⟨h.disjoint, ?_, ?_, ?_, ?_, ?_⟩
  · intro x hx
    rcases h.placed.node x hx with ⟨n, hn⟩
    exact ⟨h.placed.fits x hx, n, (isNode_iff page x n).mpr hn⟩
  · intro i
    rw [h.tracks.mark_iff i]
    constructor
    · rintro ⟨n, ⟨x, hx, hn⟩, hb⟩
      exact ⟨x, hx, n, (isNode_iff page x n).mpr hn, hb⟩
    · rintro ⟨x, hx, n, hn, hb⟩
      exact ⟨n, ⟨x, hx, (isNode_iff page x n).mp hn⟩, hb⟩
  · intro s' hr' hsame
    have h' := buddy_reachable_inv hr'
    have hset : liveNodes page s.live = liveNodes page s'.live := by
      ext n
      constructor
      · rintro ⟨x, hx, hn⟩
        rcases (hsame x.pointer x.bucket).mp ⟨x, hx, rfl, rfl⟩ with ⟨y, hy, hp, hb⟩
        exact ⟨y, hy, by rwa [hp, hb]⟩
      · rintro ⟨x, hx, hn⟩
        rcases (hsame x.pointer x.bucket).mpr ⟨x, hx, rfl, rfl⟩ with ⟨y, hy, hp, hb⟩
        exact ⟨y, hy, by rwa [hp, hb]⟩
    -- the marks are a function of the nodes
    apply bitmap_ext
    intro i
    exact Bool.eq_iff_iff.mpr (h.tracks.unique (hset ▸ h'.tracks) i)
  · intro hnil
    have ht := h.tracks
    rw [hnil, liveNodes_nil] at ht
    apply bitmap_ext
    intro i
    exact Bool.eq_iff_iff.mpr (ht.unique tracks_emptyBitmap i)
  · intro op hallowed
    rcases buddy_step_inv h hallowed with ⟨s', hstep, -⟩
    exact ⟨s', hallowed, hstep⟩

instance BuddyOp.decidableAllowed (s : BuddyState) (op : BuddyOp) : Decidable (op.Allowed s) :=
  match op with
  | .allocate size => inferInstanceAs (Decidable (1 ≤ size))
  | .deallocate p => inferInstanceAs (Decidable (∃ x ∈ s.live, x.pointer = p))
  | .reallocate p _ => inferInstanceAs (Decidable (∃ x ∈ s.live, x.pointer = p))

/-- The step of an allowed call. -/
def buddyNext (op : BuddyOp) (s : BuddyState) : Option BuddyState :=
  if op.Allowed s then buddyStep op s else none

theorem next_of_buddyNext {op : BuddyOp} (h : buddyNext op s = some s') :
    (buddySystem page).Next op s s' := by
  unfold buddyNext at h
  split at h
  · exact ⟨‹_›, h⟩
  · cases h

/-- Two blocks of 112 and 16 bytes; the first one grows to 300 bytes and moves. -/
theorem bitmap_exact_grown :
    ∃ s, Reachable (buddySystem 4096) s ∧ s.live = [⟨4608, 300⟩, ⟨4224, 16⟩] ∧
      s.live.Pairwise Block.Disjoint ∧
      (∀ i, isMarked s.allocator.nodes i = true ↔
        ∃ x ∈ s.live, ∃ n, x.IsNode 4096 n ∧ Below i n) := by
  have h0 : Run (buddySystem 4096) [] ⟨⟨4096, emptyBitmap⟩, []⟩ := .init rfl
  obtain ⟨x, hx, hlive⟩ : ∃ x, exec buddyNext
      [.allocate 112, .allocate 16, .reallocate 4096 300] [] ⟨⟨4096, emptyBitmap⟩, []⟩ = some x ∧
        x.2.live = [⟨4608, 300⟩, ⟨4224, 16⟩] := by
    refine ⟨_, rfl, rfl⟩
  have hr := (h0.exec (fun _ _ _ => next_of_buddyNext) hx).reachable
  have hall := bitmap_exact 4096 x.2 hr
  exact ⟨x.2, hr, hlive, hall.1, hall.2.2.1⟩

end SysProg.Memory
