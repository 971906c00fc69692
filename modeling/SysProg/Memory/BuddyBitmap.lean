import Mathlib.Data.Nat.Bitwise
import Mathlib.Tactic
import SysProg.Lib.HeapTree
import SysProg.Memory.BuddyAllocator

/-!
# Bits and tree indices of the buddy allocator

The index arithmetic of `buddy_allocator.c` read as a tree in heap order: `sibling`,
`parent` and `isLeft` on the two kinds of children, the bucket sizes as powers of two,
and the bitmap as a set of marked nodes.
-/

namespace SysProg.Memory

open HeapTree

variable {p : ℕ} {i : ℕ}

/-! ## The bitmap -/

theorem isMarked_eq_getLsbD (nodes : Bitmap) (i : ℕ) :
    isMarked nodes i = (byteOf nodes i).getLsbD (i % 8) := by
  have hk : i % 8 < 8 := Nat.mod_lt _ (by norm_num)
  unfold isMarked place
  generalize byteOf nodes i = byte
  generalize i % 8 = k at hk
  interval_cases k <;> revert byte <;> decide

theorem place_getLsbD (i k : ℕ) (hk : k < 8) : (place i).getLsbD k = decide (i % 8 = k) := by
  have hi : i % 8 < 8 := Nat.mod_lt _ (by norm_num)
  unfold place
  generalize i % 8 = j at hi
  interval_cases j <;> interval_cases k <;> rfl

theorem byteOf_setIfInBounds (nodes : Bitmap) (i j : ℕ) (byte : BitVec 8) :
    byteOf (nodes.setIfInBounds (i / 8) byte) j =
      if j / 8 = i / 8 ∧ i / 8 < 64 then byte else byteOf nodes j := by
  show _ = if j / 8 = i / 8 ∧ i / 8 < buddyAllocatorBitmapSize then _ else _
  unfold byteOf
  rw [Vector.getElem?_setIfInBounds]
  by_cases hij : i / 8 = j / 8
  · by_cases hlt : i / 8 < buddyAllocatorBitmapSize
    · simp [hij.symm, hlt]
    · simp [hij.symm, hlt]
  · simp [hij, Ne.symm hij]

theorem byteOf_eq_zero {nodes : Bitmap} (hi : 512 ≤ i) : byteOf nodes i = 0 := by
  have hsize : buddyAllocatorBitmapSize = 64 := rfl
  have hout : nodes[i / 8]? = none := Vector.getElem?_eq_none (by omega)
  simp [byteOf, hout]

theorem isMarked_mark {nodes : Bitmap} (hi : i < 512) (j : ℕ) :
    isMarked (mark nodes i) j = (decide (j = i) || isMarked nodes j) := by
  have hj : j % 8 < 8 := Nat.mod_lt _ (by norm_num)
  rw [isMarked_eq_getLsbD, isMarked_eq_getLsbD, mark, byteOf_setIfInBounds]
  by_cases hbyte : j / 8 = i / 8
  · have hsame : byteOf nodes j = byteOf nodes i := by simp [byteOf, hbyte]
    rw [if_pos ⟨hbyte, by omega⟩, BitVec.getLsbD_or, place_getLsbD i _ hj, hsame, Bool.or_comm]
    congr 1
    exact decide_eq_decide.mpr (by omega)
  · rw [if_neg (fun h => hbyte h.1)]
    have hne : j ≠ i := by
      rintro rfl
      exact hbyte rfl
    simp [hne]

theorem isMarked_unmark (nodes : Bitmap) (i j : ℕ) :
    isMarked (unmark nodes i) j = (decide (j ≠ i) && isMarked nodes j) := by
  have hj : j % 8 < 8 := Nat.mod_lt _ (by norm_num)
  rw [isMarked_eq_getLsbD, isMarked_eq_getLsbD, unmark, byteOf_setIfInBounds]
  by_cases hbyte : j / 8 = i / 8 ∧ i / 8 < 64
  · have hsame : byteOf nodes j = byteOf nodes i := by simp [byteOf, hbyte.1]
    rw [if_pos hbyte, BitVec.getLsbD_and, BitVec.getLsbD_not, place_getLsbD i _ hj, hsame,
      Bool.and_comm]
    congr 1
    have heq : (i % 8 = j % 8) ↔ j = i := by omega
    simp [heq, hj]
  · rw [if_neg hbyte]
    by_cases hij : j = i
    · subst hij
      have hzero : byteOf nodes j = 0 := byteOf_eq_zero (by omega)
      simp [hzero]
    · simp [hij]

theorem isMarked_emptyBitmap (i : ℕ) : isMarked emptyBitmap i = false := by
  rw [isMarked_eq_getLsbD]
  unfold byteOf emptyBitmap
  rw [Vector.getElem?_replicate]
  split <;> simp

/-- The marks determine the bitmap. -/
theorem bitmap_ext {a b : Bitmap} (h : ∀ i, isMarked a i = isMarked b i) : a = b := by
  ext k hk l hl
  have hbit := h (8 * k + l)
  rw [isMarked_eq_getLsbD, isMarked_eq_getLsbD] at hbit
  have hdiv : (8 * k + l) / 8 = k := by omega
  have hmod : (8 * k + l) % 8 = l := by omega
  simpa [byteOf, hdiv, hmod, hk, BitVec.getLsbD_eq_getElem hl] using hbit

/-! ## Index arithmetic -/

theorem xor_one_even (k : ℕ) : 2 * k ^^^ 1 = 2 * k + 1 := by
  have hdiv : (2 * k ^^^ 1) / 2 = k := by
    rw [Nat.xor_div_two]
    simp
  have hmod : (2 * k ^^^ 1) % 2 = 1 := by
    rw [Nat.xor_mod_two_eq]
    omega
  omega

theorem xor_one_odd (k : ℕ) : (2 * k + 1) ^^^ 1 = 2 * k := by
  rw [← xor_one_even, Nat.xor_assoc, Nat.xor_self, Nat.xor_zero]

theorem sibling_left (hp : p < 512) : sibling (left p) = right p := by
  unfold sibling left right
  rw [show (2 * p + 1 + (2 ^ 64 - 1)) % 2 ^ 64 = 2 * p by omega, xor_one_even]
  omega

theorem sibling_right (hp : p < 512) : sibling (right p) = left p := by
  unfold sibling left right
  rw [show (2 * p + 2 + (2 ^ 64 - 1)) % 2 ^ 64 = 2 * p + 1 by omega, xor_one_odd]
  omega

theorem parent_left (hp : p < 512) : parent (left p) = p := by
  unfold parent left
  omega

theorem parent_right (hp : p < 512) : parent (right p) = p := by
  unfold parent right
  omega

theorem isLeft_root : isLeft 0 = true := by
  decide

theorem isLeft_left (hp : p < 512) : isLeft (left p) = true := by
  unfold isLeft
  rw [sibling_left hp]
  simp [left, right]

theorem isLeft_right (hp : p < 512) : isLeft (right p) = false := by
  unfold isLeft
  rw [sibling_right hp]
  simp [left, right]

/-- A node of the tree is the root or one of the two children of its parent. -/
theorem node_cases (i : ℕ) : i = 0 ∨ (∃ p, p < i ∧ i = left p) ∨ ∃ p, p < i ∧ i = right p := by
  unfold left right
  rcases Nat.even_or_odd' i with ⟨k, rfl | rfl⟩
  · rcases Nat.eq_zero_or_pos k with rfl | hk
    · exact .inl rfl
    · exact .inr (.inr ⟨k - 1, by omega, by omega⟩)
  · exact .inr (.inl ⟨k, by omega, rfl⟩)

theorem exists_left (hlt : i < 511) (hne : i ≠ 0) (hleft : isLeft i = true) :
    ∃ p, i = left p ∧ sibling i = right p := by
  rcases node_cases i with h0 | ⟨p, hp, hi⟩ | ⟨p, hp, hi⟩
  · exact absurd h0 hne
  · exact ⟨p, hi, by rw [hi, sibling_left (by omega)]⟩
  · rw [hi, isLeft_right (by omega)] at hleft
    cases hleft

theorem exists_right (hlt : i < 511) (hright : isLeft i = false) :
    ∃ p, i = right p ∧ parent i = p := by
  rcases node_cases i with h0 | ⟨p, hp, hi⟩ | ⟨p, hp, hi⟩
  · rw [h0, isLeft_root] at hright
    cases hright
  · rw [hi, isLeft_left (by omega)] at hright
    cases hright
  · exact ⟨p, hi, by rw [hi, parent_right (by omega)]⟩

theorem siblings_of_ne_zero (hi : i < 512) (h0 : i ≠ 0) :
    Siblings i (sibling i) (parent i) := by
  rcases node_cases i with h | ⟨p, hp, rfl⟩ | ⟨p, hp, rfl⟩
  · exact absurd h h0
  · rw [sibling_left (by omega), parent_left (by omega)]
    exact .inl ⟨rfl, rfl⟩
  · rw [sibling_right (by omega), parent_right (by omega)]
    exact .inr ⟨rfl, rfl⟩

/-! ## Buckets -/

theorem bucketSize_eq {b : ℕ} (hb : b ≤ 8) : bucketSize b = 16 * 2 ^ (8 - b) := by
  unfold bucketSize
  rw [if_neg (by simp; omega)]
  simp [Nat.shiftLeft_eq]

theorem bucketSize_nine : bucketSize 9 = 0 := rfl

theorem bucketSize_pos {b : ℕ} (hb : b ≤ 8) : 0 < bucketSize b := by
  rw [bucketSize_eq hb]
  positivity

theorem bucketSize_succ_le (b : ℕ) : bucketSize (b + 1) ≤ bucketSize b := by
  rcases Nat.lt_or_ge b 8 with hb | hb
  · rw [bucketSize_eq (by omega), bucketSize_eq (by omega), two_pow_sub hb]
    omega
  · have : bucketSize (b + 1) = 0 := by simp [bucketSize]; omega
    omega

theorem bucketSize_antitone : Antitone bucketSize :=
  antitone_nat_of_succ_le bucketSize_succ_le

/-- The bucket of the smallest block that holds `size` bytes. -/
def fitBucket (size : ℕ) : ℕ :=
  Nat.findGreatest (fun b => size ≤ bucketSize b) 8

theorem fitBucket_eq {size b : ℕ} (hb : b ≤ 8) (hfit : size ≤ bucketSize b)
    (hnext : b = 8 ∨ bucketSize (b + 1) < size) : fitBucket size = b := by
  refine Nat.findGreatest_eq_iff.mpr ⟨hb, fun _ => hfit, ?_⟩
  intro c hbc hc hfits
  rcases hnext with rfl | hnext
  · omega
  · have := bucketSize_antitone (show b + 1 ≤ c by omega)
    omega

theorem le_bucketSize_fitBucket {size : ℕ} (h : size ≤ 4096) :
    size ≤ bucketSize (fitBucket size) := by
  have h0 : size ≤ bucketSize 0 := h
  exact Nat.findGreatest_spec (P := fun b => size ≤ bucketSize b) (Nat.zero_le 8) h0

/-! ## Nodes and addresses -/

/-- Node `n` of bucket `b` in the page at `page` starts at `p`. -/
structure NodeAt (page p b n : ℕ) : Prop where
  level : AtLevel b n
  depth : b ≤ 8
  address : p = page + 16 * start 8 b n

theorem AtLevel_lt {b n : ℕ} (h : AtLevel b n) (hb : b ≤ 8) : n < 511 := by
  have h2 := h.2
  have hpow : 2 ^ (b + 1) ≤ 2 ^ 9 := Nat.pow_le_pow_right (by norm_num) (by omega)
  omega

theorem start_add_le {b n : ℕ} (h : AtLevel b n) (hb : b ≤ 8) :
    start 8 b n + 2 ^ (8 - b) ≤ 256 := by
  have hroot := (Below.root n).start_le AtLevel.zero h hb
  have h0 : start 8 0 0 = 0 := rfl
  have := hroot.2.2
  norm_num [h0] at this
  omega

theorem nodeToPointer_eq (page : ℕ) {i b : ℕ} (hb : b ≤ 8) :
    nodeToPointer page i b = page + 16 * start 8 b i := by
  unfold nodeToPointer start
  rw [Nat.shiftLeft_eq, Nat.shiftLeft_eq, one_mul]
  simp only [allocationGranularity, buddyAllocatorDepth]
  rw [show 9 - b - 1 = 8 - b by omega]

theorem NodeAt.unique {page p q b c n : ℕ} (h : NodeAt page p b n) (h' : NodeAt page q c n) : p = q ∧ b = c := by
  have hbc := h.level.unique h'.level
  subst hbc
  exact ⟨h.address.trans h'.address.symm, rfl⟩

theorem NodeAt.node_unique {page p b n m : ℕ} (h : NodeAt page p b n) (h' : NodeAt page p b m) : n = m := by
  by_contra hne
  have hd := start_disjoint_of_ne (d := 8) h.level h'.level hne
  have h1 := h.address
  have h2 := h'.address
  have hpos := Nat.two_pow_pos (8 - b)
  omega

/-- Nodes that are apart are disjoint ranges of addresses. -/
theorem NodeAt.disjoint {page p q b c n m : ℕ} (h : NodeAt page p b n) (h' : NodeAt page q c m)
    (hap : Apart n m) :
    p + bucketSize b ≤ q ∨ q + bucketSize c ≤ p := by
  have hd := hap.start_disjoint h.level h'.level h.depth h'.depth
  rw [bucketSize_eq h.depth, bucketSize_eq h'.depth, h.address, h'.address]
  omega

end SysProg.Memory
