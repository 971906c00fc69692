import Mathlib.Tactic

/-!
# Binary trees in heap order

The nodes of an infinite binary tree are the natural numbers: `0` is the root and
the children of `i` are `2 * i + 1` and `2 * i + 2`.

* `Below a i` — `i` is `a` or a descendant of `a`; the ancestors of a node form a
  chain (`Below.comparable`);
* `AtLevel b i` — `i` lies `b` steps below the root; `start d b i` is the position
  of its first leaf at level `d` and `2 ^ (d - b)` the number of its leaves;
* `Exact M L` — the marked nodes are exactly the ancestors of the nodes in `L`,
  none of which lies below another. This is the invariant of a buddy allocator
  whose live blocks are `L`; the lemmas say how marking and unmarking moves it
  from one set of blocks to the next;
* `weightBelow` — the weight of the items in the subtree of a node, and how it is
  made up of the weights of its children.
-/

namespace HeapTree

/-- `i` is `a` or one of its descendants. -/
inductive Below (a : ℕ) : ℕ → Prop where
  | refl : Below a a
  | left {i : ℕ} : Below a i → Below a (2 * i + 1)
  | right {i : ℕ} : Below a i → Below a (2 * i + 2)

namespace Below

variable {a b c i : ℕ}

theorem le (h : Below a i) : a ≤ i := by
  induction h with
  | refl => exact le_refl a
  | left _ ih => omega
  | right _ ih => omega

theorem trans (h : Below a b) (h' : Below b c) : Below a c := by
  induction h' with
  | refl => exact h
  | left _ ih => exact ih.left
  | right _ ih => exact ih.right

theorem antisymm (h : Below a b) (h' : Below b a) : a = b :=
  le_antisymm h.le h'.le

/-- The root is above every node. -/
theorem root (i : ℕ) : Below 0 i := by
  induction i using Nat.strong_induction_on with
  | _ i ih =>
    rcases Nat.eq_zero_or_pos i with rfl | hi
    · exact .refl
    · rcases Nat.even_or_odd' i with ⟨k, rfl | rfl⟩
      · have := (ih (k - 1) (by omega)).right
        rwa [show 2 * (k - 1) + 2 = 2 * k by omega] at this
      · exact (ih k (by omega)).left

/-- A proper descendant lies below one of the children. -/
theorem child (h : Below a i) : a = i ∨ Below (2 * a + 1) i ∨ Below (2 * a + 2) i := by
  induction h with
  | refl => exact .inl rfl
  | left _ ih =>
    rcases ih with rfl | h | h
    · exact .inr (.inl .refl)
    · exact .inr (.inl h.left)
    · exact .inr (.inr h.left)
  | right _ ih =>
    rcases ih with rfl | h | h
    · exact .inr (.inr .refl)
    · exact .inr (.inl h.right)
    · exact .inr (.inr h.right)

/-- The ancestors of a left child are itself and those of its parent. -/
theorem left_iff : Below a (2 * i + 1) ↔ a = 2 * i + 1 ∨ Below a i := by
  constructor
  · intro h
    generalize hj : 2 * i + 1 = j at h
    cases h with
    | refl => exact .inl rfl
    | @left k h => exact .inr (by rwa [show i = k by omega])
    | @right k h => omega
  · rintro (rfl | h)
    · exact .refl
    · exact h.left

theorem right_iff : Below a (2 * i + 2) ↔ a = 2 * i + 2 ∨ Below a i := by
  constructor
  · intro h
    generalize hj : 2 * i + 2 = j at h
    cases h with
    | refl => exact .inl rfl
    | @left k h => omega
    | @right k h => exact .inr (by rwa [show i = k by omega])
  · rintro (rfl | h)
    · exact .refl
    · exact h.right

/-- Two ancestors of one node are comparable. -/
theorem comparable (h : Below a i) (h' : Below b i) : Below a b ∨ Below b a := by
  induction h generalizing b with
  | refl => exact .inr h'
  | left h ih =>
    rcases left_iff.mp h' with rfl | h'
    · exact .inl h.left
    · exact ih h'
  | right h ih =>
    rcases right_iff.mp h' with rfl | h'
    · exact .inl h.right
    · exact ih h'

theorem zero_iff : Below a 0 ↔ a = 0 := by
  constructor
  · intro h
    have := h.le
    omega
  · rintro rfl
    exact .refl

end Below

/-- Neither node lies below the other. -/
def Apart (i j : ℕ) : Prop :=
  ¬ Below i j ∧ ¬ Below j i

theorem Apart.symm {i j : ℕ} (h : Apart i j) : Apart j i :=
  ⟨h.2, h.1⟩

/-! ## Levels and leaves -/

/-- The node `i` lies `b` steps below the root. -/
def AtLevel (b i : ℕ) : Prop :=
  2 ^ b ≤ i + 1 ∧ i + 1 < 2 ^ (b + 1)

theorem AtLevel.left {b i : ℕ} (h : AtLevel b i) : AtLevel (b + 1) (2 * i + 1) := by
  rcases h with ⟨h1, h2⟩
  constructor
  · rw [pow_succ]; omega
  · rw [pow_succ]; omega

theorem AtLevel.right {b i : ℕ} (h : AtLevel b i) : AtLevel (b + 1) (2 * i + 2) := by
  rcases h with ⟨h1, h2⟩
  constructor
  · rw [pow_succ]; omega
  · rw [pow_succ]; omega

theorem AtLevel.zero : AtLevel 0 0 := by
  constructor <;> simp

theorem AtLevel.unique {b c i : ℕ} (h : AtLevel b i) (h' : AtLevel c i) : b = c := by
  have h1 : 2 ^ b < 2 ^ (c + 1) := lt_of_le_of_lt h.1 h'.2
  have h2 : 2 ^ c < 2 ^ (b + 1) := lt_of_le_of_lt h'.1 h.2
  have h3 := (Nat.pow_lt_pow_iff_right (by norm_num : 1 < 2)).mp h1
  have h4 := (Nat.pow_lt_pow_iff_right (by norm_num : 1 < 2)).mp h2
  omega

/-- The position of the first leaf of node `i` among the leaves at level `d`. -/
def start (d b i : ℕ) : ℕ :=
  (i + 1 - 2 ^ b) * 2 ^ (d - b)

variable {a b c d i j n p : ℕ}

/-- A node below the root is a child, one level below its parent. -/
theorem AtLevel.parent (h : AtLevel (b + 1) i) :
    ∃ p, AtLevel b p ∧ (i = 2 * p + 1 ∨ i = 2 * p + 2) := by
  rcases h with ⟨h1, h2⟩
  rw [pow_succ] at h1 h2
  rw [pow_succ] at h2
  refine ⟨(i - 1) / 2, ⟨by omega, by rw [pow_succ]; omega⟩, by omega⟩

theorem AtLevel.eq_zero (h : AtLevel 0 i) : i = 0 := by
  have := h.2
  norm_num at this
  omega

theorem start_left (hbd : b < d) : start d (b + 1) (2 * i + 1) = start d b i := by
  unfold start
  have hpow : 2 ^ (d - b) = 2 * 2 ^ (d - (b + 1)) := by
    rw [← pow_succ']
    congr 1
    omega
  rw [hpow, pow_succ, show 2 * i + 1 + 1 - 2 ^ b * 2 = (i + 1 - 2 ^ b) * 2 by omega]
  ring

theorem start_right (hi : AtLevel b i) (hbd : b < d) :
    start d (b + 1) (2 * i + 2) = start d b i + 2 ^ (d - (b + 1)) := by
  rw [← start_left hbd]
  unfold start
  have h1 := hi.1
  have hpos : 2 * i + 2 + 1 - 2 ^ (b + 1) = (2 * i + 1 + 1 - 2 ^ (b + 1)) + 1 := by
    rw [pow_succ]
    omega
  rw [hpos]
  ring

theorem two_pow_sub (hbd : b < d) : 2 ^ (d - b) = 2 ^ (d - (b + 1)) + 2 ^ (d - (b + 1)) := by
  rw [← two_mul, ← pow_succ']
  congr 1
  omega

theorem AtLevel.of_child (h : AtLevel c i) (hij : i = 2 * j + 1 ∨ i = 2 * j + 2) :
    ∃ b, c = b + 1 ∧ AtLevel b j := by
  cases c with
  | zero =>
    have := h.eq_zero
    omega
  | succ b =>
    rcases h.parent with ⟨p, hp, hpi⟩
    exact ⟨b, rfl, by rwa [show j = p by omega]⟩

/-- The leaves of a descendant are among the leaves of the node. -/
theorem Below.start_le (h : Below a i) (ha : AtLevel b a) (hi : AtLevel c i) (hcd : c ≤ d) :
    b ≤ c ∧ start d b a ≤ start d c i ∧
      start d c i + 2 ^ (d - c) ≤ start d b a + 2 ^ (d - b) := by
  -- every step down the path halves the range of leaves
  induction h generalizing c with
  | refl =>
    rcases ha.unique hi with rfl
    exact ⟨le_refl _, le_refl _, le_refl _⟩
  | @left j _ ih =>
    rcases hi.of_child (.inl rfl) with ⟨e, rfl, hj⟩
    rcases ih hj (by omega) with ⟨h1, h2, h3⟩
    have hhalf := two_pow_sub (show e < d by omega)
    have hpos := Nat.two_pow_pos (d - (e + 1))
    rw [start_left (by omega)]
    refine ⟨by omega, h2, by omega⟩
  | @right j _ ih =>
    rcases hi.of_child (.inr rfl) with ⟨e, rfl, hj⟩
    rcases ih hj (by omega) with ⟨h1, h2, h3⟩
    have hhalf := two_pow_sub (show e < d by omega)
    have hpos := Nat.two_pow_pos (d - (e + 1))
    rw [start_right hj (by omega)]
    refine ⟨by omega, by omega, by omega⟩

/-- Every node has an ancestor on every level above it. -/
theorem AtLevel.exists_above (hi : AtLevel c i) (hbc : b ≤ c) : ∃ a, AtLevel b a ∧ Below a i := by
  induction c generalizing i with
  | zero =>
    obtain rfl : b = 0 := by omega
    exact ⟨i, hi, .refl⟩
  | succ c ih =>
    rcases Nat.lt_or_ge c b with hb | hb
    · obtain rfl : b = c + 1 := by omega
      exact ⟨i, hi, .refl⟩
    · rcases hi.parent with ⟨p, hp, hpi⟩
      rcases ih hp hb with ⟨a, ha, hap⟩
      rcases hpi with rfl | rfl
      · exact ⟨a, ha, hap.left⟩
      · exact ⟨a, ha, hap.right⟩

/-- Different nodes of one level have different leaves. -/
theorem start_disjoint_of_ne (ha : AtLevel b a) (hi : AtLevel b i) (hne : a ≠ i) :
    start d b a + 2 ^ (d - b) ≤ start d b i ∨ start d b i + 2 ^ (d - b) ≤ start d b a := by
  have hmul : ∀ {x y : ℕ}, x + 1 - 2 ^ b + 1 ≤ y + 1 - 2 ^ b →
      start d b x + 2 ^ (d - b) ≤ start d b y := by
    intro x y hxy
    unfold start
    calc (x + 1 - 2 ^ b) * 2 ^ (d - b) + 2 ^ (d - b)
        = (x + 1 - 2 ^ b + 1) * 2 ^ (d - b) := by ring
      _ ≤ (y + 1 - 2 ^ b) * 2 ^ (d - b) := Nat.mul_le_mul_right _ hxy
  have h1 := ha.1
  have h2 := hi.1
  rcases Nat.lt_or_gt_of_ne hne with h | h
  · exact .inl (hmul (by omega))
  · exact .inr (hmul (by omega))

/-- A node of a lower level that does not start before `i` and is not below it starts behind
it. -/
theorem start_add_le_of_not_below (hi : AtLevel b i) (hj : AtLevel c j) (hbc : b ≤ c) (hcd : c ≤ d)
    (hle : start d b i ≤ start d c j) (hnot : ¬ Below i j) :
    start d b i + 2 ^ (d - b) ≤ start d c j := by
  rcases hj.exists_above hbc with ⟨a, ha, haj⟩
  have hne : i ≠ a := by
    rintro rfl
    exact hnot haj
  have hin := haj.start_le ha hj hcd
  have hpos := Nat.two_pow_pos (d - c)
  rcases start_disjoint_of_ne (d := d) hi ha hne with hd | hd
  · omega
  · omega

/-- A proper descendant lies on a lower level. -/
theorem Below.level_lt (h : Below a i) (ha : AtLevel b a) (hi : AtLevel c i) (hne : a ≠ i) :
    b < c := by
  have hle := h.start_le (d := c) ha hi le_rfl
  rcases Nat.lt_or_eq_of_le hle.1 with hlt | heq
  · exact hlt
  · -- two nodes of one level have no leaf in common
    subst heq
    have hpos := Nat.two_pow_pos (b - b)
    rcases start_disjoint_of_ne (d := b) ha hi hne with hd | hd
    · omega
    · omega

/-- A descendant starts where the node starts, or at least its own width behind that. -/
theorem Below.start_add_le (h : Below a i) (ha : AtLevel b a) (hi : AtLevel c i) (hcd : c ≤ d)
    (hne : start d b a ≠ start d c i) : start d b a + 2 ^ (d - c) ≤ start d c i := by
  have hle := h.start_le ha hi hcd
  have hlt : start d b a < start d c i := lt_of_le_of_ne hle.2.1 hne
  -- both starts are multiples of the width
  have hwidth : 2 ^ (d - c) ∣ 2 ^ (d - b) := Nat.pow_dvd_pow 2 (by omega)
  rcases hwidth.mul_left (a + 1 - 2 ^ b) with ⟨x, hx⟩
  have hx : start d b a = 2 ^ (d - c) * x := hx
  have hy : start d c i = 2 ^ (d - c) * (i + 1 - 2 ^ c) := Nat.mul_comm _ _
  rw [hx, hy] at hlt ⊢
  have hxy : x + 1 ≤ i + 1 - 2 ^ c := Nat.lt_of_mul_lt_mul_left hlt
  calc 2 ^ (d - c) * x + 2 ^ (d - c) = 2 ^ (d - c) * (x + 1) := by ring
    _ ≤ 2 ^ (d - c) * (i + 1 - 2 ^ c) := Nat.mul_le_mul_left _ hxy

/-- Nodes that are apart have disjoint ranges of leaves. -/
theorem Apart.start_disjoint (h : Apart i j) (hi : AtLevel b i) (hj : AtLevel c j)
    (hbd : b ≤ d) (hcd : c ≤ d) :
    start d b i + 2 ^ (d - b) ≤ start d c j ∨ start d c j + 2 ^ (d - c) ≤ start d b i := by
  -- compare the higher node with the ancestor of the other on its level
  rcases Nat.le_total b c with hbc | hbc
  · rcases hj.exists_above hbc with ⟨a, ha, haj⟩
    have hne : i ≠ a := by
      rintro rfl
      exact h.1 haj
    have hin := haj.start_le ha hj hcd
    rcases start_disjoint_of_ne (d := d) hi ha hne with h | h
    · exact .inl (by omega)
    · exact .inr (by omega)
  · rcases hi.exists_above hbc with ⟨a, ha, hai⟩
    have hne : a ≠ j := by
      rintro rfl
      exact h.2 hai
    have hin := hai.start_le ha hi hbd
    rcases start_disjoint_of_ne (d := d) ha hj hne with h | h
    · exact .inl (by omega)
    · exact .inr (by omega)

/-! ## Marks -/

/-- The marked nodes are exactly the ancestors of the nodes in `L`, and the nodes in
`L` are pairwise apart. -/
structure Exact (M : ℕ → Prop) (L : Set ℕ) : Prop where
  mark_iff : ∀ i, M i ↔ ∃ n ∈ L, Below i n
  apart : ∀ m ∈ L, ∀ n ∈ L, m ≠ n → Apart m n

/-- `i` and `s` are the two children of `p`. -/
def Siblings (i s p : ℕ) : Prop :=
  i = 2 * p + 1 ∧ s = 2 * p + 2 ∨ i = 2 * p + 2 ∧ s = 2 * p + 1

namespace Siblings

variable {s : ℕ}

section

variable (h : Siblings i s p)
include h

theorem below_iff : Below a i ↔ a = i ∨ Below a p := by
  rcases h with ⟨rfl, rfl⟩ | ⟨rfl, rfl⟩
  · exact Below.left_iff
  · exact Below.right_iff

theorem symm : Siblings s i p := by
  rcases h with ⟨rfl, rfl⟩ | ⟨rfl, rfl⟩
  · exact .inr ⟨rfl, rfl⟩
  · exact .inl ⟨rfl, rfl⟩

theorem parent_below : Below p i :=
  h.below_iff.mpr (.inr .refl)

theorem lt : p < i := by
  rcases h with ⟨rfl, rfl⟩ | ⟨rfl, rfl⟩ <;> omega

/-- What lies below the parent is the parent or lies below one of the two. -/
theorem cases_below (hn : Below p n) : p = n ∨ Below i n ∨ Below s n := by
  rcases h with ⟨rfl, rfl⟩ | ⟨rfl, rfl⟩
  · exact hn.child
  · rcases hn.child with h | h | h
    · exact .inl h
    · exact .inr (.inr h)
    · exact .inr (.inl h)

/-- A node above `i` is also above its sibling, so a node that is apart from something
below the sibling and lies higher than `i` is apart from everything below `i`. -/
theorem apart_of_higher {e m w : ℕ} (hi : AtLevel c i) (hn : AtLevel b n) (hw : AtLevel e w)
    (hin : Below i n) (hsm : Below s m) (hlt : e < c) (hap : Apart m w) : Apart n w := by
  have hcb := (hin.start_le (d := b) hi hn le_rfl).1
  constructor
  · intro hnw
    have hbe := (hnw.start_le (d := e) hn hw le_rfl).1
    omega
  · intro hwn
    rcases hwn.comparable hin with hwi | hiw
    · rcases h.below_iff.mp hwi with rfl | hwp
      · have := hi.unique hw
        omega
      · have hws : Below w s := h.symm.below_iff.mpr (.inr hwp)
        exact hap.2 (hws.trans hsm)
    · have hce := (hiw.start_le (d := e) hi hw le_rfl).1
      omega

theorem not_below : ¬ Below s i := by
  intro hs
  rcases h.below_iff.mp hs with heq | hp
  · rcases h with ⟨rfl, rfl⟩ | ⟨rfl, rfl⟩ <;> omega
  · have h1 := hp.le
    have h2 := h.symm.lt
    omega

end

end Siblings

namespace Exact

variable {M M' : ℕ → Prop} {L : Set ℕ} {s : ℕ}

theorem empty (h : ∀ i, ¬ M i) : Exact M ∅ :=
  ⟨fun i => by simp [h i], by simp⟩

/-- A set of blocks determines the marks. -/
theorem unique (h : Exact M L) (h' : Exact M' L) (i : ℕ) : M i ↔ M' i := by
  rw [h.mark_iff, h'.mark_iff]

/-- A node with a marked child is no block. -/
theorem not_mem_of_child (h : Exact M L) (hc : M (2 * i + 1) ∨ M (2 * i + 2)) : i ∉ L := by
  intro hi
  obtain ⟨n, hn, hlt, hbelow⟩ : ∃ n ∈ L, i < n ∧ Below i n := by
    rcases hc with hc | hc
    · rcases (h.mark_iff _).mp hc with ⟨n, hn, hb⟩
      exact ⟨n, hn, by have := hb.le; omega, Below.refl.left.trans hb⟩
    · rcases (h.mark_iff _).mp hc with ⟨n, hn, hb⟩
      exact ⟨n, hn, by have := hb.le; omega, Below.refl.right.trans hb⟩
  exact (h.apart i hi n hn (by omega)).1 hbelow

/-- A proper ancestor of a block has a marked child. -/
theorem child_marked (h : Exact M L) (hn : n ∈ L) (hb : Below i n) (hne : i ≠ n) :
    M (2 * i + 1) ∨ M (2 * i + 2) := by
  rcases hb.child with rfl | hb | hb
  · exact absurd rfl hne
  · exact .inl ((h.mark_iff _).mpr ⟨n, hn, hb⟩)
  · exact .inr ((h.mark_iff _).mpr ⟨n, hn, hb⟩)

/-- An unmarked node with no block above it is apart from all blocks. -/
theorem apart_of_unmarked (h : Exact M L) (hi : ¬ M i)
    (habove : ∀ a, Below a i → a ≠ i → a ∉ L) : ∀ m ∈ L, Apart m i := by
  intro m hm
  have hdown : ¬ Below i m := fun hb => hi ((h.mark_iff i).mpr ⟨m, hm, hb⟩)
  refine ⟨fun hb => ?_, hdown⟩
  by_cases hmi : m = i
  · subst hmi
    exact hdown .refl
  · exact habove m hb hmi hm

/-- Marking a node and everything above it adds a block. -/
theorem add (h : Exact M L) (hM : ∀ j, M' j ↔ M j ∨ Below j i)
    (hi : ∀ m ∈ L, Apart m i) : Exact M' (insert i L) := by
  constructor
  · intro j
    rw [hM, h.mark_iff]
    constructor
    · rintro (⟨n, hn, hb⟩ | hb)
      · exact ⟨n, .inr hn, hb⟩
      · exact ⟨i, .inl rfl, hb⟩
    · rintro ⟨n, rfl | hn, hb⟩
      · exact .inr hb
      · exact .inl ⟨n, hn, hb⟩
  · rintro m (rfl | hm) n (rfl | hn) hne
    · exact absurd rfl hne
    · exact (hi n hn).symm
    · exact hi m hm
    · exact h.apart m hm n hn hne

theorem apart_rest (h : Exact M (insert i L)) (hi : i ∉ L) : ∀ m ∈ L, Apart m i := by
  intro m hm
  refine h.apart m (.inr hm) i (.inl rfl) ?_
  rintro rfl
  exact hi hm

/-- Marking a child of a block shrinks the block to the child. -/
theorem shrink (h : Exact M (insert p L)) (hp : p ∉ L) (hs : Siblings i s p)
    (hM : ∀ j, M' j ↔ j = i ∨ M j) : Exact M' (insert i L) ∧ i ∉ L := by
  have hap := h.apart_rest hp
  have hi : ∀ m ∈ L, Apart m i := by
    intro m hm
    refine ⟨fun hb => ?_, fun hb => (hap m hm).2 (hs.parent_below.trans hb)⟩
    rcases hs.below_iff.mp hb with rfl | hb
    · exact (hap m hm).2 hs.parent_below
    · exact (hap m hm).1 hb
  refine ⟨⟨fun j => ?_, ?_⟩, fun hL => (hi i hL).1 .refl⟩
  · -- the child is marked, and all that is above it was
    rw [hM, h.mark_iff]
    constructor
    · rintro (rfl | ⟨n, rfl | hn, hb⟩)
      · exact ⟨j, .inl rfl, .refl⟩
      · exact ⟨i, .inl rfl, hb.trans hs.parent_below⟩
      · exact ⟨n, .inr hn, hb⟩
    · rintro ⟨n, rfl | hn, hb⟩
      · rcases hs.below_iff.mp hb with rfl | hb
        · exact .inl rfl
        · exact .inr ⟨p, .inl rfl, hb⟩
      · exact .inr ⟨n, .inr hn, hb⟩
  · rintro m (rfl | hm) n (rfl | hn) hne
    · exact absurd rfl hne
    · exact (hi n hn).symm
    · exact hi m hm
    · exact h.apart m (.inr hm) n (.inr hn) hne

/-- Unmarking a block whose sibling is free leaves the parent as the block. -/
theorem unmark_up (h : Exact M (insert i L)) (hi : i ∉ L) (hs : Siblings i s p) (hfree : ¬ M s)
    (hM : ∀ j, M' j ↔ j ≠ i ∧ M j) : Exact M' (insert p L) ∧ p ∉ L := by
  have hap := h.apart_rest hi
  have hp : ∀ m ∈ L, Apart m p := by
    intro m hm
    refine ⟨fun hb => (hap m hm).1 (hb.trans hs.parent_below), fun hb => ?_⟩
    rcases hs.cases_below hb with rfl | hb | hb
    · exact (hap p hm).1 hs.parent_below
    · exact (hap m hm).2 hb
    · exact hfree ((h.mark_iff s).mpr ⟨m, .inr hm, hb⟩)
  refine ⟨⟨fun j => ?_, ?_⟩, fun hL => (hp p hL).1 .refl⟩
  · -- the marks above the block are those above its parent
    rw [hM, h.mark_iff]
    constructor
    · rintro ⟨hne, n, rfl | hn, hb⟩
      · rcases hs.below_iff.mp hb with rfl | hb
        · exact absurd rfl hne
        · exact ⟨p, .inl rfl, hb⟩
      · exact ⟨n, .inr hn, hb⟩
    · rintro ⟨n, rfl | hn, hb⟩
      · have h1 := hb.le
        have h2 := hs.lt
        exact ⟨by omega, i, .inl rfl, hb.trans hs.parent_below⟩
      · refine ⟨?_, n, .inr hn, hb⟩
        rintro rfl
        exact (hap n hn).2 hb
  · rintro m (rfl | hm) n (rfl | hn) hne
    · exact absurd rfl hne
    · exact (hp n hn).symm
    · exact hp m hm
    · exact h.apart m (.inr hm) n (.inr hn) hne

/-- Unmarking the root, or a block whose sibling is in use, removes the block. -/
theorem unmark_stop (h : Exact M (insert i L)) (hi : i ∉ L)
    (hstop : i = 0 ∨ ∃ s p, Siblings i s p ∧ M s) (hM : ∀ j, M' j ↔ j ≠ i ∧ M j) :
    Exact M' L := by
  have hap := h.apart_rest hi
  refine ⟨fun j => ?_, fun m hm n hn => h.apart m (.inr hm) n (.inr hn)⟩
  rw [hM, h.mark_iff]
  constructor
  · rintro ⟨hne, n, rfl | hn, hb⟩
    · -- the other ancestors of the block are ancestors of its sibling
      rcases hstop with rfl | ⟨s, p, hs, hmark⟩
      · exact absurd (Below.zero_iff.mp hb) hne
      · obtain ⟨m, rfl | hm, hsm⟩ := (h.mark_iff s).mp hmark
        · exact absurd hsm hs.not_below
        · have hbp : Below j p := (hs.below_iff.mp hb).resolve_left hne
          exact ⟨m, hm, hbp.trans (hs.symm.parent_below.trans hsm)⟩
    · exact ⟨n, hn, hb⟩
  · rintro ⟨n, hn, hb⟩
    refine ⟨?_, n, .inr hn, hb⟩
    rintro rfl
    exact (hap n hn).2 hb

end Exact

/-! ## Weights -/

section Weight

open Classical

variable {α : Type*} (node w : α → ℕ)

/-- The weight of the items of `l` whose node is `i` or lies below it. -/
noncomputable def weightBelow (l : List α) (i : ℕ) : ℕ :=
  ((l.filter fun x => Below i (node x)).map w).sum

/-- Every item lies below the root. -/
theorem weightBelow_root (l : List α) : weightBelow node w l 0 = (l.map w).sum := by
  unfold weightBelow
  rw [List.filter_eq_self.mpr]
  intro x _
  exact decide_eq_true (Below.root (node x))

theorem weightBelow_eq_zero {l : List α} (h : ∀ x ∈ l, ¬ Below i (node x)) :
    weightBelow node w l i = 0 := by
  unfold weightBelow
  rw [List.filter_eq_nil_iff.mpr]
  · rfl
  · intro x hx hbelow
    exact h x hx (of_decide_eq_true hbelow)

/-- No node lies below both children of `i`. -/
theorem not_below_both (hl : Below (2 * i + 1) n) : ¬ Below (2 * i + 2) n := by
  intro hr
  rcases hl.comparable hr with h | h
  · exact Siblings.not_below (p := i) (.inr ⟨rfl, rfl⟩) h
  · exact Siblings.not_below (p := i) (.inl ⟨rfl, rfl⟩) h

/-- The weight below a node without an item of its own is that below its children. -/
theorem weightBelow_children {l : List α} (h : ∀ x ∈ l, node x ≠ i) :
    weightBelow node w l i =
      weightBelow node w l (2 * i + 1) + weightBelow node w l (2 * i + 2) := by
  unfold weightBelow
  induction l with
  | nil => rfl
  | cons x l ih =>
    have ih := ih fun y hy => h y (List.mem_cons_of_mem x hy)
    have hx : node x ≠ i := h x List.mem_cons_self
    simp only [List.filter_cons]
    -- the item is below one child, or below none
    by_cases hl : Below (2 * i + 1) (node x)
    · have hi : Below i (node x) := Below.refl.left.trans hl
      have hr := not_below_both hl
      simp only [hl, hi, hr, decide_true, decide_false, if_true, List.map_cons, List.sum_cons,
        Bool.false_eq_true, if_false]
      omega
    · by_cases hr : Below (2 * i + 2) (node x)
      · have hi : Below i (node x) := Below.refl.right.trans hr
        simp only [hl, hi, hr, decide_true, decide_false, if_true, List.map_cons, List.sum_cons,
          Bool.false_eq_true, if_false]
        omega
      · have hi : ¬ Below i (node x) := by
          intro hi
          rcases hi.child with heq | hi | hi
          · exact hx heq.symm
          · exact hl hi
          · exact hr hi
        simp only [hl, hi, hr, decide_false, Bool.false_eq_true, if_false]
        exact ih

/-- The weight below a node with an item is the weight of that item, if it is the only one. -/
theorem weightBelow_item {l : List α} {x : α} (hd : l.Nodup) (hx : x ∈ l) (hbelow : Below i (node x))
    (honly : ∀ y ∈ l, Below i (node y) → y = x) : weightBelow node w l i = w x := by
  unfold weightBelow
  have hone : (l.filter fun y => Below i (node y)) = [x] := by
    refine List.perm_singleton.mp ((List.perm_ext_iff_of_nodup (hd.filter _) (by simp)).mpr ?_)
    intro y
    simp only [List.mem_filter, decide_eq_true_eq, List.mem_singleton]
    constructor
    · rintro ⟨hy, hb⟩
      exact honly y hy hb
    · rintro rfl
      exact ⟨hx, hbelow⟩
  rw [hone]
  simp

end Weight

end HeapTree
