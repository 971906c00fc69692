import Mathlib.Tactic
import SysProg.Concurrency.LockFreeList

/-!
# The chain of the lock-free list

* `HeapOk` — the published nodes point to published nodes with larger keys or to the
  tail, and those that are not marked are on the chain from `head`;
* `Change` — what one step can do to the nodes, with the conditions under which the
  algorithm does it;
* `Change.ok`, `Change.keys_eq`, `Change.onChain` — a change keeps `HeapOk`, what it does to
  the set of keys, and that it brings no old node back onto the chain.
-/

namespace SysProg.LockFree

open Orbit

/-- A node with a successor in the list. -/
def Heap.Listed (h : Heap) (x : ℕ) : Prop := x = head ∨ x ∈ h.published

/-- A node that can be a successor. -/
def Heap.Target (h : Heap) (x : ℕ) : Prop := x = tail ∨ x ∈ h.published

structure HeapOk (h : Heap) : Prop where
  bounds : ∀ x ∈ h.published, tail < x ∧ x < h.fresh
  fresh : tail < h.fresh
  tail : h.next tail = ⟨tail, false⟩
  head : (h.next head).marked = false
  target : ∀ x, h.Listed x → h.Target (h.succ x)
  sorted : ∀ x ∈ h.published, h.succ x ∈ h.published → h.key x < h.key (h.succ x)
  chain : ∀ x ∈ h.published, (h.next x).marked = false → OnChain h x

/-- Following published nodes that are all marked leads from `x` to `y`. -/
inductive Dead (h : Heap) (x : ℕ) : ℕ → Prop where
  | refl : Dead h x x
  | snoc {y : ℕ} : Dead h x y → y ∈ h.published → (h.next y).marked = true → Dead h x (h.succ y)

variable {h h' : Heap} {x y left leftNext right : ℕ} {k : ℤ} {link : Link}

/-! ## Consequences -/

namespace HeapOk

variable (ok : HeapOk h)
include ok

theorem ne_tail (hx : x ∈ h.published) : x ≠ LockFree.tail :=
  (ok.bounds x hx).1.ne'

theorem ne_head (hx : x ∈ h.published) : x ≠ LockFree.head := by
  have hgt := (ok.bounds x hx).1
  simp only [LockFree.tail, LockFree.head] at hgt ⊢
  omega

theorem target_ne_head (hx : h.Target x) : x ≠ LockFree.head := by
  rcases hx with rfl | hx
  · decide
  · exact ok.ne_head hx

theorem listed_ne_tail (hx : h.Listed x) : x ≠ LockFree.tail := by
  rcases hx with rfl | hx
  · decide
  · exact ok.ne_tail hx

theorem succ_tail : h.succ LockFree.tail = LockFree.tail := by
  simp [Heap.succ, ok.tail]

/-- Successors of targets are targets. -/
theorem target_of_reaches (hx : h.Target x) (hr : Reaches h.succ x y) : h.Target y := by
  refine hr.invariant ?_ hx
  intro z hz
  rcases hz with rfl | hz
  · rw [ok.succ_tail]
    exact .inl rfl
  · exact ok.target z (.inr hz)

theorem tail_of_reaches_tail (hr : Reaches h.succ LockFree.tail y) : y = LockFree.tail := by
  refine hr.invariant (P := fun z => z = LockFree.tail) ?_ rfl
  intro z hz
  rw [hz, ok.succ_tail]

/-- A node of the chain is a sentinel or published. -/
theorem onChain_cases (hx : OnChain h x) : x = LockFree.head ∨ h.Target x := by
  rcases hx.cases_head with rfl | hx
  · exact .inl rfl
  · exact .inr (ok.target_of_reaches (ok.target _ (.inl rfl)) hx)

section

variable (hx : x ∈ h.published) (hy : y ∈ h.published)
include hx hy

/-- Keys grow along the chain. -/
theorem key_lt (hr : Reaches h.succ (h.succ x) y) : h.key x < h.key y := by
  rcases hr with ⟨i, hi⟩
  induction i generalizing x with
  | zero =>
    have hi : h.succ x = y := hi
    subst hi
    exact ok.sorted x hx hy
  | succ i ih =>
    rw [Function.iterate_succ_apply] at hi
    rcases ok.target x (.inr hx) with htail | hnext
    · -- behind the tail there are no keys
      rw [htail] at hi
      exact absurd (ok.tail_of_reaches_tail ⟨i + 1, hi⟩) (ok.ne_tail hy)
    · exact (ok.sorted x hx hnext).trans (ih hnext hi)

omit hy in
theorem succ_ne : h.succ x ≠ x := by
  intro heq
  have hlt := ok.sorted x hx (heq.symm ▸ hx)
  rw [heq] at hlt
  exact lt_irrefl _ hlt

theorem key_le (hr : Reaches h.succ x y) : h.key x ≤ h.key y := by
  rcases hr.cases_head with rfl | hr
  · exact le_rfl
  · exact (ok.key_lt hx hy hr).le

/-- Two nodes of the chain with the same key are the same. -/
theorem onChain_unique (hcx : OnChain h x) (hcy : OnChain h y) (hkey : h.key x = h.key y) :
    x = y := by
  rcases hcx.comparable hcy with hr | hr
  · rcases hr.cases_head with heq | hr
    · exact heq
    · exact absurd hkey (ok.key_lt hx hy hr).ne
  · rcases hr.cases_head with heq | hr
    · exact heq.symm
    · exact absurd hkey (ok.key_lt hy hx hr).ne'

end

/-- A node with a larger key, or the tail, does not lead back. -/
theorem not_reaches_back (hl : h.Listed left) (hr : h.Target right)
    (hkey : left = LockFree.head ∨ right = LockFree.tail ∨ h.key left < h.key right) :
    ¬ Reaches h.succ right left := by
  intro hback
  rcases hl with rfl | hl
  · exact ok.target_ne_head (ok.target_of_reaches hr hback) rfl
  · rcases hr with rfl | hr
    · exact ok.ne_tail hl (ok.tail_of_reaches_tail hback)
    · have hle := ok.key_le hr hl hback
      rcases hkey with rfl | rfl | hlt
      · exact ok.ne_head hl rfl
      · exact ok.ne_tail hr rfl
      · exact absurd hlt (not_lt.mpr hle)

/-- Every node of the list leads to the tail: the keys on the way grow, and there are
finitely many nodes. -/
theorem reaches_tail (hx : h.Target x) : Reaches h.succ x LockFree.tail := by
  generalize hn : (h.published.toFinset.filter fun y => h.key x < h.key y).card = n
  induction n using Nat.strong_induction_on generalizing x with
  | _ n ih =>
    rcases hx with rfl | hx
    · exact .refl _ _
    · refine (Reaches.step h.succ x).trans ?_
      rcases ok.target x (.inr hx) with htail | hnext
      · rw [htail]
        exact .refl _ _
      · have hlt := ok.sorted x hx hnext
        refine ih _ ?_ (.inr hnext) rfl
        rw [← hn]
        -- the successor itself is no longer among the nodes with larger keys
        refine Finset.card_lt_card ((Finset.ssubset_iff_of_subset ?_).mpr ⟨h.succ x, ?_, ?_⟩)
        · intro y hy
          simp only [Finset.mem_filter] at hy ⊢
          exact ⟨hy.1, hlt.trans hy.2⟩
        · simp [hnext, hlt]
        · simp

/-- The abstract set, as the keys of the unmarked published nodes. -/
theorem mem_keys : k ∈ keys h ↔
    ∃ x ∈ h.published, (h.next x).marked = false ∧ h.key x = k := by
  constructor
  · intro hk
    rcases hk with ⟨x, hx, hhead, htail, hmark, hkey⟩
    rcases ok.onChain_cases hx with heq | heq | hpub
    · exact absurd heq hhead
    · exact absurd heq htail
    · exact ⟨x, hpub, hmark, hkey⟩
  · intro hk
    rcases hk with ⟨x, hx, hmark, hkey⟩
    exact ⟨x, ok.chain x hx hmark, ok.ne_head hx, ok.ne_tail hx, hmark, hkey⟩

/-- Between two adjacent nodes, the first of them unmarked, there is no key. -/
theorem absent_between (hl : h.Listed left) (hnext : h.next left = ⟨right, false⟩)
    (hleft : left = LockFree.head ∨ h.key left < k)
    (hright : right = LockFree.tail ∨ right ∈ h.published ∧ k < h.key right) : k ∉ keys h := by
  intro hk
  rcases ok.mem_keys.mp hk with ⟨x, hx, hmark, rfl⟩
  have hsucc : h.succ left = right := by simp [Heap.succ, hnext]
  have hcleft : OnChain h left := by
    rcases hl with rfl | hl
    · exact .refl _ _
    · exact ok.chain left hl (by rw [hnext])
  rcases hcleft.comparable (ok.chain x hx hmark) with hr | hr
  · -- `x` would be behind `right`
    rcases hr.cases_head with rfl | hr
    · rcases hleft with hhead | hlt
      · exact ok.ne_head hx hhead
      · exact lt_irrefl _ hlt
    · rw [hsucc] at hr
      rcases hright with rfl | ⟨hpub, hlt⟩
      · exact ok.ne_tail hx (ok.tail_of_reaches_tail hr)
      · exact absurd hlt (not_lt.mpr (ok.key_le hpub hx hr))
  · -- `x` would be before `left`
    rcases hleft with rfl | hlt
    · exact ok.target_ne_head (ok.target_of_reaches (.inr hx) hr) rfl
    · rcases hl with rfl | hl
      · exact ok.target_ne_head (ok.target_of_reaches (.inr hx) hr) rfl
      · exact absurd hlt (not_lt.mpr (ok.key_le hx hl hr))

end HeapOk

/-! ## Marked nodes -/

/-- From the start of a path of marked nodes, everything behind it is marked or reached
from its end. -/
theorem Dead.reaches (hd : Dead h x y) {z : ℕ} (hr : Reaches h.succ x z) :
    z ∈ h.published ∧ (h.next z).marked = true ∨ Reaches h.succ y z := by
  induction hd with
  | refl => exact .inr hr
  | snoc _ hpub hmark ih =>
    rcases ih with hz | hz
    · exact .inl hz
    · rcases hz.cases_head with rfl | hz
      · exact .inl ⟨hpub, hmark⟩
      · exact .inr hz

theorem Dead.reaches_end (hd : Dead h x y) : Reaches h.succ x y := by
  induction hd with
  | refl => exact .refl _ _
  | @snoc y _ _ _ ih => exact ih.trans (.step h.succ y)

/-- The first node of a path of marked nodes, unless the path is empty. -/
theorem Dead.first (hd : Dead h x y) (hne : x ≠ y) :
    x ∈ h.published ∧ (h.next x).marked = true := by
  induction hd with
  | refl => exact absurd rfl hne
  | @snoc y _ hpub hmark ih =>
    by_cases hxy : x = y
    · subst hxy
      exact ⟨hpub, hmark⟩
    · exact ih hxy

/-! ## Changes of the heap -/

/-- The new node `x` can be set between the adjacent nodes `left` and `right`. -/
structure Insertion (h : Heap) (x left right : ℕ) : Prop where
  unpublished : x ∉ h.published
  gt : tail < x
  lt : x < h.fresh
  next : h.next x = ⟨right, false⟩
  listed : h.Listed left
  link : h.next left = ⟨right, false⟩
  before : left = head ∨ h.key left < h.key x
  behind : right = tail ∨ right ∈ h.published ∧ h.key x < h.key right

/-- Between `left` and `right` there are only marked nodes. -/
structure Unlinking (h : Heap) (left leftNext right : ℕ) : Prop where
  listed : h.Listed left
  link : h.next left = ⟨leftNext, false⟩
  dead : Dead h leftNext right
  target : h.Target right
  before : left = head ∨ right = tail ∨ h.key left < h.key right

/-- What a step can do to the nodes. The index is the unpublished node it uses, if any. -/
inductive Change (h : Heap) : Option ℕ → Heap → Prop where
  | none : Change h none h
  | create (k : ℤ) : Change h none (h.create k)
  | store (x : ℕ) (link : Link) : x ∉ h.published → tail < x → Change h (some x) (h.store x link)
  | insert (x left right : ℕ) : Insertion h x left right →
      Change h (some x) ((h.store left ⟨x, false⟩).publish x)
  | unlink (left leftNext right : ℕ) : Unlinking h left leftNext right →
      Change h none (h.store left ⟨right, false⟩)
  | mark (x y : ℕ) : x ∈ h.published → h.next x = ⟨y, false⟩ → Change h none (h.store x ⟨y, true⟩)

@[simp] theorem store_published : (h.store x link).published = h.published := rfl

@[simp] theorem store_next : (h.store x link).next y = if y = x then link else h.next y := by
  unfold Heap.store Heap.next
  by_cases hy : y = x
  · subst hy
    simp
  · simp [hy]

@[simp] theorem store_key : (h.store x link).key y = h.key y := by
  unfold Heap.store Heap.key
  by_cases hy : y = x
  · subst hy
    simp
  · simp [hy]

theorem store_succ : (h.store x link).succ = Function.update h.succ x link.ptr := by
  funext y
  by_cases hy : y = x
  · subst hy
    simp [Heap.succ]
  · simp [Heap.succ, hy]

/-- A link is replaced by one with the same mark. -/
theorem store_marked (hmark : (h.next x).marked = link.marked) :
    ((h.store x link).next y).marked = (h.next y).marked := by
  rw [store_next]
  split
  · rename_i heq
    rw [heq, hmark]
  · rfl

/-- A store to a node without a mark leaves the marked nodes alone. -/
theorem store_frozen (hx : (h.next x).marked = false) (hy : (h.next y).marked = true) :
    (h.store x link).next y = h.next y := by
  rw [store_next, if_neg]
  rintro rfl
  rw [hx] at hy
  cases hy

@[simp] theorem publish_next : (h.publish x).next = h.next := rfl
@[simp] theorem publish_key : (h.publish x).key = h.key := rfl
@[simp] theorem publish_published : (h.publish x).published = x :: h.published := rfl

theorem create_node (hy : y ≠ h.fresh) : (h.create k).node y = h.node y := by
  simp [Heap.create, hy]

/-! ### Unpublished nodes -/

namespace HeapOk

variable (ok : HeapOk h)
include ok

section

variable (hx : x ∉ h.published) (hgt : LockFree.tail < x)
include hx hgt

/-- Changing a node that is not published does not change the chain. -/
theorem onChain_iff_of_unpublished (hsucc : ∀ y, y ≠ x → h'.succ y = h.succ y) :
    OnChain h' y ↔ OnChain h y := by
  refine Reaches.congr_iff ?_
  intro z hz
  refine hsucc z ?_
  rintro rfl
  rcases ok.onChain_cases hz with heq | heq | hpub
  · subst heq
    exact absurd hgt (by decide)
  · exact hgt.ne' heq
  · exact hx hpub

/-- A heap with the same published nodes, in which only an unpublished node differs. -/
theorem of_unpublished (hnode : ∀ y, y ≠ x → h'.node y = h.node y)
    (hpub : h'.published = h.published) (hfresh : h.fresh ≤ h'.fresh) : HeapOk h' := by
  -- no listed node leads to `x`
  have hnext : ∀ y, y ≠ x → h'.next y = h.next y := fun y hy => by simp [Heap.next, hnode y hy]
  have hkey : ∀ y, y ≠ x → h'.key y = h.key y := fun y hy => by simp [Heap.key, hnode y hy]
  have hsucc : ∀ y, y ≠ x → h'.succ y = h.succ y := fun y hy => by simp [Heap.succ, hnext y hy]
  have hne : ∀ y ∈ h.published, y ≠ x := fun y hy heq => hx (heq ▸ hy)
  have hhead : LockFree.head ≠ x := by
    rintro rfl
    exact absurd hgt (by decide)
  refine ⟨?_, ok.fresh.trans_le hfresh, ?_, ?_, ?_, ?_, ?_⟩
  · intro y hy
    rw [hpub] at hy
    exact ⟨(ok.bounds y hy).1, (ok.bounds y hy).2.trans_le hfresh⟩
  · rw [hnext _ hgt.ne]
    exact ok.tail
  · rw [hnext _ hhead]
    exact ok.head
  · intro y hy
    unfold Heap.Listed at hy
    unfold Heap.Target
    rw [hpub] at hy ⊢
    have hyx : y ≠ x := by
      rcases hy with rfl | hy
      · exact hhead
      · exact hne y hy
    rw [hsucc y hyx]
    exact ok.target y hy
  · intro y hy hsy
    rw [hpub] at hy hsy
    rw [hsucc y (hne y hy)] at hsy ⊢
    rw [hkey y (hne y hy), hkey _ (hne _ hsy)]
    exact ok.sorted y hy hsy
  · intro y hy hmark
    rw [hpub] at hy
    rw [hnext y (hne y hy)] at hmark
    rw [ok.onChain_iff_of_unpublished hx hgt hsucc]
    exact ok.chain y hy hmark

theorem keys_of_unpublished (hnode : ∀ y, y ≠ x → h'.node y = h.node y)
    (hpub : h'.published = h.published) (hfresh : h.fresh ≤ h'.fresh) : keys h' = keys h := by
  have ok' := ok.of_unpublished hx hgt hnode hpub hfresh
  ext k
  rw [ok'.mem_keys, ok.mem_keys, hpub]
  refine exists_congr fun y => and_congr_right fun hy => ?_
  have hyx : y ≠ x := fun heq => hx (heq ▸ hy)
  simp [Heap.next, Heap.key, hnode y hyx]

end

theorem fresh_unpublished : h.fresh ∉ h.published := by
  intro hmem
  exact lt_irrefl _ (ok.bounds _ hmem).2

/-- Unmarked nodes of the list are on the chain. -/
theorem onChain_of_listed (hl : h.Listed left) (hmark : (h.next left).marked = false) :
    OnChain h left := by
  rcases hl with rfl | hl
  · exact .refl _ _
  · exact ok.chain left hl hmark

end HeapOk

/-! ### Insertion -/

namespace Insertion

variable (ins : Insertion h x left right)
include ins

theorem ne : x ≠ left := by
  rintro rfl
  rcases ins.listed with heq | hl
  · have hgt := ins.gt
    rw [heq] at hgt
    exact absurd hgt (by decide)
  · exact ins.unpublished hl

omit ins in
theorem succ_eq : ((h.store left ⟨x, false⟩).publish x).succ = Function.update h.succ left x :=
  store_succ

/-- The node itself comes onto the chain, no other node does, and none goes. -/
theorem onChain_iff (ok : HeapOk h) :
    OnChain ((h.store left ⟨x, false⟩).publish x) y ↔ OnChain h y ∨ y = x := by
  have hsx : h.succ x = right := by simp [Heap.succ, ins.next]
  have hsl : h.succ left = right := by simp [Heap.succ, ins.link]
  have hleft : OnChain h left := ok.onChain_of_listed ins.listed (by rw [ins.link])
  have hstep : ∀ z, z ≠ left → Function.update h.succ left x z = h.succ z :=
    fun z hz => Function.update_of_ne hz _ _
  unfold OnChain
  rw [succ_eq]
  constructor
  · intro hy
    -- along the new chain, every node is an old one or `x`
    refine hy.invariant (P := fun z => Reaches h.succ head z ∨ z = x) ?_ (.inl (.refl _ _))
    intro z hz
    by_cases hzl : z = left
    · subst hzl
      rw [Function.update_self]
      exact .inr rfl
    · rw [hstep z hzl]
      rcases hz with hz | rfl
      · exact .inl (hz.trans (.step _ z))
      · -- behind the new node the chain goes on as it did behind `left`
        rw [hsx, ← hsl]
        exact .inl (hleft.trans (.step _ left))
  · -- a step of the old chain is one or two steps of the new one
    have hforward : ∀ z, Reaches (Function.update h.succ left x) z (h.succ z) := by
      intro z
      by_cases hzl : z = left
      · subst hzl
        have h1 := Reaches.step (Function.update h.succ z x) z
        have h2 := Reaches.step (Function.update h.succ z x) x
        rw [Function.update_self] at h1
        rw [hstep x ins.ne, hsx, ← hsl] at h2
        exact h1.trans h2
      · have h1 := Reaches.step (Function.update h.succ left x) z
        rwa [hstep z hzl] at h1
    intro hy
    rcases hy with hy | rfl
    · exact hy.simulate hforward
    · have h1 := Reaches.step (Function.update h.succ left y) left
      rw [Function.update_self] at h1
      exact (hleft.simulate hforward).trans h1

theorem succ_new : h.succ x = right := by simp [Heap.succ, ins.next]

theorem marked_eq :
    (((h.store left ⟨x, false⟩).publish x).next y).marked = (h.next y).marked :=
  store_marked (by rw [ins.link])

/-- The new links lead to nodes of the list. -/
theorem target (ok : HeapOk h) (hy : ((h.store left ⟨x, false⟩).publish x).Listed y) :
    ((h.store left ⟨x, false⟩).publish x).Target (((h.store left ⟨x, false⟩).publish x).succ y) := by
  rw [succ_eq]
  by_cases hyl : y = left
  · subst hyl
    rw [Function.update_self]
    exact .inr List.mem_cons_self
  · rw [Function.update_of_ne hyl]
    have htarget : h.Target (h.succ y) := by
      by_cases hyx : y = x
      · subst hyx
        rw [ins.succ_new]
        rcases ins.behind with hr | hr
        · exact .inl hr
        · exact .inr hr.1
      · refine ok.target y ?_
        rcases hy with hy | hy
        · exact .inl hy
        · exact .inr ((List.mem_cons.mp hy).resolve_left hyx)
    rcases htarget with ht | ht
    · exact .inl ht
    · exact .inr (List.mem_cons_of_mem _ ht)

/-- The keys increase along the links of `left`, of the new node and of the others. -/
theorem sorted (ok : HeapOk h) (hy : y = x ∨ y ∈ h.published)
    (hsy : Function.update h.succ left x y = x ∨ Function.update h.succ left x y ∈ h.published) :
    h.key y < h.key (Function.update h.succ left x y) := by
  by_cases hyl : y = left
  · subst hyl
    rw [Function.update_self]
    -- `left` and the new node
    rcases ins.before with hhead | hlt
    · rcases hy with hy | hy
      · exact absurd hy.symm ins.ne
      · exact absurd hhead (ok.ne_head hy)
    · exact hlt
  · rw [Function.update_of_ne hyl] at hsy ⊢
    rcases hy with rfl | hy
    · -- the new node and `right`
      rw [ins.succ_new] at hsy ⊢
      rcases ins.behind with hr | hr
      · rcases hsy with hsy | hsy
        · exact absurd (hsy ▸ hr) ins.gt.ne'
        · exact absurd hr (ok.ne_tail hsy)
      · exact hr.2
    · rcases hsy with hsy | hsy
      · -- no old node points to the new one
        rcases ok.target y (.inr hy) with ht | ht
        · exact absurd (hsy ▸ ht) ins.gt.ne'
        · exact absurd (hsy ▸ ht) ins.unpublished
      · exact ok.sorted y hy hsy

theorem ok (ok : HeapOk h) : HeapOk ((h.store left ⟨x, false⟩).publish x) := by
  have htail : LockFree.tail ≠ left := (ok.listed_ne_tail ins.listed).symm
  refine ⟨?_, ok.fresh, ?_, ?_, fun y hy => ins.target ok hy, ?_, ?_⟩
  · intro y hy
    rcases List.mem_cons.mp hy with rfl | hy
    · exact ⟨ins.gt, ins.lt⟩
    · exact ok.bounds y hy
  · simp [htail, ok.tail]
  · rw [ins.marked_eq]
    exact ok.head
  · intro y hy hsy
    rw [succ_eq] at hsy ⊢
    simp only [publish_key, store_key, publish_published, store_published, List.mem_cons] at hy hsy ⊢
    exact ins.sorted ok hy hsy
  · intro y hy hmark
    rw [ins.onChain_iff ok]
    rcases List.mem_cons.mp hy with rfl | hy
    · exact .inr rfl
    · left
      rw [ins.marked_eq] at hmark
      exact ok.onChain_of_listed (.inr hy) hmark

/-- The key of the new node was absent and is added. -/
theorem keys_eq (ok : HeapOk h) : h.key x ∉ keys h ∧
    keys ((h.store left ⟨x, false⟩).publish x) = insert (h.key x) (keys h) := by
  refine ⟨ok.absent_between ins.listed ins.link ins.before ins.behind, ?_⟩
  ext k
  rw [(ins.ok ok).mem_keys, Set.mem_insert_iff, ok.mem_keys]
  simp only [ins.marked_eq, publish_key, store_key, publish_published, store_published, List.mem_cons,
    exists_eq_or_imp, ins.next, true_and]
  rw [eq_comm]

end Insertion

/-! ### Unlinking -/

namespace Unlinking

variable (unl : Unlinking h left leftNext right)
include unl

theorem marked_eq : ((h.store left ⟨right, false⟩).next y).marked = (h.next y).marked :=
  store_marked (by rw [unl.link])

/-- No node comes onto the chain. -/
theorem onChain_of (hy : OnChain (h.store left ⟨right, false⟩) y) : OnChain h y := by
  unfold OnChain at hy
  rw [store_succ] at hy
  refine hy.simulate ?_
  intro z
  by_cases hzl : z = left
  · subst hzl
    have hstep := Reaches.step h.succ z
    have hsucc : h.succ z = leftNext := by simp [Heap.succ, unl.link]
    -- from `left` the old chain goes through the dead nodes
    rw [hsucc] at hstep
    rw [Function.update_self]
    exact hstep.trans unl.dead.reaches_end
  · rw [Function.update_of_ne hzl]
    exact .step h.succ z

/-- Only marked nodes go from the chain. -/
theorem onChain_unmarked (ok : HeapOk h) (hy : OnChain h y) (hmark : (h.next y).marked = false) :
    OnChain (h.store left ⟨right, false⟩) y := by
  unfold OnChain
  rw [store_succ]
  refine hy.skip (ok.not_reaches_back unl.listed unl.target unl.before) ?_
  have hsucc : h.succ left = leftNext := by simp [Heap.succ, unl.link]
  rw [hsucc]
  intro hr
  rcases unl.dead.reaches hr with ⟨-, hdead⟩ | hr
  · rw [hmark] at hdead
    cases hdead
  · exact hr

theorem ok (ok : HeapOk h) : HeapOk (h.store left ⟨right, false⟩) := by
  have htail : tail ≠ left := (ok.listed_ne_tail unl.listed).symm
  refine ⟨ok.bounds, ok.fresh, ?_, ?_, ?_, ?_, ?_⟩
  · rw [store_next, if_neg htail]
    exact ok.tail
  · rw [unl.marked_eq]
    exact ok.head
  · intro y hy
    rw [store_succ, Function.update_apply]
    split
    · exact unl.target
    · exact ok.target y hy
  · intro y hy hsy
    have hy : y ∈ h.published := hy
    rw [store_succ] at hsy ⊢
    rw [store_key, store_key]
    by_cases hyl : y = left
    · subst hyl
      rw [Function.update_self] at hsy ⊢
      -- the removed node was between them
      rcases unl.before with heq | heq | hlt
      · exact absurd heq (ok.ne_head hy)
      · exact absurd heq (ok.ne_tail hsy)
      · exact hlt
    · rw [Function.update_of_ne hyl] at hsy ⊢
      exact ok.sorted y hy hsy
  · intro y hy hmark
    rw [unl.marked_eq] at hmark
    exact unl.onChain_unmarked ok (ok.chain y hy hmark) hmark

theorem keys_eq (ok : HeapOk h) : keys (h.store left ⟨right, false⟩) = keys h := by
  ext k
  rw [(unl.ok ok).mem_keys, ok.mem_keys]
  simp only [unl.marked_eq, store_key, store_published]

theorem succ_left : h.succ left = leftNext := by
  simp [Heap.succ, unl.link]

theorem onChain_left (ok : HeapOk h) : OnChain h left :=
  ok.onChain_of_listed unl.listed (by rw [unl.link])

/-- The first of the bypassed nodes leaves the chain. -/
theorem off_chain (ok : HeapOk h) (hne : leftNext ≠ right) :
    ¬ OnChain (h.store left ⟨right, false⟩) leftNext := by
  intro hon
  have ok' := unl.ok ok
  have hpub : leftNext ∈ h.published := (unl.dead.first hne).1
  have hsucc := unl.succ_left
  have hsucc' : (h.store left ⟨right, false⟩).succ left = right := by simp [Heap.succ]
  have hleft : OnChain (h.store left ⟨right, false⟩) left := by
    refine unl.onChain_unmarked ok (unl.onChain_left ok) ?_
    rw [unl.link]
  have hkey : left = head ∨ leftNext = tail ∨
      (h.store left ⟨right, false⟩).key left < (h.store left ⟨right, false⟩).key leftNext := by
    rcases unl.listed with hhead | hl
    · exact .inl hhead
    · refine .inr (.inr ?_)
      rw [store_key, store_key, ← hsucc]
      exact ok.sorted left hl (hsucc.symm ▸ hpub)
  -- it is neither before `left` nor behind `right`
  rcases hleft.comparable hon with hr | hr
  · rcases hr.cases_head with heq | hr
    · -- `leftNext` would be `left`
      rcases hkey with hhead | htail | hlt
      · exact ok.ne_head hpub (heq ▸ hhead)
      · exact ok.ne_tail hpub htail
      · rw [heq] at hlt
        exact lt_irrefl _ hlt
    · rw [hsucc'] at hr
      -- `right` would lead to `leftNext`, but the dead nodes lead the other way
      have hback := unl.dead.reaches_end
      rcases hback.cases_head with heq | hback
      · exact hne heq
      · rcases unl.target with rfl | hright
        · exact ok'.ne_tail hpub (ok'.tail_of_reaches_tail hr)
        · have hle := ok'.key_le hright hpub hr
          rw [store_key, store_key] at hle
          exact absurd (ok.key_lt hpub hright hback) (not_lt.mpr hle)
  · exact ok'.not_reaches_back unl.listed (.inr hpub) hkey hr

end Unlinking

/-! ### Marking -/

section Mark

variable (hx : x ∈ h.published) (hlink : h.next x = ⟨y, false⟩)
include hlink

theorem mark_succ : (h.store x ⟨y, true⟩).succ = h.succ := by
  rw [store_succ]
  have hsucc : h.succ x = y := by simp [Heap.succ, hlink]
  rw [← hsucc, Function.update_eq_self]

theorem mark_onChain {z : ℕ} : OnChain (h.store x ⟨y, true⟩) z ↔ OnChain h z := by
  unfold OnChain
  rw [mark_succ hlink]

include hx

theorem HeapOk.mark (ok : HeapOk h) : HeapOk (h.store x ⟨y, true⟩) := by
  refine ⟨ok.bounds, ok.fresh, ?_, ?_, ?_, ?_, ?_⟩
  · rw [store_next, if_neg (ok.ne_tail hx).symm]
    exact ok.tail
  · rw [store_next, if_neg (ok.ne_head hx).symm]
    exact ok.head
  · rw [mark_succ hlink]
    exact ok.target
  · rw [mark_succ hlink]
    intro z hz hsz
    rw [store_key, store_key]
    exact ok.sorted z hz hsz
  · intro z hz hmark
    rw [mark_onChain hlink]
    rw [store_next] at hmark
    split at hmark
    · cases hmark
    · exact ok.chain z hz hmark

/-- The key of the marked node was present and goes. -/
theorem mark_keys (ok : HeapOk h) :
    h.key x ∈ keys h ∧ keys (h.store x ⟨y, true⟩) = keys h \ {h.key x} := by
  have hmark : (h.next x).marked = false := by rw [hlink]
  refine ⟨ok.mem_keys.mpr ⟨x, hx, hmark, rfl⟩, ?_⟩
  ext k
  rw [(ok.mark hx hlink).mem_keys, Set.mem_sdiff, ok.mem_keys, Set.mem_singleton_iff]
  constructor
  · intro hk
    rcases hk with ⟨z, hz, hzmark, rfl⟩
    rw [store_next] at hzmark
    split at hzmark
    · cases hzmark
    · -- another node of the chain has another key
      rename_i hzx
      rw [store_key]
      refine ⟨⟨z, hz, hzmark, rfl⟩, fun heq => hzx ?_⟩
      exact ok.onChain_unique hz hx (ok.chain z hz hzmark) (ok.chain x hx hmark) heq
  · intro hk
    rcases hk with ⟨⟨z, hz, hzmark, rfl⟩, hne⟩
    have hzx : z ≠ x := fun heq => hne (by rw [heq])
    exact ⟨z, hz, by rw [store_next, if_neg hzx]; exact hzmark, store_key⟩

end Mark

/-! ### All changes -/

variable {o : Option ℕ}

theorem Change.ok (hc : Change h o h') (ok : HeapOk h) : HeapOk h' := by
  cases hc with
  | none => exact ok
  | create =>
    exact ok.of_unpublished ok.fresh_unpublished ok.fresh (fun _ hy => create_node hy) rfl
      (Nat.le_succ _)
  | store x link hx hgt =>
    refine ok.of_unpublished hx hgt (fun y hy => ?_) rfl le_rfl
    simp [Heap.store, hy]
  | insert x left right ins => exact ins.ok ok
  | unlink left leftNext right unl => exact unl.ok ok
  | mark x y hx hlink => exact ok.mark hx hlink

/-- A node that is published and not on the chain does not come back. -/
theorem Change.onChain (hc : Change h o h') (ok : HeapOk h) (hx : x ∈ h.published)
    (hon : OnChain h' x) : OnChain h x := by
  cases hc with
  | none => exact hon
  | create =>
    refine (ok.onChain_iff_of_unpublished ok.fresh_unpublished ok.fresh fun y hy => ?_).mp hon
    simp [Heap.succ, Heap.next, create_node hy]
  | store z link hz hgt =>
    refine (ok.onChain_iff_of_unpublished hz hgt fun y hy => ?_).mp hon
    simp [Heap.succ, hy]
  | insert z left right ins =>
    rcases (ins.onChain_iff ok).mp hon with hold | rfl
    · exact hold
    · exact absurd hx ins.unpublished
  | unlink left leftNext right unl => exact unl.onChain_of hon
  | mark z y hz hlink => exact (mark_onChain hlink).mp hon

/-- What holds of published and of marked nodes stays. -/
structure Extends (h h' : Heap) : Prop where
  published : ∀ x ∈ h.published, x ∈ h'.published
  fresh : h.fresh ≤ h'.fresh
  key : ∀ x, x < h.fresh → h'.key x = h.key x
  frozen : ∀ x ∈ h.published, (h.next x).marked = true → h'.next x = h.next x

theorem Change.extends (hc : Change h o h') (ok : HeapOk h) : Extends h h' := by
  cases hc with
  | none => exact ⟨fun _ hx => hx, le_rfl, fun _ _ => rfl, fun _ _ _ => rfl⟩
  | create =>
    refine ⟨fun _ hx => hx, Nat.le_succ _, ?_, ?_⟩
    · intro x hx
      simp [Heap.key, create_node hx.ne]
    · intro x hx _
      simp [Heap.next, create_node (ok.bounds x hx).2.ne]
  -- only an unpublished node is written
  | store x link hx hgt =>
    refine ⟨fun _ hx => hx, le_rfl, fun _ _ => store_key, ?_⟩
    intro y hy _
    rw [store_next, if_neg]
    rintro rfl
    exact hx hy
  | insert x left right ins =>
    exact ⟨fun _ hx => List.mem_cons_of_mem _ hx, le_rfl, fun _ _ => store_key,
      fun _ _ => store_frozen (by rw [ins.link])⟩
  | unlink left leftNext right unl =>
    exact ⟨fun _ hx => hx, le_rfl, fun _ _ => store_key,
      fun _ _ => store_frozen (by rw [unl.link])⟩
  | mark x y hx hlink =>
    exact ⟨fun _ hx => hx, le_rfl, fun _ _ => store_key, fun _ _ => store_frozen (by rw [hlink])⟩

/-- An unpublished node that the change does not use stays as it is. -/
theorem Change.unpublished (hc : Change h o h') (hx : x ∉ h.published)
    (hgt : tail < x) (hlt : x < h.fresh) (ho : o ≠ some x) :
    x ∉ h'.published ∧ h'.next x = h.next x := by
  -- the other stores go to listed nodes
  have hne : ∀ y, h.Listed y → x ≠ y := by
    rintro y hy rfl
    rcases hy with rfl | hy
    · exact absurd hgt (by decide)
    · exact hx hy
  cases hc with
  | none => exact ⟨hx, rfl⟩
  | create => exact ⟨hx, by simp [Heap.next, create_node hlt.ne]⟩
  | store y link hy _ =>
    have hxy : x ≠ y := fun heq => ho (by rw [heq])
    exact ⟨hx, by rw [store_next, if_neg hxy]⟩
  | insert y left right ins =>
    have hxy : x ≠ y := fun heq => ho (by rw [heq])
    refine ⟨?_, by rw [publish_next, store_next, if_neg (hne left ins.listed)]⟩
    intro hmem
    rcases List.mem_cons.mp hmem with heq | hmem
    · exact hxy heq
    · exact hx hmem
  | unlink left leftNext right unl =>
    exact ⟨hx, by rw [store_next, if_neg (hne left unl.listed)]⟩
  | mark y z hy hlink => exact ⟨hx, by rw [store_next, if_neg (hne y (.inr hy))]⟩

end SysProg.LockFree
