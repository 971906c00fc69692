import Mathlib.Logic.Function.Basic
import Mathlib.Tactic

/-!
# Linked cells

A memory of cells, each with a value and the address of the next cell. Address `0` is null,
and an address at which nothing is allocated holds no cell.

* `Chain cells a l` — following the cells from `a` on visits the addresses `l` and ends at
  null;
* `values cells l` — the values that are found there;
* `Chain.link`, `Chain.unlink` — a new cell behind the first one, and a cell taken out behind
  another one; everything else of the chain stays;
* `Chain.setValue`, `Chain.concat` — a new value in the last cell, and a new cell behind it.
-/

namespace LinkedCells

universe u

/-- A value and the address of the next cell. -/
structure Cell (α : Type u) where
  value : α
  next : ℕ
deriving DecidableEq, Repr

/-- The cells that are allocated. -/
abbrev Cells (α : Type u) := ℕ → Option (Cell α)

variable {α : Type u}

/-- Redirect the cell at `x`. -/
def setNext (cells : Cells α) (x next : ℕ) : Cells α :=
  Function.update cells x ((cells x).map fun c => { c with next := next })

/-- The cells from `a` on are those at the addresses `l`, and the last one leads to null. -/
def Chain (cells : Cells α) : ℕ → List ℕ → Prop
  | a, [] => a = 0
  | a, x :: l => a = x ∧ x ≠ 0 ∧ ∃ c, cells x = some c ∧ Chain cells c.next l

/-- The values at some addresses. -/
def values (cells : Cells α) (l : List ℕ) : List α :=
  l.filterMap fun x => (cells x).map Cell.value

variable {cells cells' : Cells α} {a b x y : ℕ} {l pre post : List ℕ} {c d : Cell α} {v : α}

@[simp] theorem values_nil : values cells [] = [] := rfl

theorem values_cons (hx : cells x = some c) :
    values cells (x :: l) = c.value :: values cells l := by
  simp [values, hx]

theorem values_append : values cells (pre ++ post) = values cells pre ++ values cells post :=
  List.filterMap_append

theorem values_congr (h : ∀ x ∈ l, cells' x = cells x) : values cells' l = values cells l := by
  unfold values
  exact List.filterMap_congr fun x hx => by rw [h x hx]

theorem mem_values (hmem : x ∈ l) (hx : cells x = some c) : c.value ∈ values cells l :=
  List.mem_filterMap.mpr ⟨x, hmem, by rw [hx]; rfl⟩

/-- Only the cells that are visited matter. -/
theorem Chain.congr (hc : Chain cells a l) (h : ∀ x ∈ l, cells' x = cells x) :
    Chain cells' a l := by
  induction l generalizing a with
  | nil => exact hc
  | cons x l ih =>
    rcases hc with ⟨rfl, hne, c, hx, hrest⟩
    rw [List.forall_mem_cons] at h
    exact ⟨rfl, hne, c, by rw [h.1, hx], ih hrest h.2⟩

/-- What is visited is allocated. -/
theorem Chain.isSome (hc : Chain cells a l) (hx : x ∈ l) : (cells x).isSome = true := by
  induction l generalizing a with
  | nil => simp at hx
  | cons y l ih =>
    rcases hc with ⟨-, -, c, hy, hrest⟩
    rcases List.mem_cons.mp hx with rfl | hx
    · rw [hy]
      rfl
    · exact ih hrest hx

theorem Chain.ne_null (hc : Chain cells a l) (hx : x ∈ l) : x ≠ 0 := by
  induction l generalizing a with
  | nil => simp at hx
  | cons y l ih =>
    rcases hc with ⟨-, hne, c, -, hrest⟩
    rcases List.mem_cons.mp hx with rfl | hx
    · exact hne
    · exact ih hrest hx

theorem Chain.length_values (hc : Chain cells a l) : (values cells l).length = l.length := by
  induction l generalizing a with
  | nil => rfl
  | cons y l ih =>
    rcases hc with ⟨-, -, c, hy, hrest⟩
    rw [values_cons hy, List.length_cons, List.length_cons, ih hrest]

/-- The chain from one of its addresses on. -/
theorem Chain.drop (hc : Chain cells a (pre ++ x :: post)) : Chain cells x (x :: post) := by
  induction pre generalizing a with
  | nil =>
    rcases hc with ⟨rfl, hne, hrest⟩
    exact ⟨rfl, hne, hrest⟩
  | cons y pre ih =>
    rcases hc with ⟨-, -, c, -, hrest⟩
    exact ih hrest

/-- A chain is empty, or it goes on from its first cell. -/
theorem Chain.head_cases (hc : Chain cells a l) : (a = 0 ∧ l = []) ∨
    (a ≠ 0 ∧ ∃ c post, l = a :: post ∧ cells a = some c ∧ Chain cells c.next post) := by
  cases l with
  | nil => exact .inl ⟨hc, rfl⟩
  | cons x post =>
    rcases hc with ⟨rfl, hne, c, hx, hrest⟩
    exact .inr ⟨hne, c, post, rfl, hx, hrest⟩

/-! ## Changing a chain -/

theorem setNext_self (hx : cells x = some c) : setNext cells x b x = some { c with next := b } := by
  simp [setNext, hx]

theorem setNext_of_ne (hy : y ≠ x) : setNext cells x b y = cells y :=
  Function.update_of_ne hy _ _

/-- The memory with a new cell at `y` behind the one at `x`. -/
def linkAfter (cells : Cells α) (x y : ℕ) (v : α) (next : ℕ) : Cells α :=
  setNext (Function.update cells y (some ⟨v, next⟩)) x y

theorem linkAfter_new (hne : y ≠ x) : linkAfter cells x y v b y = some ⟨v, b⟩ := by
  rw [linkAfter, setNext_of_ne hne, Function.update_self]

theorem linkAfter_of_ne {z : ℕ} (hx : z ≠ x) (hy : z ≠ y) : linkAfter cells x y v b z = cells z := by
  rw [linkAfter, setNext_of_ne hx, Function.update_of_ne hy]

/-- A cell that was not allocated comes behind the first one. -/
theorem Chain.link (hc : Chain cells x (x :: l)) (hx : cells x = some c) (hnodup : (x :: l).Nodup)
    (hfree : cells y = none) (hy : y ≠ 0) :
    Chain (linkAfter cells x y v c.next) x (x :: y :: l) ∧
      values (linkAfter cells x y v c.next) (y :: l) = v :: values cells l := by
  rcases hc with ⟨-, hx0, c', hx', hrest⟩
  rcases Option.some.inj (hx.symm.trans hx') with rfl
  have hyx : y ≠ x := by
    rintro rfl
    rw [hfree] at hx
    cases hx
  -- only the first cell and the new one are written
  have hold : ∀ z ∈ l, linkAfter cells x y v c.next z = cells z := by
    intro z hz
    refine linkAfter_of_ne ?_ ?_
    · rintro rfl
      exact (List.nodup_cons.mp hnodup).1 hz
    · rintro rfl
      have hsome := hrest.isSome hz
      rw [hfree] at hsome
      cases hsome
  have hnew : linkAfter cells x y v c.next y = some ⟨v, c.next⟩ := linkAfter_new hyx
  have hfirst : linkAfter cells x y v c.next x = some { c with next := y } :=
    setNext_self (by rw [Function.update_of_ne hyx.symm, hx])
  refine ⟨⟨rfl, hx0, _, hfirst, rfl, hy, _, hnew, hrest.congr hold⟩, ?_⟩
  rw [values_cons hnew, values_congr hold]

/-- The memory with the cell at `y`, behind the one at `x`, taken out. -/
def unlinkAfter (cells : Cells α) (x y next : ℕ) : Cells α :=
  Function.update (setNext cells x next) y none

theorem unlinkAfter_of_ne {z : ℕ} (hx : z ≠ x) (hy : z ≠ y) :
    unlinkAfter cells x y b z = cells z := by
  rw [unlinkAfter, Function.update_of_ne hy, setNext_of_ne hx]

/-- A cell is taken out of the chain. -/
theorem Chain.unlink (hc : Chain cells a (pre ++ x :: y :: post)) (hy : cells y = some d)
    (hnodup : (pre ++ x :: y :: post).Nodup) :
    Chain (unlinkAfter cells x y d.next) a (pre ++ x :: post) := by
  induction pre generalizing a with
  | nil =>
    rcases hc with ⟨rfl, hne, c, hx, -, -, d', hy', hrest⟩
    rcases Option.some.inj (hy.symm.trans hy') with rfl
    simp only [List.nil_append, List.nodup_cons, List.mem_cons, not_or] at hnodup
    have hfirst : unlinkAfter cells a y d.next a = some { c with next := d.next } := by
      rw [unlinkAfter, Function.update_of_ne hnodup.1.1, setNext_self hx]
    refine ⟨rfl, hne, _, hfirst, hrest.congr fun z hz => unlinkAfter_of_ne ?_ ?_⟩
    · rintro rfl
      exact hnodup.1.2 hz
    · rintro rfl
      exact hnodup.2.1 hz
  | cons w pre ih =>
    rcases hc with ⟨rfl, hne, c, hw, hrest⟩
    rw [List.cons_append, List.nodup_cons] at hnodup
    simp only [List.mem_append, List.mem_cons, not_or] at hnodup
    refine ⟨rfl, hne, c, ?_, ih hrest hnodup.2⟩
    rw [unlinkAfter_of_ne hnodup.1.2.1 hnodup.1.2.2.1, hw]

/-- The other values stay. -/
theorem values_unlinkAfter (hl : y ∉ l) (hx : cells x = some c) :
    values (unlinkAfter cells x y b) l = values cells l := by
  unfold values
  refine List.filterMap_congr fun z hz => ?_
  have hzy : z ≠ y := by
    rintro rfl
    exact hl hz
  by_cases hzx : z = x
  · subst hzx
    rw [unlinkAfter, Function.update_of_ne hzy, setNext_self hx, hx]
    rfl
  · rw [unlinkAfter_of_ne hzx hzy]

/-! ## The end of a chain -/

theorem Chain.last (hc : Chain cells a (pre ++ [x])) : x ≠ 0 ∧ ∃ c, cells x = some c ∧ c.next = 0 := by
  rcases hc.drop with ⟨-, hne, c, hx, hnext⟩
  exact ⟨hne, c, hx, hnext⟩

/-- The memory with another value in the cell at `x`. -/
def setValue (cells : Cells α) (x : ℕ) (v : α) : Cells α :=
  Function.update cells x ((cells x).map fun c => { c with value := v })

theorem Chain.setValue (hc : Chain cells a l) (x : ℕ) (v : α) :
    Chain (setValue cells x v) a l := by
  induction l generalizing a with
  | nil => exact hc
  | cons y l ih =>
    rcases hc with ⟨rfl, hne, c, hy, hrest⟩
    by_cases hx : a = x
    · subst hx
      exact ⟨rfl, hne, { c with value := v }, by simp [LinkedCells.setValue, hy], ih hrest⟩
    · exact ⟨rfl, hne, c, by rw [LinkedCells.setValue, Function.update_of_ne hx, hy], ih hrest⟩

/-- A cell that was not allocated comes behind the last one. -/
theorem Chain.concat (hc : Chain cells a (pre ++ [x])) (hnodup : (pre ++ [x]).Nodup)
    (hfree : cells y = none) (hy : y ≠ 0) :
    Chain (linkAfter cells x y v 0) a (pre ++ [x] ++ [y]) ∧
      values (linkAfter cells x y v 0) (pre ++ [x] ++ [y]) = values cells (pre ++ [x]) ++ [v] := by
  rcases hc.last with ⟨-, c, hx, -⟩
  have hyx : y ≠ x := by
    rintro rfl
    rw [hfree] at hx
    cases hx
  have hnew : linkAfter cells x y v 0 y = some ⟨v, 0⟩ := linkAfter_new hyx
  have hlast : linkAfter cells x y v 0 x = some { c with next := y } :=
    setNext_self (by rw [Function.update_of_ne hyx.symm, hx])
  have hold : ∀ z ∈ pre, linkAfter cells x y v 0 z = cells z := by
    intro z hz
    refine linkAfter_of_ne ?_ ?_
    · rintro rfl
      exact (List.nodup_append.mp hnodup).2.2 z hz z (by simp) rfl
    · rintro rfl
      have hsome := hc.isSome (List.mem_append_left _ hz)
      rw [hfree] at hsome
      cases hsome
  constructor
  · -- along the cells before the last one, which are as they were
    clear hnodup
    induction pre generalizing a with
    | nil =>
      rcases hc with ⟨rfl, hne, -⟩
      exact ⟨rfl, hne, _, hlast, rfl, hy, _, hnew, rfl⟩
    | cons w pre ih =>
      rcases hc with ⟨rfl, hne, d, hw, hrest⟩
      rw [List.forall_mem_cons] at hold
      exact ⟨rfl, hne, d, by rw [hold.1, hw], ih hrest hold.2⟩
  · rw [values_append, values_append, values_congr hold, values_cons hlast, values_append,
      values_cons hx, values_cons hnew]
    rfl

end LinkedCells
