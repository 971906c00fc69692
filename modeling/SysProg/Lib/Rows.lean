import Mathlib.Tactic

/-!
# Chained rows of records

A data structure that is often kept by hand: a list of rows, each with an address and a
fixed number of records. A record is named by its row and its place in the row.

* `cell? rows t i` — the record at place `i` of row `t`;
* `setCell` — one record replaced, `cell?_setCell` what that changes;
* `find p` — the first record, row by row, that satisfies `p`.
-/

namespace Rows

universe u

/-- A row of `n` records at an address. -/
structure Row (α : Type u) (n : ℕ) where
  base : ℕ
  cells : Vector α n

variable {α : Type u} {n : ℕ}

/-- The record at place `i` of row `t`. -/
def cell? (rows : List (Row α n)) (t i : ℕ) : Option α :=
  rows[t]?.bind fun row => row.cells[i]?

/-- A row in which all records are `zero`. -/
def emptyRow (zero : α) (base : ℕ) : Row α n :=
  ⟨base, Vector.replicate n zero⟩

/-- Replace the record at place `i` of row `t`. -/
def setCell (rows : List (Row α n)) (t i : ℕ) (a : α) : List (Row α n) :=
  rows.modify t fun row => { row with cells := row.cells.setIfInBounds i a }

/-- Row by row, place `(t', i')` comes before `(t, i)`. -/
def Before (t' i' t i : ℕ) : Prop :=
  t' < t ∨ t' = t ∧ i' < i

/-- The first record that satisfies `p`. -/
def find (p : α → Bool) (rows : List (Row α n)) : Option (ℕ × ℕ) :=
  rows.zipIdx.findSome? fun x => (x.1.cells.toList.findIdx? p).map fun i => (x.2, i)

variable {rows : List (Row α n)} {row : Row α n} {p : α → Bool} {t i t' i' : ℕ} {a b : α}

theorem cell?_eq_some : cell? rows t i = some a ↔
    ∃ row, rows[t]? = some row ∧ row.cells[i]? = some a := by
  unfold cell?
  rw [Option.bind_eq_some_iff]

theorem emptyRow_cell {zero : α} {base : ℕ}
    (h : (emptyRow zero base : Row α n).cells[i]? = some a) : a = zero := by
  rcases Vector.getElem?_eq_some_iff.mp h with ⟨hi, hget⟩
  rw [← hget]
  simp [emptyRow]

theorem lt_of_cell? (h : cell? rows t i = some a) : t < rows.length ∧ i < n := by
  rcases cell?_eq_some.mp h with ⟨row, hrow, hcell⟩
  have ht := (List.getElem?_eq_some_iff.mp hrow).1
  have hi := (Vector.getElem?_eq_some_iff.mp hcell).1
  exact ⟨ht, hi⟩

theorem ne_nil_of_cell? (h : cell? rows t i = some a) : rows ≠ [] :=
  List.ne_nil_of_length_pos (Nat.zero_lt_of_lt (lt_of_cell? h).1)

theorem exists_cell? (ht : t < rows.length) (hi : i < n) : ∃ a, cell? rows t i = some a :=
  ⟨rows[t].cells[i], cell?_eq_some.mpr ⟨rows[t], by simp [ht], by simp [hi]⟩⟩

/-- Only the record that is set changes. -/
theorem cell?_setCell (h : cell? rows t i = some b) :
    cell? (setCell rows t i a) t' i' = if t' = t ∧ i' = i then some a else cell? rows t' i' := by
  have hlt := lt_of_cell? h
  unfold cell? setCell
  by_cases ht : t' = t
  · subst ht
    have hrow := List.getElem?_eq_getElem hlt.1
    by_cases hi : i' = i
    · subst hi
      simp [hrow, hlt.2]
    · simp [hrow, hi, Ne.symm hi]
  · simp [ht, Ne.symm ht]

/-- Setting a record to what it is changes nothing. -/
theorem setCell_self (h : cell? rows t i = some a) : setCell rows t i a = rows := by
  rcases cell?_eq_some.mp h with ⟨row, hrow, hcell⟩
  have hset : row.cells.setIfInBounds i a = row.cells := by
    ext k hk
    rw [Vector.getElem_setIfInBounds]
    split
    · rename_i hik
      subst hik
      rcases Vector.getElem?_eq_some_iff.mp hcell with ⟨_, hget⟩
      exact hget.symm
    · rfl
  apply List.ext_getElem?
  intro k
  unfold setCell
  by_cases hk : k = t
  · subst hk
    simp [hrow, hset]
  · simp [Ne.symm hk]

/-- Of two settings of one record the second one counts. -/
theorem setCell_setCell : setCell (setCell rows t i b) t i a = setCell rows t i a := by
  apply List.ext_getElem?
  intro k
  unfold setCell
  by_cases hk : k = t
  · subst hk
    simp only [List.getElem?_modify, if_true]
    cases hrow : rows[k]? with
    | none => rfl
    | some => simp
  · simp [Ne.symm hk]

theorem map_base_setCell : (setCell rows t i a).map Row.base = rows.map Row.base := by
  apply List.ext_getElem?
  intro k
  unfold setCell
  by_cases hk : k = t
  · subst hk
    simp [Function.comp_def]
  · simp [Ne.symm hk]

/-- The records of a list with one more row. -/
theorem cell?_append : cell? (rows ++ [row]) t i =
    if t = rows.length then row.cells[i]? else cell? rows t i := by
  unfold cell?
  rcases Nat.lt_trichotomy t rows.length with hlt | heq | hgt
  · rw [if_neg (by omega), List.getElem?_append_left hlt]
  · subst heq
    simp
  · rw [if_neg (by omega), List.getElem?_eq_none (by simp; omega),
      List.getElem?_eq_none (by omega)]

/-- What `find` returns satisfies `p`. -/
theorem find_some (h : find p rows = some (t, i)) : ∃ a, cell? rows t i = some a ∧ p a = true := by
  rcases List.exists_of_findSome?_eq_some h with ⟨x, hx, hfind⟩
  rw [Option.map_eq_some_iff] at hfind
  rcases hfind with ⟨j, hj, heq⟩
  simp only [Prod.mk.injEq] at heq
  rcases heq with ⟨rfl, rfl⟩
  rcases List.findIdx?_eq_some_iff_getElem.mp hj with ⟨hlt, hp, -⟩
  have hrow : rows[x.2]? = some x.1 := List.mem_zipIdx_iff_getElem?.mp hx
  have hn : j < n := by simpa using hlt
  refine ⟨x.1.cells[j], cell?_eq_some.mpr ⟨x.1, hrow, by simp [hn]⟩, ?_⟩
  simpa using hp

/-- If `find` returns nothing, no record satisfies `p`. -/
theorem find_none (h : find p rows = none) (ha : cell? rows t i = some a) : p a = false := by
  rcases cell?_eq_some.mp ha with ⟨row, hrow, hcell⟩
  have hmem : (row, t) ∈ rows.zipIdx := List.mem_zipIdx_iff_getElem?.mpr hrow
  have hnone := List.findSome?_eq_none_iff.mp h (row, t) hmem
  rw [Option.map_eq_none_iff, List.findIdx?_eq_none_iff] at hnone
  rcases Vector.getElem?_eq_some_iff.mp hcell with ⟨hi, hget⟩
  apply hnone
  rw [Vector.mem_toList_iff, ← hget]
  exact Vector.getElem_mem hi

/-- A record that is the only one to satisfy `p` is found. -/
theorem find_unique (ha : cell? rows t i = some a) (hp : p a = true)
    (hunique : ∀ t' i' b, cell? rows t' i' = some b → p b = true → t' = t ∧ i' = i) :
    find p rows = some (t, i) := by
  cases hfind : find p rows with
  | none =>
    have := find_none hfind ha
    rw [hp] at this
    cases this
  | some x =>
    rcases find_some (t := x.1) (i := x.2) hfind with ⟨b, hb, hpb⟩
    rcases hunique x.1 x.2 b hb hpb with ⟨h1, h2⟩
    rw [← h1, ← h2]

end Rows
