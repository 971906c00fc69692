import Mathlib.Tactic
import SysProg.Lib.Rows
import SysProg.Memory.Os

/-!
# Tables of mappings

`buddy_block.c` and `direct_allocator.c` keep their records in chained tables: each
table stands on a page of its own, and each record may own a mapping.

* `rowRegion own rows` — the pages of the tables and the mappings of their records;
* `rowRegion_setCell`, `rowRegion_append` — how they change with a record and a table;
* `RowsOpened` — a new table of zeroed records at the end, or none.
-/

namespace SysProg.Memory

open Rows

universe u

/-- The page of table `t`, or the mapping of its record `i`. -/
inductive RowRegion where
  | row (t : ℕ)
  | cell (t i : ℕ)
deriving DecidableEq

variable {α : Type u} {n : ℕ}

/-- The mappings of the tables, where `own` is the mapping of a record. -/
def rowRegion (own : α → Option Range) (rows : List (Row α n)) : RowRegion → Option Range
  | .row t => (rows.map Row.base)[t]?.map fun base => ⟨base, pageSize⟩
  | .cell t i => (cell? rows t i).bind own

variable {own : α → Option Range} {rows rows' : List (Row α n)} {t i : ℕ} {a b zero : α}
  {kernel : Kernel} {os os' : List OsEvent}

theorem rowRegion_nil : rowRegion own ([] : List (Row α n)) = fun _ => none := by
  funext r
  cases r with
  | row => rfl
  | cell => rfl

theorem rowRegion_row (own : α → Option Range) {row : Row α n} (h : rows[t]? = some row) :
    rowRegion own rows (.row t) = some ⟨row.base, pageSize⟩ := by
  simp [rowRegion, h]

theorem rowRegion_cell {r : Range} (h : cell? rows t i = some a) (hown : own a = some r) :
    rowRegion own rows (.cell t i) = some r := by
  simp [rowRegion, h, hown]

/-- A record that is set brings its own mapping. -/
theorem rowRegion_setCell (h : cell? rows t i = some a) :
    rowRegion own (setCell rows t i b) =
      Function.update (rowRegion own rows) (.cell t i) (own b) := by
  funext r
  cases r with
  | row =>
    rw [Function.update_of_ne (by simp)]
    simp only [rowRegion, map_base_setCell]
  | cell k j =>
    by_cases hkj : k = t ∧ j = i
    · rcases hkj with ⟨rfl, rfl⟩
      simp [rowRegion, cell?_setCell h]
    · rw [Function.update_of_ne (by simpa using hkj)]
      simp only [rowRegion, cell?_setCell h, if_neg hkj]

/-- A record that keeps its mapping keeps them all. -/
theorem rowRegion_setCell_same (h : cell? rows t i = some a) (hown : own b = own a) :
    rowRegion own (setCell rows t i b) = rowRegion own rows := by
  have hold : rowRegion own rows (.cell t i) = own a := by simp [rowRegion, h]
  rw [rowRegion_setCell h, hown, ← hold, Function.update_eq_self]

/-- A new table adds its own page. -/
theorem rowRegion_append (rows : List (Row α n)) (page : ℕ) (hzero : own zero = none) :
    rowRegion own (rows ++ [emptyRow zero page]) =
      Function.update (rowRegion own rows) (.row rows.length) (some ⟨page, pageSize⟩) := by
  funext r
  cases r with
  | row k =>
    by_cases hk : k = rows.length
    · subst hk
      simp [rowRegion, emptyRow]
    · rw [Function.update_of_ne (by simpa using hk)]
      simp only [rowRegion, List.map_append, List.map_cons, List.map_nil]
      rcases Nat.lt_or_gt_of_ne hk with hlt | hgt
      · rw [List.getElem?_append_left (by simpa using hlt)]
      · rw [List.getElem?_eq_none (by simp; omega), List.getElem?_eq_none (by simp; omega)]
  | cell k j =>
    rw [Function.update_of_ne (by simp)]
    simp only [rowRegion, cell?_append]
    by_cases hk : k = rows.length
    · subst hk
      -- the records of the new table own nothing
      have hnone : cell? rows rows.length j = none := by simp [cell?]
      rw [if_pos rfl, hnone]
      cases hx : (emptyRow zero page : Row α n).cells[j]? with
      | none => rfl
      | some => simp [emptyRow_cell hx, hzero]
    · rw [if_neg hk]

/-- The tables and the page requests, with one more table of zeroed records or none. -/
inductive RowsOpened (kernel : Kernel) (zero : α) (rows : List (Row α n)) (os : List OsEvent) :
    List (Row α n) → List OsEvent → Prop where
  | same : RowsOpened kernel zero rows os rows os
  | refused (size : ℕ) : kernel.mmap os size = 0 →
      RowsOpened kernel zero rows os rows (.refuse size :: os)
  | fresh (page : ℕ) : page = kernel.mmap os pageSize → page ≠ 0 →
      RowsOpened kernel zero rows os (rows ++ [emptyRow zero page]) (.map ⟨page, pageSize⟩ :: os)

namespace RowsOpened

variable (h : RowsOpened kernel zero rows os rows' os')
include h

theorem grown (hzero : own zero = none) :
    Grown kernel (rowRegion own rows) os (rowRegion own rows') os' := by
  cases h with
  | same => exact .refl
  | refused size hpage => exact .refuse size .refl hpage
  | fresh page heq hpage =>
    subst heq
    rw [rowRegion_append rows _ hzero]
    exact .add _ _ .refl hpage

theorem cover (hzero : own zero = none) (hc : RegionsCover (rowRegion own rows) os) :
    RegionsCover (rowRegion own rows') os' := by
  cases h with
  | same => exact hc
  | refused => exact hc
  | fresh =>
    rw [rowRegion_append rows _ hzero]
    exact hc.add (by simp [rowRegion])

/-- A record is an old one, or a zeroed one of the new table. -/
theorem cell_cases (ha : cell? rows' t i = some a) : cell? rows t i = some a ∨ a = zero := by
  cases h with
  | same | refused => exact .inl ha
  | fresh =>
    rw [cell?_append] at ha
    split at ha
    · exact .inr (emptyRow_cell ha)
    · exact .inl ha

theorem cell_old (ha : cell? rows t i = some a) : cell? rows' t i = some a := by
  cases h with
  | same => exact ha
  | refused => exact ha
  | fresh page heq hpage =>
    have hlt := (lt_of_cell? ha).1
    rw [cell?_append, if_neg (by omega), ha]

end RowsOpened

end SysProg.Memory
