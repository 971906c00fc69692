import Mathlib.Tactic
import Mathlib.Data.List.Sort

/-!
# k-way merging

`KMerge r ls out`: `out` can be obtained from the non-empty lists `ls` by taking,
again and again, a head that is `r`-below all heads, and dropping the lists that
have become empty. Which of several minimal heads is taken is left open.

The merge of sorted lists is sorted (`KMerge.pairwise`) and a permutation of what
went in (`KMerge.perm`); with an antisymmetric `r` it is therefore determined by
the elements alone (`KMerge.eq_of_perm`).
-/

universe u

variable {α : Type u} {r : α → α → Prop} {ls : List (List α)}

/-- The lists after the head of the `i`th one has been taken and `t` is left of it. -/
def KMerge.advance (ls : List (List α)) (i : ℕ) (t : List α) : List (List α) :=
  if t = [] then ls.eraseIdx i else ls.set i t

/-- The k-way merge as a relation. -/
inductive KMerge (r : α → α → Prop) : List (List α) → List α → Prop where
  | done : KMerge r [] []
  | take {ls : List (List α)} {out : List α} (i : ℕ) (x : α) (t : List α) :
      ls[i]? = some (x :: t) →
      (∀ l ∈ ls, ∀ y ∈ l.head?, r x y) →
      KMerge r (KMerge.advance ls i t) out →
      KMerge r ls (x :: out)

namespace KMerge

theorem mem_advance {i : ℕ} {t l : List α} (h : l ∈ advance ls i t) :
    l ∈ ls ∨ l = t := by
  unfold advance at h
  split_ifs at h
  · exact .inl (List.mem_of_mem_eraseIdx h)
  · exact List.mem_or_eq_of_mem_set h

/-- Taking a head removes exactly that element. -/
theorem flatten_advance {i : ℕ} {x : α} {t : List α}
    (h : ls[i]? = some (x :: t)) : ls.flatten.Perm (x :: (advance ls i t).flatten) := by
  induction ls generalizing i with
  | nil => simp at h
  | cons l ls ih =>
    cases i with
    | zero =>
      simp only [List.getElem?_cons_zero, Option.some.injEq] at h
      subst h
      unfold advance
      split_ifs with ht
      · subst ht; simp
      · simp
    | succ i =>
      have hperm := ih (i := i) (by simpa using h)
      have hadv : (advance (l :: ls) (i + 1) t).flatten = l ++ (advance ls i t).flatten := by
        unfold advance
        split_ifs <;> simp
      rw [hadv, List.flatten_cons]
      exact (hperm.append_left l).trans List.perm_middle

theorem perm {out : List α} (h : KMerge r ls out) :
    out.Perm ls.flatten := by
  induction h with
  | done => exact .nil
  | take i x t hi _ _ ih => exact ((ih.cons x).trans (flatten_advance hi).symm)

/-- A head that is below all heads is below every element of sorted lists. -/
theorem le_of_sorted [IsTrans α r] {x : α}
    (hs : ∀ l ∈ ls, l.Pairwise r) (hx : ∀ l ∈ ls, ∀ y ∈ l.head?, r x y) :
    ∀ y ∈ ls.flatten, r x y := by
  intro y hy
  rcases List.mem_flatten.mp hy with ⟨l, hl, hyl⟩
  cases l with
  | nil => simp at hyl
  | cons z l =>
    have hz : r x z := hx _ hl z rfl
    rcases List.mem_cons.mp hyl with rfl | hyl
    · exact hz
    · exact IsTrans.trans _ _ _ hz ((List.pairwise_cons.mp (hs _ hl)).1 y hyl)

theorem pairwise [IsTrans α r] {out : List α}
    (h : KMerge r ls out) (hs : ∀ l ∈ ls, l.Pairwise r) : out.Pairwise r := by
  induction h with
  | done => exact .nil
  | @take ls out i x t hi hx hrest ih =>
    have ht : t.Pairwise r := (List.pairwise_cons.mp (hs _ (List.mem_of_getElem? hi))).2
    have hs' : ∀ l ∈ advance ls i t, l.Pairwise r := by
      intro l hl
      rcases mem_advance hl with hl | rfl
      · exact hs l hl
      · exact ht
    refine List.pairwise_cons.mpr ⟨fun y hy => ?_, ih hs'⟩
    have hy' : y ∈ ls.flatten :=
      (flatten_advance hi).symm.subset (List.mem_cons_of_mem _ (hrest.perm.subset hy))
    exact le_of_sorted hs hx y hy'

/-- The result of merging sorted lists is determined by the elements. -/
theorem eq_of_perm [IsTrans α r] [Std.Antisymm r]
    {out sorted : List α} (h : KMerge r ls out) (hs : ∀ l ∈ ls, l.Pairwise r)
    (hsorted : sorted.Pairwise r) (hperm : sorted.Perm ls.flatten) : out = sorted :=
  (h.perm.trans hperm.symm).eq_of_pairwise
    (fun _ _ _ _ hab hba => antisymm hab hba) (h.pairwise hs) hsorted

end KMerge
