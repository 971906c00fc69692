import Mathlib.Logic.Function.Iterate
import Mathlib.Tactic

/-!
# Chains of successors

Every element has one successor under `f`. `Reaches f a b` says that `b` is found by
following successors from `a`.

* `Reaches.comparable` — two elements found from the same start are in line;
* `Reaches.simulate` — each step of `f` may be a detour of `g`;
* `Reaches.skip` — redirecting one element past others loses only these others;
* `distance` — the number of steps to an element.
-/

namespace Orbit

universe u

variable {α : Type u} {f g : α → α} {a b c l w : α}

/-- Following successors from `a` leads to `b`. -/
def Reaches (f : α → α) (a b : α) : Prop :=
  ∃ i, f^[i] a = b

namespace Reaches

theorem refl (f : α → α) (a : α) : Reaches f a a :=
  ⟨0, rfl⟩

theorem step (f : α → α) (a : α) : Reaches f a (f a) :=
  ⟨1, rfl⟩

theorem trans (h : Reaches f a b) (h' : Reaches f b c) : Reaches f a c := by
  rcases h with ⟨i, hi⟩
  rcases h' with ⟨j, hj⟩
  exact ⟨j + i, by rw [Function.iterate_add_apply, hi, hj]⟩

/-- The first step of a chain. -/
theorem cases_head (h : Reaches f a b) : a = b ∨ Reaches f (f a) b := by
  rcases h with ⟨i, hi⟩
  cases i with
  | zero => exact .inl hi
  | succ i => exact .inr ⟨i, hi⟩

/-- What the start satisfies and successors keep holds along the chain. -/
theorem invariant {P : α → Prop} (hP : ∀ c, P c → P (f c)) (h : Reaches f a b) (ha : P a) : P b := by
  rcases h with ⟨i, rfl⟩
  induction i generalizing a with
  | zero => exact ha
  | succ i ih => exact ih (hP a ha)

/-- Two elements of one chain are in line. -/
theorem comparable (h : Reaches f a b) (h' : Reaches f a c) : Reaches f b c ∨ Reaches f c b := by
  rcases h with ⟨i, rfl⟩
  rcases h' with ⟨j, rfl⟩
  rcases Nat.le_total i j with hij | hij
  · exact .inl ⟨j - i, by rw [← Function.iterate_add_apply, Nat.sub_add_cancel hij]⟩
  · exact .inr ⟨i - j, by rw [← Function.iterate_add_apply, Nat.sub_add_cancel hij]⟩

/-- If `g` gets from every element to its `f`-successor, it follows the chains of `f`. -/
theorem simulate (hg : ∀ c, Reaches g c (f c)) (h : Reaches f a b) : Reaches g a b := by
  rcases h with ⟨i, rfl⟩
  induction i generalizing a with
  | zero => exact .refl g a
  | succ i ih => exact (hg a).trans ih

/-- Only the successors along the chain matter. -/
theorem congr_iff (hg : ∀ c, Reaches f a c → g c = f c) : Reaches g a b ↔ Reaches f a b := by
  have hiter : ∀ i, g^[i] a = f^[i] a := by
    intro i
    induction i with
    | zero => rfl
    | succ i ih =>
      rw [Function.iterate_succ_apply', Function.iterate_succ_apply', ih]
      exact hg _ ⟨i, rfl⟩
  unfold Reaches
  simp only [hiter]

/-- Redirect `l` to `w`, which does not lead back to `l`. An element that is reached
from `w` whenever it is reached behind `l` stays reachable. -/
theorem skip [DecidableEq α] (hback : ¬ Reaches f w l)
    (hrest : Reaches f (f l) b → Reaches f w b) (h : Reaches f a b) :
    Reaches (Function.update f l w) a b := by
  rcases h with ⟨i, rfl⟩
  induction i generalizing a with
  | zero => exact .refl _ a
  | succ i ih =>
    have hstep := Reaches.step (Function.update f l w) a
    by_cases hal : a = l
    · -- at `l` the chain goes on from `w`, and never comes to `l` again
      subst hal
      rw [Function.update_self] at hstep
      refine hstep.trans ((congr_iff ?_).mpr (hrest ⟨i, rfl⟩))
      intro c hc
      have hne : c ≠ a := by
        intro heq
        rw [heq] at hc
        exact hback hc
      exact Function.update_of_ne hne _ _
    · rw [Function.update_of_ne hal] at hstep
      exact hstep.trans (ih hrest)

end Reaches

/-! ## Distances -/

/-- The number of steps from `a` to `b`, and 0 if `b` is not found from `a`. -/
noncomputable def distance (f : α → α) (a b : α) : ℕ :=
  sInf {i | f^[i] a = b}

/-- A step towards `b` makes the distance smaller by one. -/
theorem distance_step (hne : a ≠ b) (h : Reaches f a b) :
    distance f a b = distance f (f a) b + 1 := by
  have hrest : Reaches f (f a) b := h.cases_head.resolve_left hne
  have hshort : f^[distance f (f a) b] (f a) = b := Nat.sInf_mem (s := {i | f^[i] (f a) = b}) hrest
  refine le_antisymm (Nat.sInf_le (s := {i | f^[i] a = b}) hshort) ?_
  have hlong : f^[distance f a b] a = b := Nat.sInf_mem (s := {i | f^[i] a = b}) h
  cases hd : distance f a b with
  | zero =>
    rw [hd] at hlong
    exact absurd hlong hne
  | succ i =>
    rw [hd] at hlong
    exact Nat.succ_le_succ (Nat.sInf_le (s := {i | f^[i] (f a) = b}) hlong)

/-- Only the successors along the chain matter. -/
theorem distance_congr (hg : ∀ c, Reaches f a c → g c = f c) :
    distance g a b = distance f a b := by
  have hiter : ∀ i, g^[i] a = f^[i] a := by
    intro i
    induction i with
    | zero => rfl
    | succ i ih =>
      rw [Function.iterate_succ_apply', Function.iterate_succ_apply', ih]
      exact hg _ ⟨i, rfl⟩
  unfold distance
  simp only [hiter]

end Orbit
