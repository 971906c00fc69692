import Mathlib.Order.WellFounded
import Mathlib.Algebra.BigOperators.Group.Finset.Piecewise
import Mathlib.Algebra.Order.BigOperators.Group.Finset
import Mathlib.Data.Set.Finite.Lattice
import SysProg.Lib.Lts

/-!
# Progress of infinite executions

* `Behavior.Active` — there is always one more step;
* `Behavior.again_and_again` — steps that are not of one kind go down in a well-founded
  order, so an active execution takes steps of that kind again and again;
* `Behavior.exists_active` — of finitely many parts that share the steps, one takes steps forever;
* `sum_update_lt` — a sum over all threads goes down when the summand of one does.
-/

namespace Lts

universe u v w

variable {σ : Type u} {ℓ : Type v} {S : System σ ℓ}

namespace Behavior

variable (e : Behavior S)

/-- Steps are taken forever. -/
def Active : Prop :=
  ∀ n, ∃ k, n ≤ k ∧ e.label k ≠ none

/-- The first step at or after a position. -/
theorem first_step {n k : ℕ} (hk : n ≤ k) (hlabel : e.label k ≠ none) :
    ∃ m l, n ≤ m ∧ e.label m = some l ∧ e.state m = e.state n := by
  classical
  have hex : ∃ m, n ≤ m ∧ e.label m ≠ none := ⟨k, hk, hlabel⟩
  rcases Nat.find_spec hex with ⟨hm, hl⟩
  rcases Option.ne_none_iff_exists'.mp hl with ⟨l, hl⟩
  refine ⟨Nat.find hex, l, hm, hl, ?_⟩
  refine e.stable_between (P := fun s => s = e.state n) hm ?_ rfl
  intro j l' hj hlt hl'
  exact absurd ⟨hj, by simp [hl']⟩ (Nat.find_min hex hlt)

/-- Every step lowers the measure or is one of the steps `P`: then `P` happens again and
again. -/
theorem again_and_again {α : Type w} {r : α → α → Prop} (hr : WellFounded r) (μ : σ → α)
    {P : ℓ → Prop} (hactive : e.Active)
    (hstep : ∀ k l, e.label k = some l → ¬ P l → r (μ (e.state (k + 1))) (μ (e.state k))) (n : ℕ) :
    ∃ k l, n ≤ k ∧ e.label k = some l ∧ P l := by
  generalize ha : μ (e.state n) = a
  induction a using hr.induction generalizing n with
  | _ a ih =>
    rcases hactive n with ⟨k, hk, hlabel⟩
    rcases e.first_step hk hlabel with ⟨m, l, hm, hl, hstate⟩
    by_cases hP : P l
    · exact ⟨m, l, hm, hl, hP⟩
    · have hless := hstep m l hl hP
      rw [hstate, ha] at hless
      rcases ih _ hless (m + 1) rfl with ⟨k', l', hk', hl', hP'⟩
      exact ⟨k', l', by omega, hl', hP'⟩

/-- An execution that is not active has a last step. -/
theorem quiet (hnot : ¬ e.Active) : ∃ n, ∀ k, n ≤ k → e.label k = none := by
  unfold Active at hnot
  simp only [not_forall, not_exists, not_and, not_not] at hnot
  exact hnot

/-- Finitely many parts share the steps of an active execution: one of them is active. -/
theorem exists_active {ι : Type*} [Finite ι] {τ κ : Type*} {T : System τ κ} (part : ι → Behavior T)
    (hactive : e.Active) (hpart : ∀ k l, e.label k = some l → ∃ i, (part i).label k ≠ none) :
    ∃ i, (part i).Active := by
  by_contra hnone
  have hlast : ∀ i, ∃ n, ∀ k, n ≤ k → (part i).label k = none :=
    fun i => (part i).quiet fun hi => hnone ⟨i, hi⟩
  choose last hlast using hlast
  -- after the last step of every part there is one more
  rcases (Set.finite_range last).bddAbove with ⟨n, hn⟩
  rcases hactive n with ⟨k, hk, hlabel⟩
  rcases Option.ne_none_iff_exists'.mp hlabel with ⟨l, hl⟩
  rcases hpart k l hl with ⟨i, hi⟩
  exact hi (hlast i k ((hn ⟨i, rfl⟩).trans hk))

end Behavior

/-! ## Sums over the threads -/

section Sum

variable {ι : Type u} [Fintype ι] [DecidableEq ι] {α : Type v} {pc : ι → α} {t : ι} {a : α}
  {f g : α → ℕ}

/-- The summand of `t` goes down and the others stay. -/
theorem sum_update_lt (hother : ∀ i, i ≠ t → g (pc i) = f (pc i)) (ht : g a < f (pc t)) :
    ∑ i, g (Function.update pc t a i) < ∑ i, f (pc i) := by
  refine Finset.sum_lt_sum ?_ ⟨t, Finset.mem_univ t, by rwa [Function.update_self]⟩
  intro i _
  by_cases hi : i = t
  · subst hi
    rw [Function.update_self]
    exact ht.le
  · rw [Function.update_of_ne hi, hother i hi]

/-- The summand of `t` is exchanged. -/
theorem sum_update_add (f : α → ℕ) (pc : ι → α) (t : ι) (a : α) :
    ∑ i, f (Function.update pc t a i) + f (pc t) = ∑ i, f (pc i) + f a := by
  have hnew := Finset.sum_update_of_mem (Finset.mem_univ t) (fun i => f (pc i)) (f a)
  have hold := Finset.sum_eq_add_sum_sdiff_singleton_of_mem (Finset.mem_univ t) fun i => f (pc i)
  simp only [← Function.apply_update fun _ => f] at hnew
  omega

end Sum

end Lts
