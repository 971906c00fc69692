import Mathlib.Tactic

/-!
# Loops

A loop is a step function: from a loop state it goes to the next one or leaves the
loop with a result. `Loop.run` takes a bounded number of steps, so a loop that does
not end is one for which every bound gives `none`.

* `run_mono` — a larger bound gives the same result;
* `run_of_measure` — total correctness: an invariant that every step keeps while a
  measure goes down gives a result within the measure, with the postcondition;
* `run_of_wf` — the same for a loop without a bound that is known in advance;
* `run_post` — partial correctness: the invariant gives the postcondition of a result;
* `run_related` — two loops in lockstep;
* `Reaches` — the states that a loop comes to;
* `Fair`, `Fair.wait` — what happens again and again, and how far away it is.
-/

namespace Loop

universe u v

variable {σ : Type u} {ρ : Type v} {step : σ → σ ⊕ ρ}

/-- At most `n` steps of the loop. -/
def run (step : σ → σ ⊕ ρ) : ℕ → σ → Option ρ
  | 0, _ => none
  | n + 1, s =>
      match step s with
      | .inl s' => run step n s'
      | .inr r => some r

theorem run_succ_inl {s s' : σ} {n : ℕ} (h : step s = .inl s') :
    run step (n + 1) s = run step n s' := by
  simp [run, h]

theorem run_succ_inr {s : σ} {r : ρ} {n : ℕ} (h : step s = .inr r) :
    run step (n + 1) s = some r := by
  simp [run, h]

/-- A loop that stays where it is does not end. -/
theorem run_stuck {s : σ} (h : step s = .inl s) (n : ℕ) : run step n s = none := by
  induction n with
  | zero => rfl
  | succ n ih => rw [run_succ_inl h, ih]

/-- Total correctness of a loop. -/
theorem run_of_measure (inv : σ → Prop) (post : ρ → Prop) (measure : σ → ℕ)
    (hstep : ∀ s s', inv s → step s = .inl s' → inv s' ∧ measure s' < measure s)
    (hdone : ∀ s r, inv s → step s = .inr r → post r)
    {n : ℕ} {s : σ} (hs : inv s) (hn : measure s < n) :
    ∃ r, run step n s = some r ∧ post r := by
  induction n generalizing s with
  | zero => omega
  | succ n ih =>
    cases hstp : step s with
    | inl s' =>
      rcases hstep s s' hs hstp with ⟨hs', hlt⟩
      rw [run_succ_inl hstp]
      exact ih hs' (by omega)
    | inr r => exact ⟨r, run_succ_inr hstp, hdone s r hs hstp⟩

/-- Partial correctness of a loop. -/
theorem run_post (inv : σ → Prop) (post : ρ → Prop)
    (hstep : ∀ s s', inv s → step s = .inl s' → inv s')
    (hdone : ∀ s r, inv s → step s = .inr r → post r)
    {n : ℕ} {s : σ} {r : ρ} (hs : inv s) (hrun : run step n s = some r) : post r := by
  induction n generalizing s with
  | zero => simp [run] at hrun
  | succ n ih =>
    cases hstp : step s with
    | inl s' =>
      rw [run_succ_inl hstp] at hrun
      exact ih (hstep s s' hs hstp) hrun
    | inr r' =>
      rw [run_succ_inr hstp] at hrun
      rcases Option.some.inj hrun with rfl
      exact hdone s r' hs hstp

theorem run_mono {n m : ℕ} (hnm : n ≤ m) {s : σ} {r : ρ} (h : run step n s = some r) :
    run step m s = some r := by
  induction n generalizing m s with
  | zero => simp [run] at h
  | succ n ih =>
    cases m with
    | zero => exact absurd hnm (Nat.not_succ_le_zero n)
    | succ =>
      cases hs : step s with
      | inl =>
        rw [run_succ_inl hs] at h ⊢
        exact ih (Nat.le_of_succ_le_succ hnm) h
      | inr =>
        rw [run_succ_inr hs] at h ⊢
        exact h

/-- Two loops that go on and end together have related results. -/
theorem run_related {σ' : Type*} {ρ' : Type*} {step' : σ' → σ' ⊕ ρ'} (rel : σ → σ' → Prop)
    (post : ρ → ρ' → Prop)
    (hstep : ∀ s t, rel s t →
      (∃ s' t', step s = .inl s' ∧ step' t = .inl t' ∧ rel s' t') ∨
      (∃ r r', step s = .inr r ∧ step' t = .inr r' ∧ post r r'))
    {n : ℕ} {s : σ} {t : σ'} {r : ρ} (hrel : rel s t) (hrun : run step n s = some r) :
    ∃ r', run step' n t = some r' ∧ post r r' := by
  induction n generalizing s t with
  | zero => simp [run] at hrun
  | succ n ih =>
    rcases hstep s t hrel with ⟨s', t', hs, ht, hrel'⟩ | ⟨r', r'', hs, ht, hpost⟩
    · rw [run_succ_inl hs] at hrun
      rw [run_succ_inl ht]
      exact ih hrel' hrun
    · rw [run_succ_inr hs] at hrun
      rcases Option.some.inj hrun with rfl
      exact ⟨r'', run_succ_inr ht, hpost⟩

/-- The loop comes from `s` to another state. -/
inductive Reaches (step : σ → σ ⊕ ρ) (s : σ) : σ → Prop where
  | refl : Reaches step s s
  | next {t t' : σ} : Reaches step s t → step t = .inl t' → Reaches step s t'

/-- What every step keeps holds in every state that the loop comes to. -/
theorem Reaches.invariant (inv : σ → Prop) (hstep : ∀ s s', inv s → step s = .inl s' → inv s')
    {s t : σ} (hs : inv s) (h : Reaches step s t) : inv t := by
  induction h with
  | refl => exact hs
  | next _ hnext ih => exact hstep _ _ ih hnext

/-- The state after `n` steps, if the loop has not ended by then. -/
def after (step : σ → σ ⊕ ρ) : ℕ → σ → Option σ
  | 0, s => some s
  | n + 1, s =>
      match step s with
      | .inl s' => after step n s'
      | .inr _ => none

theorem Reaches.head {s s' t : σ} (hstep : step s = .inl s') (h : Reaches step s' t) :
    Reaches step s t := by
  induction h with
  | refl => exact .next .refl hstep
  | next _ hnext ih => exact ih.next hnext

theorem reaches_of_after {n : ℕ} {s t : σ} (h : after step n s = some t) : Reaches step s t := by
  induction n generalizing s with
  | zero => exact Option.some.inj h ▸ .refl
  | succ n ih =>
    simp only [after] at h
    cases hs : step s with
    | inl =>
      rw [hs] at h
      exact .head hs (ih h)
    | inr =>
      rw [hs] at h
      cases h

/-- The result does not depend on the bound. -/
theorem run_unique {n m : ℕ} {s : σ} {r r' : ρ} (h : run step n s = some r)
    (h' : run step m s = some r') : r = r' := by
  have hn := run_mono (le_max_left n m) h
  have hm := run_mono (le_max_right n m) h'
  exact Option.some.inj (hn.symm.trans hm)

/-- Total correctness of a loop without a bound that is known in advance: every step goes
down in a well-founded order. -/
theorem run_of_wf {α : Type*} {rel : α → α → Prop} (hwf : WellFounded rel) (inv : σ → Prop)
    (post : ρ → Prop) (rank : σ → α)
    (hstep : ∀ s s', inv s → step s = .inl s' → inv s' ∧ rel (rank s') (rank s))
    (hdone : ∀ s r, inv s → step s = .inr r → post r)
    {s : σ} (hs : inv s) : ∃ n r, run step n s = some r ∧ post r := by
  -- induction on the rank of the state
  induction ha : rank s using hwf.induction generalizing s with
  | h a ih =>
    cases hstp : step s with
    | inl s' =>
      rcases hstep s s' hs hstp with ⟨hs', hlt⟩
      rcases ih (rank s') (ha ▸ hlt) hs' rfl with ⟨n, r, hrun, hpost⟩
      exact ⟨n + 1, r, (run_succ_inl hstp).trans hrun, hpost⟩
    | inr r => exact ⟨1, r, run_succ_inr hstp, hdone s r hs hstp⟩

/-! ## Waiting -/

/-- After every point there is one where `p` holds. -/
def Fair (p : ℕ → Prop) : Prop :=
  ∀ i, ∃ j, i ≤ j ∧ p j

open Classical in
/-- The distance to the next point where `p` holds. -/
noncomputable def Fair.wait {p : ℕ → Prop} (h : Fair p) (i : ℕ) : ℕ :=
  Nat.find (h i) - i

theorem Fair.wait_succ_lt {p : ℕ → Prop} (h : Fair p) {i : ℕ} (hi : ¬ p i) :
    h.wait (i + 1) < h.wait i := by
  classical
  have hspec := Nat.find_spec (h i)
  -- the next point is not `i` itself, so it is also the next one after `i`
  have hne : i ≠ Nat.find (h i) := by
    intro heq
    exact hi (heq ▸ hspec.2)
  have hlt : i + 1 ≤ Nat.find (h i) := Nat.lt_of_le_of_ne hspec.1 hne
  have hle : Nat.find (h (i + 1)) ≤ Nat.find (h i) := Nat.find_min' _ ⟨hlt, hspec.2⟩
  have hge := (Nat.find_spec (h (i + 1))).1
  have hwait : h.wait (i + 1) = Nat.find (h (i + 1)) - (i + 1) := rfl
  have hwait' : h.wait i = Nat.find (h i) - i := rfl
  omega

end Loop
