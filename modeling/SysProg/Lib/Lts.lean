import Mathlib.Order.Basic
import Mathlib.Data.Nat.Init
import Mathlib.Tactic.Choose

/-!
# Labelled transition systems

A system is an initial predicate and a labelled next-state relation. Three views
of its executions are used:

* `Reachable` — the states some finite execution ends in, for invariants and
  simulations;
* `Run` — a finite execution with its history of labels and pre-states, for
  statements that compare what every step did with what every state satisfies;
* `Behavior` — an infinite sequence with stuttering, for statements that mention
  positions in time (a call starts at `a` and returns at `b`).
-/

namespace Lts

universe u v

/-- A labelled transition system: initial states and labelled steps. -/
structure System (σ : Type u) (ℓ : Type v) where
  Init : σ → Prop
  Next : ℓ → σ → σ → Prop

variable {σ : Type u} {ℓ : Type v} (S : System σ ℓ)

/-- The states reachable from an initial state in finitely many steps. -/
inductive Reachable : σ → Prop where
  | init {s : σ} : S.Init s → Reachable s
  | step {s s' : σ} (l : ℓ) : Reachable s → S.Next l s s' → Reachable s'

/-- Inductive invariance: what holds initially and is kept by every step holds in
every reachable state. -/
theorem Reachable.invariant {S : System σ ℓ} {inv : σ → Prop}
    (hinit : ∀ s, S.Init s → inv s)
    (hstep : ∀ l s s', inv s → S.Next l s s' → inv s')
    {s : σ} (h : Reachable S s) : inv s := by
  induction h with
  | init h0 => exact hinit _ h0
  | step l _ hnext ih => exact hstep l _ _ ih hnext

/-- Forward simulation with stuttering: when every step is matched by at most one step
of `A` that restores the relation, every reachable state is related to a state `A`
reaches. -/
theorem Reachable.simulation {S : System σ ℓ} {α : Type*} {κ : Type*} {A : System α κ}
    {rel : σ → α → Prop}
    (hinit : ∀ s, S.Init s → ∃ a, A.Init a ∧ rel s a)
    (hstep : ∀ l s s' a, Reachable A a → rel s a → S.Next l s s' →
      ∃ a', (a' = a ∨ ∃ k, A.Next k a a') ∧ rel s' a')
    {s : σ} (h : Reachable S s) : ∃ a, Reachable A a ∧ rel s a := by
  induction h with
  | init h0 =>
    rcases hinit _ h0 with ⟨a, ha, hrel⟩
    exact ⟨a, .init ha, hrel⟩
  | step l _ hnext ih =>
    rcases ih with ⟨a, ha, hrel⟩
    rcases hstep l _ _ a ha hrel hnext with ⟨a', hmatch, hrel'⟩
    rcases hmatch with rfl | ⟨k, hk⟩
    · exact ⟨a', ha, hrel'⟩
    · exact ⟨a', .step k ha hk, hrel'⟩

/-- The system in which a step is only taken when `G` holds of its label and
pre-state. -/
def System.guarded (G : ℓ → σ → Prop) : System σ ℓ where
  Init := S.Init
  Next := fun l s s' => G l s ∧ S.Next l s s'

/-- Inductive invariance of a guarded system: only guarded steps have to keep it. -/
theorem Reachable.invariant_guarded {S : System σ ℓ} {G : ℓ → σ → Prop} {inv : σ → Prop}
    (hinit : ∀ s, S.Init s → inv s)
    (hstep : ∀ l s s', inv s → G l s → S.Next l s s' → inv s')
    {s : σ} (h : Reachable (S.guarded G) s) : inv s := by
  induction h with
  | init h0 => exact hinit _ h0
  | step l _ hnext ih => exact hstep l _ _ ih hnext.1 hnext.2

/-- A finite execution ending in a state. The history holds the label and the
pre-state of every step, latest first. -/
inductive Run : List (ℓ × σ) → σ → Prop where
  | init {s : σ} : S.Init s → Run [] s
  | step {h : List (ℓ × σ)} {s s' : σ} (l : ℓ) :
      Run h s → S.Next l s s' → Run ((l, s) :: h) s'

/-- Every state of the run satisfies `P`: the pre-state of every step and the
last state. -/
def Always (P : σ → Prop) (h : List (ℓ × σ)) (s : σ) : Prop :=
  P s ∧ ∀ x ∈ h, P x.2

/-- Every step of the run was taken with `G` true of its label and pre-state. -/
def Steps (G : ℓ → σ → Prop) (h : List (ℓ × σ)) : Prop :=
  ∀ x ∈ h, G x.1 x.2

variable {S} {h : List (ℓ × σ)} {s : σ}

theorem Run.reachable (hr : Run S h s) : Reachable S s := by
  induction hr with
  | init h0 => exact .init h0
  | step l _ hnext ih => exact .step l ih hnext

/-- Every entry of the history is a step of the system. -/
theorem Run.next_of_mem (hr : Run S h s) {x : ℓ × σ} (hx : x ∈ h) :
    ∃ s', S.Next x.1 x.2 s' := by
  induction hr with
  | init => simp at hx
  | step l _ hnext ih =>
    rcases List.mem_cons.mp hx with rfl | hx
    · exact ⟨_, hnext⟩
    · exact ih hx

/-- A run of a system whose steps, relabelled, are steps of another one is a run there. -/
theorem Run.relabel {κ : Type*} {S' : System σ κ} {f : ℓ → κ} (hinit : ∀ s, S.Init s → S'.Init s)
    (hstep : ∀ l s s', S.Next l s s' → S'.Next (f l) s s') (hr : Run S h s) :
    Run S' (h.map fun x => (f x.1, x.2)) s := by
  induction hr with
  | init h0 => exact .init (hinit _ h0)
  | step l _ hnext ih => exact ih.step (f l) (hstep _ _ _ hnext)

/-- Take the steps of a schedule one after the other, extending a history. -/
def exec (step : ℓ → σ → Option σ) : List ℓ → List (ℓ × σ) → σ → Option (List (ℓ × σ) × σ)
  | [], h, s => some (h, s)
  | l :: ls, h, s => (step l s).bind fun s' => exec step ls ((l, s) :: h) s'

/-- Executing a schedule with a step function of the system extends a run. -/
theorem Run.exec {step : ℓ → σ → Option σ} (hS : ∀ l s s', step l s = some s' → S.Next l s s')
    {ls : List ℓ} {h' : List (ℓ × σ)} {s' : σ} (hr : Run S h s)
    (hx : Lts.exec step ls h s = some (h', s')) : Run S h' s' := by
  induction ls generalizing h s with
  | nil =>
    simp only [Lts.exec, Option.some.injEq, Prod.mk.injEq] at hx
    rcases hx with ⟨rfl, rfl⟩
    exact hr
  | cons l ls ih =>
    simp only [Lts.exec, Option.bind_eq_some_iff] at hx
    rcases hx with ⟨s₁, hs₁, hx⟩
    exact ih (hr.step l (hS l s s₁ hs₁)) hx

/-- Invariance along guarded runs: if guarded steps keep `inv`, a run all of whose
steps are guarded satisfies `inv` at its end and at every earlier state. -/
theorem Run.always_of_steps {inv : σ → Prop} {G : ℓ → σ → Prop}
    (hinit : ∀ s, S.Init s → inv s)
    (hstep : ∀ l s s', inv s → G l s → S.Next l s s' → inv s')
    (hr : Run S h s) (hG : Steps G h) : Always inv h s := by
  induction hr with
  | init h0 => exact ⟨hinit _ h0, fun x hx => by simp at hx⟩
  | @step h s s' l _ hnext ih =>
    have hprev : Always inv h s := ih fun x hx => hG x (List.mem_cons_of_mem _ hx)
    have hg : G l s := hG (l, s) List.mem_cons_self
    refine ⟨hstep l s s' hprev.1 hg hnext, fun x hx => ?_⟩
    rcases List.mem_cons.mp hx with rfl | hx
    · exact hprev.1
    · exact hprev.2 x hx

/-- The exact condition of a run: when guarded steps keep `inv`, `inv` gives `P`,
and an unguarded step from an `inv` state always lands outside `P`, then `P`
holds all along a run exactly when every one of its steps was guarded. -/
theorem Run.always_iff_steps {inv P : σ → Prop} {G : ℓ → σ → Prop}
    (hinit : ∀ s, S.Init s → inv s)
    (hstep : ∀ l s s', inv s → G l s → S.Next l s s' → inv s')
    (hgood : ∀ s, inv s → P s)
    (hbad : ∀ l s s', inv s → ¬ G l s → S.Next l s s' → ¬ P s')
    (hr : Run S h s) : Always P h s ↔ Steps G h := by
  constructor
  · intro hP
    induction hr with
    | init => intro x hx; simp at hx
    | @step h s s' l hrun hnext ih =>
      have hsteps : Steps G h :=
        ih ⟨hP.2 (l, s) List.mem_cons_self,
          fun x hx => hP.2 x (List.mem_cons_of_mem _ hx)⟩
      have hinv : inv s := (hrun.always_of_steps hinit hstep hsteps).1
      intro x hx
      rcases List.mem_cons.mp hx with rfl | hx
      · -- an unguarded last step would have left `P`
        by_contra hg
        exact hbad l s s' hinv hg hnext hP.1
      · exact hsteps x hx
  · intro hG
    have hinv := hr.always_of_steps hinit hstep hG
    exact ⟨hgood s hinv.1, fun x hx => hgood x.2 (hinv.2 x hx)⟩

/-- An infinite execution with stuttering: a position without a label leaves the
state as it is, so every finite run is the beginning of a behavior. -/
structure Behavior (S : System σ ℓ) where
  state : ℕ → σ
  label : ℕ → Option ℓ
  init : S.Init (state 0)
  stutter : ∀ k, label k = none → state (k + 1) = state k
  next : ∀ k l, label k = some l → S.Next l (state k) (state (k + 1))

namespace Behavior

variable (e : Behavior S)

theorem reachable (k : ℕ) : Reachable S (e.state k) := by
  induction k with
  | zero => exact .init e.init
  | succ k ih =>
    cases hl : e.label k with
    | none => rw [e.stutter k hl]; exact ih
    | some l => exact .step l ih (e.next k l hl)

/-- A behavior all of whose steps are guarded is one of the guarded system. -/
theorem reachable_guarded {G : ℓ → σ → Prop} (hG : ∀ k l, e.label k = some l → G l (e.state k))
    (k : ℕ) : Reachable (S.guarded G) (e.state k) := by
  induction k with
  | zero => exact .init e.init
  | succ k ih =>
    cases hl : e.label k with
    | none => rw [e.stutter k hl]; exact ih
    | some l => exact .step l ih ⟨hG k l hl, e.next k l hl⟩

/-- A fact that no step of the window `[a, b)` falsifies is kept from `a` to `b`. -/
theorem stable_between {P : σ → Prop} {a b : ℕ} (hab : a ≤ b)
    (hstep : ∀ k l, a ≤ k → k < b → e.label k = some l →
      P (e.state k) → P (e.state (k + 1)))
    (ha : P (e.state a)) : P (e.state b) := by
  induction b, hab using Nat.le_induction with
  | base => exact ha
  | succ b hab ih =>
    have hb : P (e.state b) :=
      ih fun k l hk hkb hl => hstep k l hk (Nat.lt_succ_of_lt hkb) hl
    cases hl : e.label b with
    | none => rw [e.stutter b hl]; exact hb
    | some l => exact hstep b l hab (Nat.lt_succ_self b) hl hb

/-- The behavior of a schedule: its steps one after the other, without those that are
not enabled when it is their turn, and then no step any more. -/
def ofSchedule (step : ℓ → σ → Option σ) (hS : ∀ l s s', step l s = some s' → S.Next l s s')
    (s₀ : σ) (hinit : S.Init s₀) (schedule : List ℓ) : Behavior S where
  state k := (schedule.take k).foldl (fun s l => (step l s).getD s) s₀
  label k := schedule[k]?.filter fun l =>
    (step l ((schedule.take k).foldl (fun s l => (step l s).getD s) s₀)).isSome
  init := hinit
  stutter := by
    intro k hk
    rw [List.take_add_one, List.foldl_append]
    cases hl : schedule[k]? with
    | none => rfl
    | some =>
      simp only [hl, Option.filter_some, ite_eq_right_iff, reduceCtorEq, imp_false,
        Bool.not_eq_true, Option.isSome_eq_false_iff, Option.isNone_iff_eq_none] at hk
      simp [hk]
  next := by
    intro k l hk
    rw [Option.filter_eq_some_iff] at hk
    rcases Option.isSome_iff_exists.mp hk.2 with ⟨s', hs'⟩
    rw [List.take_add_one, List.foldl_append, hk.1]
    simp only [Option.toList_some, List.foldl_cons, List.foldl_nil, hs', Option.getD_some]
    exact hS l _ s' hs'

theorem mem_of_ofSchedule_label {step : ℓ → σ → Option σ}
    {hS : ∀ l s s', step l s = some s' → S.Next l s s'} {s₀ : σ} {hinit : S.Init s₀}
    {schedule : List ℓ} {k : ℕ} {l : ℓ}
    (hl : (ofSchedule step hS s₀ hinit schedule).label k = some l) : l ∈ schedule :=
  List.mem_of_getElem? (Option.filter_eq_some_iff.mp hl).1

/-- A part of the state seen on its own: a step of the system is a step of the part or leaves
the part alone. -/
def project {τ κ : Type*} {T : System τ κ} (view : σ → τ) (part : σ → ℓ → Option κ)
    (hinit : ∀ s, S.Init s → T.Init (view s))
    (hstep : ∀ k l κ, e.label k = some l → part (e.state k) l = some κ →
      T.Next κ (view (e.state k)) (view (e.state (k + 1))))
    (hrest : ∀ k l, e.label k = some l → part (e.state k) l = none →
      view (e.state (k + 1)) = view (e.state k)) : Behavior T where
  state k := view (e.state k)
  label k := (e.label k).bind (part (e.state k))
  init := hinit _ e.init
  stutter k hk := by
    rcases Option.bind_eq_none_iff.mp hk with hk
    cases hl : e.label k with
    | none => rw [e.stutter k hl]
    | some l => exact hrest k l hl (hk l hl)
  next k κ hκ := by
    rcases Option.bind_eq_some_iff.mp hκ with ⟨l, hl, hpart⟩
    exact hstep k l κ hl hpart

/-- Forward simulation of behaviors: when every step is matched by one step of `T` with the same
visible event, or by none if it has no visible event, then every behavior has a behavior of `T`
beside it, with the same events at the same positions. -/
theorem exists_simulation {τ κ ε : Type*} {T : System τ κ} {visible : ℓ → Option ε}
    {visible' : κ → Option ε} {rel : σ → τ → Prop} (hinit : ∀ s, S.Init s → ∃ a, T.Init a ∧ rel s a)
    (hstep : ∀ l s s' a, rel s a → S.Next l s s' → (rel s' a ∧ visible l = none) ∨
      ∃ k a', T.Next k a a' ∧ rel s' a' ∧ visible' k = visible l) :
    ∃ f : Behavior T, (∀ k, rel (e.state k) (f.state k)) ∧
      ∀ k, (f.label k).bind visible' = (e.label k).bind visible := by
  -- one step, from a related state
  have hmatch : ∀ k (a : {a // rel (e.state k) a}), ∃ (l : Option κ)
      (a' : {a // rel (e.state (k + 1)) a}), (l = none → a'.1 = a.1) ∧
        (∀ x, l = some x → T.Next x a.1 a'.1) ∧ l.bind visible' = (e.label k).bind visible := by
    rintro k ⟨a, ha⟩
    cases hl : e.label k with
    | none =>
      refine ⟨none, ⟨a, by rw [e.stutter k hl]; exact ha⟩, fun _ => rfl, ?_, rfl⟩
      intro x hx
      cases hx
    | some l =>
      rcases hstep l _ _ a ha (e.next k l hl) with ⟨hrel, hvis⟩ | ⟨x, a', hnext, hrel, hvis⟩
      · refine ⟨none, ⟨a, hrel⟩, fun _ => rfl, ?_, hvis.symm⟩
        intro x hx
        cases hx
      · refine ⟨some x, ⟨a', hrel⟩, ?_, ?_, hvis⟩
        · intro hx
          cases hx
        · rintro y hy
          rcases Option.some.inj hy with rfl
          exact hnext
  -- and then step after step
  choose label next hstutter hnext hvisible using hmatch
  rcases hinit _ e.init with ⟨a₀, ha₀, hrel₀⟩
  let state : ∀ k, {a // rel (e.state k) a} := fun k => Nat.rec ⟨a₀, hrel₀⟩ next k
  exact ⟨⟨fun k => (state k).1, fun k => label k (state k), ha₀,
    fun k => hstutter k (state k), fun k l => hnext k (state k) l⟩,
    fun k => (state k).2, fun k => hvisible k (state k)⟩

end Behavior

end Lts
