import SysProg.Lib.Lts
import Mathlib.Tactic
import Mathlib.Algebra.BigOperators.Group.Finset.Basic

/-!
# Updates delivered through ordered lines

Sources put entries into lines, one line a source, and mark a line closed when no entry
follows. A sink takes entries from the heads of the lines, in any order between lines,
and adds their amounts to one total. Of a closed line that is empty it notes, once, the
total it then sees.

* `system` — the steps `make`, `close`, `apply`, `finish`;
* `Inv` — what was made is what was applied and what is still in the lines;
* `Inv.total_of_finished` — when every line is finished, the total is all that was made,
  and the latest note says the same.
-/

namespace Pipeline

universe u v w

/-- Replacing one term of a finite sum. -/
theorem sum_update {C : Type u} {M : Type v} [Fintype C] [DecidableEq C] [AddCommMonoid M]
    (f : C → M) (c : C) (x : M) :
    ∑ c', Function.update f c x c' + f c = ∑ c', f c' + x := by
  have hsplit : ∑ c', f c' = f c + ∑ c' ∈ Finset.univ \ {c}, f c' := by
    have h := Finset.sum_update_of_mem (Finset.mem_univ c) f (f c)
    rwa [Function.update_eq_self] at h
  rw [Finset.sum_update_of_mem (Finset.mem_univ c) f x, hsplit]
  abel

/-- What was made so far, the lines with their closing marks, the total of the sink and
its notes, latest first. -/
structure State (C : Type u) (E : Type v) (A : Type w) where
  made : A
  line : C → List E
  closed : C → Bool
  total : A
  closings : List (C × A)

/-- What a step does, and to which line. -/
inductive Label (C : Type u) (E : Type v) where
  | make (c : C) (entries : List E)
  | close (c : C)
  | apply (c : C)
  | finish (c : C)

variable {C : Type u} {E : Type v} {A : Type w} [AddCommGroup A]

/-- The amounts of a list of entries, added up. -/
def sum (amount : E → A) (entries : List E) : A :=
  (entries.map amount).sum

/-- The line has been noted by the sink. -/
def State.Finished (a : State C E A) (c : C) : Prop :=
  c ∈ a.closings.map Prod.fst

/-- Nothing made, all lines open and empty. -/
def Init (a : State C E A) : Prop :=
  a = ⟨0, fun _ => [], fun _ => false, 0, []⟩

variable [Fintype C] {amount : E → A} {a a' : State C E A}

/-- The inductive invariant: nothing is lost, finished lines stay empty, and once all
lines are finished the latest note is the total. -/
structure Inv (amount : E → A) (a : State C E A) : Prop where
  balance : a.total + ∑ c, sum amount (a.line c) = a.made
  finished : ∀ c, a.Finished c → a.closed c = true ∧ a.line c = []
  nodup : (a.closings.map Prod.fst).Nodup
  last : (∀ c, a.Finished c) → ∀ x ∈ a.closings.head?, x.2 = a.total

theorem init_inv (h : Init a) : Inv amount a := by
  unfold Init at h
  subst h
  refine ⟨by simp [sum], ?_, by simp, ?_⟩
  · intro c hc
    simp [State.Finished] at hc
  · intro _ x hx
    simp at hx

/-- When every line is finished, the total is all that was made, and so is the latest
note. -/
theorem Inv.total_of_finished (hinv : Inv amount a) (hall : ∀ c, a.Finished c) :
    a.total = a.made ∧ ∀ x ∈ a.closings.head?, x.2 = a.made := by
  have hzero : ∑ c, sum amount (a.line c) = 0 := by
    refine Finset.sum_eq_zero fun c _ => ?_
    rw [(hinv.finished c (hall c)).2]
    simp [sum]
  have htotal : a.total = a.made := by
    rw [← hinv.balance, hzero, add_zero]
  exact ⟨htotal, htotal ▸ hinv.last hall⟩

/-! ## Steps -/

variable [DecidableEq C]

instance decidableFinished (a : State C E A) (c : C) : Decidable (a.Finished c) :=
  inferInstanceAs (Decidable (c ∈ a.closings.map Prod.fst))

/-- Entries are made into open lines only; the sink takes the head of any line, and notes
a line that is closed, empty and not noted yet. -/
def Next (amount : E → A) : Label C E → State C E A → State C E A → Prop
  | .make c entries, a, a' =>
    a.closed c = false ∧
      a' = { a with made := a.made + sum amount entries,
                    line := Function.update a.line c (a.line c ++ entries) }
  | .close c, a, a' => a' = { a with closed := Function.update a.closed c true }
  | .apply c, a, a' =>
    ∃ e rest, a.line c = e :: rest ∧
      a' = { a with total := a.total + amount e, line := Function.update a.line c rest }
  | .finish c, a, a' =>
    a.closed c = true ∧ a.line c = [] ∧ ¬ a.Finished c ∧
      a' = { a with closings := (c, a.total) :: a.closings }

def system (amount : E → A) : Lts.System (State C E A) (Label C E) where
  Init := Init
  Next := Next amount

/-- The entries in the lines after one line was replaced. -/
theorem sum_lines_update (amount : E → A) (line : C → List E) (c : C) (entries : List E) :
    ∑ c', sum amount (Function.update line c entries c') + sum amount (line c) =
      ∑ c', sum amount (line c') + sum amount entries := by
  have h := sum_update (fun c' => sum amount (line c')) c (sum amount entries)
  have hcomp : (fun c' => sum amount (Function.update line c entries c')) =
      Function.update (fun c' => sum amount (line c')) c (sum amount entries) := by
    funext c'
    exact Function.apply_update (fun _ l => sum amount l) line c entries c'
  simp only [hcomp]
  exact h

/-- Replacing the line of an unfinished source, when what it holds more or less is made
or applied. -/
theorem Inv.replace_line (hinv : Inv amount a) {c : C} (hnot : ¬ a.Finished c)
    {made total : A} {entries : List E}
    (hsum : total + sum amount entries + a.made = a.total + sum amount (a.line c) + made) :
    Inv amount { a with made := made, total := total,
                        line := Function.update a.line c entries } := by
  refine ⟨?_, ?_, hinv.nodup, ?_⟩
  · have hlines := sum_lines_update amount a.line c entries
    have hbalance := hinv.balance
    show total + ∑ c', sum amount (Function.update a.line c entries c') = made
    -- solve both equations for the sum over the new lines
    have hnew : ∑ c', sum amount (Function.update a.line c entries c') =
        ∑ c', sum amount (a.line c') + sum amount entries - sum amount (a.line c) :=
      eq_sub_of_add_eq hlines
    have hold : ∑ c', sum amount (a.line c') = a.made - a.total :=
      eq_sub_of_add_eq' hbalance
    have hmade : made = total + sum amount entries + a.made - (a.total + sum amount (a.line c)) :=
      eq_sub_of_add_eq' hsum.symm
    rw [hnew, hold, hmade]
    abel
  · intro c' hc'
    have hne : c' ≠ c := by
      intro heq
      exact hnot (heq ▸ hc')
    show _ ∧ Function.update a.line c entries c' = []
    rw [Function.update_of_ne hne]
    exact hinv.finished c' hc'
  · intro hall
    exact absurd (hall c) hnot

theorem make_inv {c : C} {entries : List E} (hinv : Inv amount a)
    (h : Next amount (.make c entries) a a') : Inv amount a' := by
  rcases h with ⟨hopen, rfl⟩
  -- an open line is not finished
  have hnot : ¬ a.Finished c := by
    intro hc
    rw [(hinv.finished c hc).1] at hopen
    exact Bool.noConfusion hopen
  refine hinv.replace_line hnot ?_
  have happ : sum amount (a.line c ++ entries) =
      sum amount (a.line c) + sum amount entries := by simp [sum]
  rw [happ]
  abel

theorem close_inv {c : C} (hinv : Inv amount a)
    (h : Next amount (.close c) a a') : Inv amount a' := by
  have h' : a' = { a with closed := Function.update a.closed c true } := h
  subst h'
  refine ⟨hinv.balance, ?_, hinv.nodup, hinv.last⟩
  intro c' hc'
  rcases hinv.finished c' hc' with ⟨hclosed, hempty⟩
  refine ⟨?_, hempty⟩
  show Function.update a.closed c true c' = true
  by_cases heq : c' = c
  · rw [heq, Function.update_self]
  · rw [Function.update_of_ne heq, hclosed]

theorem apply_inv {c : C} (hinv : Inv amount a)
    (h : Next amount (.apply c) a a') : Inv amount a' := by
  rcases h with ⟨e, rest, hline, rfl⟩
  -- a line with an entry is not finished
  have hnot : ¬ a.Finished c := by
    intro hc
    rw [(hinv.finished c hc).2] at hline
    exact List.cons_ne_nil e rest hline.symm
  refine hinv.replace_line hnot ?_
  have hcons : sum amount (a.line c) = amount e + sum amount rest := by
    rw [hline]
    simp [sum]
  rw [hcons]
  abel

theorem finish_inv {c : C} (hinv : Inv amount a)
    (h : Next amount (.finish c) a a') : Inv amount a' := by
  rcases h with ⟨hclosed, hempty, hnot, rfl⟩
  refine ⟨hinv.balance, ?_, ?_, ?_⟩
  · intro c' hc'
    have hc' : c' = c ∨ a.Finished c' := by
      simpa [State.Finished] using hc'
    rcases hc' with rfl | hc'
    · exact ⟨hclosed, hempty⟩
    · exact hinv.finished c' hc'
  · rw [List.map_cons, List.nodup_cons]
    exact ⟨hnot, hinv.nodup⟩
  · intro _ x hx
    rw [List.head?_cons, Option.mem_some_iff] at hx
    rw [← hx]

theorem step_inv (l : Label C E) (hinv : Inv amount a) (hnext : Next amount l a a') :
    Inv amount a' := by
  cases l with
  | make => exact make_inv hinv hnext
  | close => exact close_inv hinv hnext
  | apply => exact apply_inv hinv hnext
  | finish => exact finish_inv hinv hnext

theorem reachable_inv (h : Lts.Reachable (system amount) a) : Inv amount a := by
  have hinit : ∀ a : State C E A, (system amount).Init a → Inv amount a :=
    fun _ h0 => init_inv h0
  exact h.invariant hinit fun l _ _ hinv hnext => step_inv l hinv hnext

end Pipeline
