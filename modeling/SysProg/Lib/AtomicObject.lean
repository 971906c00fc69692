import Mathlib.Logic.Function.Basic
import Mathlib.Tactic
import SysProg.Lib.Lts

/-!
# Atomic objects

An object is shared by threads. A call of it is a sequence of actions, and every action takes
effect at one instant between the start and the end of the call. An implementation that
simulates the atomic object with the same calls and returns is linearizable when every call is
one action.

* `Object` — the values, the actions of a call and what an action does;
* `Object.system` — any number of threads, any interleaving of their actions;
* `Call` — a completed call in a sequence of visible events;
* `TakesEffect`, `Effects` — the instants at which the actions of a call take effect;
* `Call.effects` — every completed call has them.
-/

namespace AtomicObject

open Lts

universe u v w x

/-- The values an object can have, the actions of each operation, and the results and effects of
an action. -/
structure Object (σ : Type u) (Op : Type v) (Act : Type w) (Res : Type x) where
  Init : σ → Prop
  actions : Op → List Act
  Effect : Act → Res → σ → σ → Prop

/-- What a thread does: it calls an operation, one of the actions takes effect, or the call
returns the results of all of them. -/
inductive Event (Op : Type v) (Res : Type x) where
  | invoke (op : Op)
  | act
  | ret (results : List Res)
deriving DecidableEq, Repr

/-- The value, and for each thread that is in a call the actions that are left and the results
so far. -/
structure State (σ : Type u) (Act : Type w) (Res : Type x) (Tid : Type*) where
  value : σ
  call : Tid → Option (List Act × List Res)

variable {σ : Type u} {Op : Type v} {Act : Type w} {Res : Type x} {Tid : Type*} [DecidableEq Tid]

/-- One step of thread `t`. -/
inductive Stepped (O : Object σ Op Act Res) (t : Tid) (s : State σ Act Res Tid) :
    Event Op Res → State σ Act Res Tid → Prop where
  | invoke (op : Op) : s.call t = none →
      Stepped O t s (.invoke op) { s with call := Function.update s.call t (some (O.actions op, [])) }
  | act (a : Act) (todo : List Act) (done : List Res) (r : Res) (value : σ) :
      s.call t = some (a :: todo, done) → O.Effect a r s.value value →
      Stepped O t s .act ⟨value, Function.update s.call t (some (todo, done ++ [r]))⟩
  | ret (results : List Res) : s.call t = some ([], results) →
      Stepped O t s (.ret results) { s with call := Function.update s.call t none }

/-- Any number of threads, any interleaving. -/
def Object.system (O : Object σ Op Act Res) (Tid : Type*) [DecidableEq Tid] :
    System (State σ Act Res Tid) (Tid × Event Op Res) where
  Init s := O.Init s.value ∧ ∀ t, s.call t = none
  Next l s s' := Stepped O l.1 s l.2 s'

/-- Calls and returns are seen from outside. -/
def visible : Tid × Event Op Res → Option (Tid × Event Op Res)
  | (t, .invoke op) => some (t, .invoke op)
  | (_, .act) => none
  | (t, .ret results) => some (t, .ret results)

/-- Thread `t` calls `op` at position `i`, and the call returns `results` at position `j`. -/
structure Call (seen : ℕ → Option (Tid × Event Op Res)) (t : Tid) (op : Op) (results : List Res)
    (i j : ℕ) : Prop where
  invoke : seen i = some (t, .invoke op)
  lt : i < j
  ret : seen j = some (t, .ret results)
  inside : ∀ m, i < m → m < j → ∀ results, seen m ≠ some (t, .ret results)

variable {O : Object σ Op Act Res}

/-- The action takes effect at position `m`, with this result. -/
structure TakesEffect (e : Behavior (O.system Tid)) (t : Tid) (a : Act) (r : Res) (m : ℕ) : Prop where
  label : e.label m = some (t, .act)
  call : ∃ todo done, (e.state m).call t = some (a :: todo, done) ∧
    (e.state (m + 1)).call t = some (todo, done ++ [r])
  effect : O.Effect a r (e.state m).value (e.state (m + 1)).value

/-- The actions take effect one after the other, with these results, at positions from `i` to
before `j`. -/
def Effects (e : Behavior (O.system Tid)) (t : Tid) : List Act → List Res → ℕ → ℕ → Prop
  | [], [], i, j => i ≤ j
  | a :: as, r :: rs, i, j => ∃ m, i ≤ m ∧ m < j ∧ TakesEffect e t a r m ∧
      Effects e t as rs (m + 1) j
  | _, _, _, _ => False

variable {e : Behavior (O.system Tid)} {t : Tid} {op : Op} {as : List Act} {rs : List Res} {a : Act}
  {r : Res} {i j m : ℕ}

theorem Effects.mono {j' : ℕ} (h : Effects e t as rs i j) (hj : j ≤ j') : Effects e t as rs i j' := by
  induction as, rs, i, j using Effects.induct with
  | case1 => exact Nat.le_trans h hj
  | case2 a as r rs i j ih =>
    rcases h with ⟨m, hi, hm, heffect, hrest⟩
    exact ⟨m, hi, hm.trans_le hj, heffect, ih m hrest hj⟩
  | case3 => simp [Effects] at h

/-- One more action takes effect at position `m`. -/
theorem Effects.concat (h : Effects e t as rs i m) (heffect : TakesEffect e t a r m) :
    Effects e t (as ++ [a]) (rs ++ [r]) i (m + 1) := by
  induction as, rs, i, m using Effects.induct with
  | case1 i m => exact ⟨m, h, Nat.lt_succ_self m, heffect, le_rfl⟩
  | case2 a' as r' rs i m ih =>
    rcases h with ⟨n, hi, hn, heffect', hrest⟩
    exact ⟨n, hi, hn.trans (Nat.lt_succ_self m), heffect', ih n hrest heffect⟩
  | case3 => simp [Effects] at h

/-- The thread is in its call: some actions have taken effect, and the others are left. -/
def InCall (e : Behavior (O.system Tid)) (t : Tid) (op : Op) (i m : ℕ) : Prop :=
  ∃ as todo done, (e.state m).call t = some (todo, done) ∧ O.actions op = as ++ todo ∧
    Effects e t as done (i + 1) m

theorem InCall.step (h : InCall e t op i m) (hret : ∀ results, e.label m ≠ some (t, .ret results)) :
    InCall e t op i (m + 1) := by
  rcases h with ⟨as, todo, done, hcall, hactions, heffects⟩
  -- the steps of the others leave the call alone
  have hsame : (e.state (m + 1)).call t = (e.state m).call t → InCall e t op i (m + 1) :=
    fun heq => ⟨as, todo, done, heq.trans hcall, hactions, heffects.mono (Nat.le_succ m)⟩
  cases hl : e.label m with
  | none => exact hsame (by rw [e.stutter m hl])
  | some l =>
    rcases l with ⟨u, ev⟩
    have hstep : Stepped O u (e.state m) ev (e.state (m + 1)) := e.next m _ hl
    generalize hs' : e.state (m + 1) = s' at hstep hsame
    by_cases hu : t = u
    · subst hu
      cases hstep with
      | invoke op' hidle =>
        rw [hcall] at hidle
        cases hidle
      | act a todo' done' r value hcall' heffect =>
        rw [hcall] at hcall'
        rcases Option.some.inj hcall' with ⟨⟩
        -- one more of its actions has taken effect
        have hnext : (e.state (m + 1)).call t = some (todo', done ++ [r]) := by
          rw [hs']
          exact Function.update_self _ _ _
        refine ⟨as ++ [a], todo', done ++ [r], hnext, ?_,
          heffects.concat ⟨hl, ⟨todo', done, hcall, hnext⟩, ?_⟩⟩
        · rw [hactions, List.append_assoc]
          rfl
        · rw [hs']
          exact heffect
      | ret results hcall' => exact absurd hl (hret results)
    · cases hstep with
      | _ => exact hsame (Function.update_of_ne hu _ _)

/-- What is seen is what happens. -/
theorem label_of_visible {k : ℕ} {ev : Event Op Res}
    (h : (e.label k).bind visible = some (t, ev)) : e.label k = some (t, ev) := by
  rcases Option.bind_eq_some_iff.mp h with ⟨⟨u, ev'⟩, hl, hvis⟩
  cases ev' with
  | invoke => exact hl.trans hvis
  | act => cases hvis
  | ret => exact hl.trans hvis

/-- Every completed call takes effect action by action, between its start and its end, and
returns the results of its actions. -/
theorem Call.effects (hcall : Call (fun k => (e.label k).bind visible) t op rs i j) :
    Effects e t (O.actions op) rs (i + 1) j := by
  have hfirst : InCall e t op i (i + 1) := by
    have hstep : Stepped O t (e.state i) (.invoke op) (e.state (i + 1)) :=
      e.next i _ (label_of_visible hcall.invoke)
    refine ⟨[], O.actions op, [], ?_, rfl, le_rfl⟩
    generalize e.state (i + 1) = s' at hstep
    cases hstep with
    | invoke => exact Function.update_self _ _ _
  -- up to its return the call goes on
  have hinside : ∀ m, i + 1 ≤ m → m ≤ j → InCall e t op i m := by
    intro m him
    induction m, him using Nat.le_induction with
    | base => exact fun _ => hfirst
    | succ m him ih =>
      intro hmj
      refine (ih (by omega)).step fun results hl => hcall.inside m (by omega) hmj results ?_
      rw [hl]
      rfl
  rcases hinside j hcall.lt le_rfl with ⟨as, todo, done, hstate, hactions, heffects⟩
  have hstep : Stepped O t (e.state j) (.ret rs) (e.state (j + 1)) :=
    e.next j _ (label_of_visible hcall.ret)
  generalize e.state (j + 1) = s' at hstep
  cases hstep with
  | ret results hcall' =>
    rw [hstate] at hcall'
    rcases Option.some.inj hcall' with ⟨⟩
    rw [hactions, List.append_nil]
    exact heffects

end AtomicObject
