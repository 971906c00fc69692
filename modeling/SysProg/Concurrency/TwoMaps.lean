import Mathlib.Tactic
import SysProg.Concurrency.HashMap
import SysProg.Concurrency.LockFreeMap

/-!
# The two hash maps behind `chashmap.h`

The lock-based map and the lock-free map have one interface. Here they get the same calls, one
after the other, with memory for every node.

* `Answers` — the result codes of a sequence of calls;
* `locked_next`, `lockFree_next` — what a call of each map returns, and the values after it;
* `same_answers_iff` — the result codes are the same as long as no value is inserted that is
  there already. The lock-based map then stores one more copy, the lock-free map refuses it.
-/

namespace SysProg.TwoMaps

/-- A call of the interface. -/
inductive Request where
  | insertItem (val : ℤ)
  | removeItem (val : ℤ)
  | lookupItem (val : ℤ)
deriving DecidableEq, Repr

/-- The call of the lock-based map; `new` returns `insertion`. -/
def Request.call (insertion : ℕ) : Request → HashMap.Call
  | .insertItem val => .insert val insertion
  | .removeItem val => .remove val
  | .lookupItem val => .lookup val

/-- The operation of the lock-free map. -/
def Request.op : Request → LockFree.Op
  | .insertItem val => .insert val
  | .removeItem val => .remove val
  | .lookupItem val => .find val

/-- The result codes of calls one after the other. -/
inductive Answers {σ : Type*} (step : Request → ℕ → σ → σ → Prop) :
    σ → List Request → List ℕ → Prop where
  | nil (s : σ) : Answers step s [] []
  | cons {s s' : σ} {q : Request} {r : ℕ} {qs : List Request} {rs : List ℕ}
      (first : step q r s s') (rest : Answers step s' qs rs) : Answers step s (q :: qs) (r :: rs)

/-- A call of the lock-based map. There is memory, so `new` does not return null. -/
def lockedStep (q : Request) (r : ℕ) (map map' : HashMap.Map) : Prop :=
  ∃ insertion, insertion ≠ 0 ∧ (q.call insertion).Allowed map ∧
    ∃ rounds, HashMap.mapStep rounds (q.call insertion) map = some (r, map')

/-- A call of the lock-free map. -/
def lockFreeStep (q : Request) (r : ℕ) (map map' : LockFree.Map) : Prop :=
  ∃ rounds, LockFree.mapStep rounds q.op map = some (r, map')

/-- No call inserts a value that is present. -/
def InsertsAbsent (present : Finset ℤ) : List Request → Prop
  | [] => True
  | .insertItem val :: qs => val ∉ present ∧ InsertsAbsent (insert val present) qs
  | .removeItem val :: qs => InsertsAbsent (present.erase val) qs
  | .lookupItem _ :: qs => InsertsAbsent present qs

/-! ## One call -/

variable {n r r' : ℕ} {q : Request} {qs : List Request} {rs rs' : List ℕ} {A : Finset ℤ}
  {map map' : HashMap.Map} {paths : ℕ → List ℕ} {bag : Multiset ℤ}
  {free free' : LockFree.Map}

/-- The address of a new node makes no difference. -/
theorem bagStep_call {insertion : ℕ} (h : insertion ≠ 0) (q : Request) (bag : Multiset ℤ) :
    HashMap.bagStep (q.call insertion) bag = HashMap.bagStep (q.call 1) bag := by
  cases q with
  | insertItem => simp [Request.call, HashMap.bagStep, h]
  | removeItem => rfl
  | lookupItem => rfl

theorem locked_next (hrep : HashMap.Represents n map paths bag) (hn : 1 ≤ n) (hmax : n < 2 ^ 31)
    (hstep : lockedStep q r map map') :
    r = (HashMap.bagStep (q.call 1) bag).1 ∧
      ∃ paths', HashMap.Represents n map' paths' (HashMap.bagStep (q.call 1) bag).2 := by
  rcases hstep with ⟨insertion, hne, hallowed, hrun⟩
  rw [← bagStep_call hne]
  exact HashMap.map_next hrep hn hmax ⟨hallowed, hrun⟩

theorem locked_returns (hrep : HashMap.Represents n map paths bag) (hn : 1 ≤ n)
    (hmax : n < 2 ^ 31) (q : Request) : ∃ r map', lockedStep q r map map' := by
  rcases hrep.finite with ⟨m, hm⟩
  have hallowed : (q.call (m + 1)).Allowed map := by
    cases q with
    | insertItem => exact hm (m + 1) (Nat.le_succ m)
    | removeItem => trivial
    | lookupItem => trivial
  rcases HashMap.map_step hrep hn hmax hallowed with ⟨rounds, map', -, hrun, -⟩
  exact ⟨_, map', m + 1, Nat.succ_ne_zero m, hallowed, rounds, hrun⟩

theorem lockFree_next {A : Set ℤ} (hrep : LockFree.Represents n free A) (hn : 1 ≤ n)
    (hmax : n < 2 ^ 31) (hstep : lockFreeStep q r free free') :
    LockFree.Represents n free' (LockFree.applied q.op A) ∧
      ∃ result : Bool, r = (if result then 0 else 1) ∧
        LockFree.Sequential q.op result A (LockFree.applied q.op A) := by
  rcases hstep with ⟨rounds, hrun⟩
  rcases LockFree.map_call hrep hn hmax q.op with ⟨rounds', result, free'', hrun', hrep', hseq⟩
  rcases Prod.mk.inj (LockFree.mapStep_unique hrun hrun') with ⟨hr, rfl⟩
  exact ⟨hrep', result, hr, hseq⟩

theorem lockFree_returns {A : Set ℤ} (hrep : LockFree.Represents n free A) (hn : 1 ≤ n)
    (hmax : n < 2 ^ 31) (q : Request) : ∃ r free', lockFreeStep q r free free' := by
  rcases LockFree.map_call hrep hn hmax q.op with ⟨rounds, result, free', hrun, -⟩
  exact ⟨_, free', rounds, hrun⟩

/-! ## Sequences of calls -/

theorem locked_answers (hrep : HashMap.Represents n map paths bag) (hn : 1 ≤ n)
    (hmax : n < 2 ^ 31) (qs : List Request) : ∃ rs, Answers lockedStep map qs rs := by
  induction qs generalizing map paths bag with
  | nil => exact ⟨[], .nil map⟩
  | cons q qs ih =>
    rcases locked_returns hrep hn hmax q with ⟨r, map', hstep⟩
    rcases (locked_next hrep hn hmax hstep).2 with ⟨paths', hrep'⟩
    rcases ih hrep' with ⟨rs, hrest⟩
    exact ⟨r :: rs, .cons hstep hrest⟩

theorem lockFree_answers {A : Set ℤ} (hrep : LockFree.Represents n free A) (hn : 1 ≤ n)
    (hmax : n < 2 ^ 31) (qs : List Request) : ∃ rs, Answers lockFreeStep free qs rs := by
  induction qs generalizing free A with
  | nil => exact ⟨[], .nil free⟩
  | cons q qs ih =>
    rcases lockFree_returns hrep hn hmax q with ⟨r, free', hstep⟩
    rcases ih (lockFree_next hrep hn hmax hstep).1 with ⟨rs, hrest⟩
    exact ⟨r :: rs, .cons hstep hrest⟩

/-- The result codes of a search that finds its value exactly if it is there. -/
theorem code_eq {p : Prop} [Decidable p] {result : Bool} (h : result = true ↔ p) :
    (if p then 0 else 1) = if result then 0 else 1 := by
  simp only [h]

/-- From maps with the same values, each of them once. -/
theorem answers_eq_iff (hn : 1 ≤ n) (hmax : n < 2 ^ 31)
    (hrep : HashMap.Represents n map paths A.val) (hfree : LockFree.Represents n free A)
    (hrs : Answers lockedStep map qs rs) (hrs' : Answers lockFreeStep free qs rs') :
    rs = rs' ↔ InsertsAbsent A qs := by
  induction hrs generalizing paths A free rs' with
  | nil =>
    cases hrs'
    simp [InsertsAbsent]
  | @cons map map' q r qs rs hstep _ ih =>
    cases hrs' with
    | @cons _ free' _ r' _ rs' hstep' hrest' =>
      rcases locked_next hrep hn hmax hstep with ⟨hr, paths', hrep'⟩
      rcases lockFree_next hfree hn hmax hstep' with ⟨hfree', result, hr', hseq⟩
      rw [List.cons.injEq]
      cases q with
      | insertItem val =>
        by_cases hval : val ∈ A
        · -- one more copy here, refused there
          have hresult : result = false := by simpa [hval] using hseq.1
          simp only [Request.call, HashMap.bagStep, one_ne_zero, if_false] at hr
          simp [hr, hr', hresult, InsertsAbsent, hval]
        · have hresult : result = true := hseq.1.mpr (by simpa using hval)
          have hsame : r = r' := by
            simp [hr, hr', hresult, Request.call, HashMap.bagStep]
          have hbag : (HashMap.bagStep ((Request.insertItem val).call 1) A.val).2 =
              (insert val A).val := by
            simp [Request.call, HashMap.bagStep, Finset.insert_val_of_notMem hval]
          rw [hbag] at hrep'
          have hset : LockFree.applied (Request.insertItem val).op (A : Set ℤ) =
              ((insert val A : Finset ℤ) : Set ℤ) := by
            simp [Request.op, LockFree.applied]
          rw [hset] at hfree'
          simp only [hsame, true_and, InsertsAbsent, hval, not_false_eq_true]
          exact ih hrep' hfree' hrest'
      | removeItem val =>
        have hsame : r = r' := by
          rw [hr, hr', ← code_eq hseq.1]
          simp only [Request.call, HashMap.bagStep, apply_ite Prod.fst, Finset.mem_val,
            Finset.mem_coe]
        have hbag : (HashMap.bagStep ((Request.removeItem val).call 1) A.val).2 =
            (A.erase val).val := by
          by_cases hval : val ∈ A
          · simp [Request.call, HashMap.bagStep, hval]
          · simp [Request.call, HashMap.bagStep, hval]
        rw [hbag] at hrep'
        have hset : LockFree.applied (Request.removeItem val).op (A : Set ℤ) =
            ((A.erase val : Finset ℤ) : Set ℤ) := by
          simp [Request.op, LockFree.applied]
        rw [hset] at hfree'
        simp only [hsame, true_and, InsertsAbsent]
        exact ih hrep' hfree' hrest'
      | lookupItem =>
        have hsame : r = r' := by
          rw [hr, hr', ← code_eq hseq.1]
          simp only [Request.call, HashMap.bagStep, Finset.mem_val, Finset.mem_coe]
        simp only [hsame, true_and, InsertsAbsent]
        exact ih hrep' hfree' hrest'

/-- Both maps answer every sequence of calls. The result codes are the same if and only if no
call inserts a value that is present. -/
theorem same_answers_iff (hn : 1 ≤ n) (hmax : n < 2 ^ 31) (qs : List Request) :
    (∃ rs, Answers lockedStep (HashMap.allocHashmap n) qs rs) ∧
    (∃ rs, Answers lockFreeStep (LockFree.allocHashmap n) qs rs) ∧
    ∀ rs rs', Answers lockedStep (HashMap.allocHashmap n) qs rs →
      Answers lockFreeStep (LockFree.allocHashmap n) qs rs' →
      (rs = rs' ↔ InsertsAbsent ∅ qs) := by
  have hrep : HashMap.Represents n (HashMap.allocHashmap n) (fun _ => []) (∅ : Finset ℤ).val :=
    HashMap.alloc_represents n
  have hfree : LockFree.Represents n (LockFree.allocHashmap n) ((∅ : Finset ℤ) : Set ℤ) := by
    rw [Finset.coe_empty]
    exact LockFree.alloc_represents n
  exact ⟨locked_answers hrep hn hmax qs, lockFree_answers hfree hn hmax qs,
    fun rs rs' hrs hrs' => answers_eq_iff hn hmax hrep hfree hrs hrs'⟩

theorem same_answers_iff_distinct :
    ∃ rs, Answers lockedStep (HashMap.allocHashmap 2)
        [.insertItem 5, .removeItem 5, .insertItem 5, .lookupItem (-1)] rs ∧
      Answers lockFreeStep (LockFree.allocHashmap 2)
        [.insertItem 5, .removeItem 5, .insertItem 5, .lookupItem (-1)] rs := by
  have hall := same_answers_iff (n := 2) (by decide) (by decide)
    [.insertItem 5, .removeItem 5, .insertItem 5, .lookupItem (-1)]
  rcases hall with ⟨⟨rs, hrs⟩, ⟨rs', hrs'⟩, hiff⟩
  have heq : rs = rs' := (hiff rs rs' hrs hrs').mpr (by simp [InsertsAbsent])
  exact ⟨rs, hrs, heq ▸ hrs'⟩

/-! ## Running the maps -/

/-- The result codes of calls one after the other, as they run. -/
def results {σ : Type} (step : Request → σ → Option (ℕ × σ)) :
    List Request → σ → Option (List ℕ)
  | [], _ => some []
  | q :: qs, s => do
      let (r, s) ← step q s
      let rs ← results step qs s
      return r :: rs

theorem answers_of_results {σ : Type} {step : Request → σ → Option (ℕ × σ)}
    {rel : Request → ℕ → σ → σ → Prop}
    (hstep : ∀ q r s s', step q s = some (r, s') → rel q r s s') {s : σ}
    (hrun : results step qs s = some rs) : Answers rel s qs rs := by
  induction qs generalizing s rs with
  | nil =>
    rcases Option.some.inj hrun with rfl
    exact .nil s
  | cons q qs ih =>
    simp only [results, Option.bind_eq_bind, Option.bind_eq_some_iff] at hrun
    rcases hrun with ⟨⟨r, s'⟩, hfirst, rs', hrest, hrs⟩
    rcases Option.some.inj hrs with rfl
    exact .cons (hstep q r s s' hfirst) (ih hrest)

/-- A call of the lock-based map; `new` returns the first free address below `bound`. -/
def lockedRun (bound rounds : ℕ) (q : Request) (map : HashMap.Map) : Option (ℕ × HashMap.Map) := do
  let insertion ← (List.range bound).find? fun x => x ≠ 0 && (map.nodes x).isNone
  HashMap.mapStep rounds (q.call insertion) map

theorem lockedRun_step {bound rounds : ℕ} (hrun : lockedRun bound rounds q map = some (r, map')) :
    lockedStep q r map map' := by
  simp only [lockedRun, Option.bind_eq_bind, Option.bind_eq_some_iff] at hrun
  rcases hrun with ⟨insertion, hfind, hrun⟩
  have hfound := List.find?_some hfind
  simp only [Bool.and_eq_true, decide_eq_true_eq, Option.isNone_iff_eq_none] at hfound
  refine ⟨insertion, hfound.1, ?_, rounds, hrun⟩
  cases q with
  | insertItem => exact hfound.2
  | removeItem => trivial
  | lookupItem => trivial

/-- The lock-based map stores the second copy and returns `0`, the lock-free map returns `1`. -/
theorem second_insert_differs :
    Answers lockedStep (HashMap.allocHashmap 1) [.insertItem 1, .insertItem 1] [0, 0] ∧
      Answers lockFreeStep (LockFree.allocHashmap 1) [.insertItem 1, .insertItem 1] [0, 1] := by
  constructor
  · have hrun : results (lockedRun 8 8) [.insertItem 1, .insertItem 1] (HashMap.allocHashmap 1) =
        some [0, 0] := by decide +kernel
    exact answers_of_results (fun _ _ _ _ => lockedRun_step) hrun
  · have hrun : results (fun q => LockFree.mapStep 20 q.op) [.insertItem 1, .insertItem 1]
        (LockFree.allocHashmap 1) = some [0, 1] := by decide +kernel
    exact answers_of_results (fun _ _ _ _ hstep => ⟨20, hstep⟩) hrun

end SysProg.TwoMaps
