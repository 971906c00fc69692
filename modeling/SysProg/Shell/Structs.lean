import SysProg.Lib.LinkedCells
import SysProg.Shell.Main

/-!
# The structs that the parser fills

`Globals` says what the actions of `parse.y` mean. Here are the actions themselves: they write
through `current_command` and `previous_command` into structs, the first of which is part of
`current_pipeline` while the others are allocated, and they put arguments into arrays. What
would be written behind the end of an array has no result.

* `CommandStruct`, `appendArgv` — `struct command` and its array of arguments;
* `Structs` — the variables of the parser;
* `shiftActions`, `endActions` — the actions of `act` and `reductions`, one by one;
* `Stored` — a struct holds a command, in an array that has not been left;
* `perform_agrees` — an action on the structs is that on `Globals`, or it leaves an array;
* `parse_agrees` — no input makes the parser follow a null pointer; what it leaves is the
  pipeline of `Globals`, unless a command has eight arguments.
-/

namespace SysProg.Shell

open LinkedCells Recognizer

/-! ## Structs -/

/-- An array of arguments with the elements it was allocated with; null is `none`. -/
abbrev Argv := List (Option String)

/-- `struct command` without `next`. -/
structure CommandStruct where
  argv : Option Argv
  argvCap : ℕ
  argc : ℕ
  outputRedir : Option String
  inputRedir : Option String

/-- What `calloc` and `memset` leave. -/
def CommandStruct.zeroed : CommandStruct := ⟨none, 0, 0, none, none⟩

/-- The array and its capacity, allocated if there is none. -/
def CommandStruct.allocated (c : CommandStruct) : Argv × ℕ :=
  match c.argv with
  | none => (List.replicate 8 none, 8)
  | some argv => (argv, c.argvCap)

/-- `realloc`, if there are more elements than the capacity. What it leaves behind the old
elements is not read. -/
def grown (argc : ℕ) (argv : Argv) (argvCap : ℕ) : Argv × ℕ :=
  if argc + 1 > argvCap then
    (argv ++ List.replicate (argvCap * 2 - argv.length) none, argvCap * 2)
  else (argv, argvCap)

/-- `argv[i] = x`; there is none outside of the array. -/
def writeArgv (argv : Argv) (i : ℕ) (x : Option String) : Option Argv :=
  if i < argv.length then some (argv.set i x) else none

/-- `append_argv` -/
def appendArgv (c : CommandStruct) (newVal : String) : Option CommandStruct := do
  let (argv, argvCap) := c.allocated
  let (argv, argvCap) := grown c.argc argv argvCap
  let argv ← writeArgv argv c.argc (some newVal)
  let argv ← writeArgv argv (c.argc + 1) none
  return { c with argv := some argv, argvCap := argvCap, argc := c.argc + 1 }

/-- The variables that the parser and `main` share. Commands are at their addresses; new ones
get increasing addresses from `fresh` on. -/
structure Structs where
  commands : Cells CommandStruct
  fresh : ℕ
  currentCommand : ℕ
  previousCommand : ℕ
  background : Bool
  currentBuiltin : Option Builtin
  builtinArg : Option String

/-- The address of `current_pipeline.first_command`. -/
def firstCommand : ℕ := 1

/-- The variables as `main` sets them before `yyparse`. -/
def Structs.cleared : Structs where
  commands := Function.update (fun _ => none) firstCommand (some ⟨.zeroed, 0⟩)
  fresh := 2
  currentCommand := firstCommand
  previousCommand := 0
  background := false
  currentBuiltin := none
  builtinArg := none

/-! ## Actions -/

/-- The assignments in the actions of `parse.y`. -/
inductive Action where
  | builtin (builtin : Builtin)
  | builtinArg (arg : Option String)
  | word (s : String)
  | inputRedir (file : Option String)
  | outputRedir (file : Option String)
  | simple
  | background (background : Bool)

def Globals.perform (g : Globals) : Action → Globals
  | .builtin builtin => { g with currentBuiltin := some builtin }
  | .builtinArg arg => { g with builtinArg := arg }
  | .word s => g.appendArgv s
  | .inputRedir file => g.setInputRedir file
  | .outputRedir file => g.setOutputRedir file
  | .simple => g.endSimple
  | .background background => g.setBackground background

namespace Structs

/-- A change of `*current_command`; there is none at a null pointer. -/
def edit (st : Structs) (f : CommandStruct → Option CommandStruct) : Option Structs := do
  let c ← st.commands st.currentCommand
  let value ← f c.value
  return { st with commands := setValue st.commands st.currentCommand value }

/-- The current command, or a new one behind the previous one. -/
def ensureCommand (st : Structs) : Option Structs :=
  if st.currentCommand = 0 then do
    let _ ← st.commands st.previousCommand
    return { st with
      commands := linkAfter st.commands st.previousCommand st.fresh .zeroed 0
      currentCommand := st.fresh
      fresh := st.fresh + 1 }
  else some st

def perform (st : Structs) : Action → Option Structs
  | .builtin builtin => some { st with currentBuiltin := some builtin }
  | .builtinArg arg => some { st with builtinArg := arg }
  | .word s => st.ensureCommand.bind fun st => st.edit fun c => Shell.appendArgv c s
  | .inputRedir file => st.edit fun c => some { c with inputRedir := file }
  | .outputRedir file => st.edit fun c => some { c with outputRedir := file }
  | .simple => some { st with previousCommand := st.currentCommand, currentCommand := 0 }
  | .background background => some { st with background := background }

def performAll : List Action → Structs → Option Structs
  | [], st => some st
  | a :: as, st => (st.perform a).bind (performAll as)

end Structs

/-- The actions that complete a pipeline. -/
def reduceActions : Position → List Action
  | .command => [.inputRedir none, .outputRedir none, .simple]
  | .input => [.outputRedir none, .simple]
  | _ => []

/-- The actions of `act`. -/
def shiftActions : Position → Token → List Action
  | .exit, .string s => [.builtin .exit, .builtinArg (some s)]
  | .wait, .string s => [.builtin .wait, .builtinArg (some s)]
  | .kill, .string s => [.builtin .kill, .builtinArg (some s)]
  | .inputRedir, .string s => [.inputRedir (some s)]
  | .outputRedir, .string s => [.outputRedir (some s), .simple]
  | _, .string s => [.word s]
  | .command, .outputRedir => [.inputRedir none]
  | pos, .pipe => reduceActions pos
  | pos, .background => reduceActions pos ++ [.background true]
  | _, _ => []

/-- The actions of `reductions`. -/
def endActions : Position → List Action
  | .exit => [.builtin .exit, .builtinArg none]
  | .wait => [.builtin .wait]
  | .command => reduceActions .command ++ [.background false]
  | .input => reduceActions .input ++ [.background false]
  | .pipeline => [.background false]
  | _ => []

theorem act_eq (pos : Position) (t : Token) (g : Globals) :
    act pos t g = (shiftActions pos t).foldl Globals.perform g := by
  cases pos <;> cases t <;> rfl

theorem reductions_eq (pos : Position) (g : Globals) :
    reductions pos g = (endActions pos).foldl Globals.perform g := by
  cases pos <;> rfl

/-- `yyparse` on the structs: its result and what it leaves. -/
def parse : Position → Structs → List (Option Token) → Option (ℕ × Structs)
  | pos, st, some token :: rest =>
    match advance pos token with
    | some pos' => (st.performAll (shiftActions pos token)).bind fun st => parse pos' st rest
    | none => (st.performAll (endActions pos)).map fun st => (1, st)
  | pos, st, _ =>
    (st.performAll (endActions pos)).map fun st => (if pos.accepting then 0 else 1, st)

/-! ## Agreement -/

/-- A struct holds a command: its arguments in order and then null. -/
structure Holds (d : CommandStruct) (c : Command) : Prop where
  argc : d.argc = c.argv.length
  empty : d.argv = none → c.argv = []
  room : ∀ argv, d.argv = some argv → argv.length = d.argvCap
  argv : ∀ argv, d.argv = some argv → ∀ i ≤ d.argc, argv[i]? = some c.argv[i]?
  outputRedir : d.outputRedir = c.outputRedir
  inputRedir : d.inputRedir = c.inputRedir

/-- The array is still the one that the first argument allocated: it is left before it would
grow. -/
structure Stored (d : CommandStruct) (c : Command) : Prop extends Holds d c where
  initial : ∀ argv, d.argv = some argv → d.argvCap = 8

theorem stored_zeroed : Stored .zeroed ⟨[], none, none⟩ where
  argc := rfl
  empty _ := rfl
  room _ h := nomatch h
  argv _ h := nomatch h
  outputRedir := rfl
  inputRedir := rfl
  initial _ h := nomatch h

variable {d : CommandStruct} {c : Command} {g : Globals} {st : Structs} {a : Action}
  {as : List Action} {pos pos' : Position} {t : Token}

/-- The array, allocated if need be, holds the arguments, with a null behind them. -/
theorem Stored.allocated (h : Stored d c) :
    d.allocated.1.length = 8 ∧ d.allocated.2 = 8 ∧ d.argc < 8 ∧
      ∀ i ≤ d.argc, d.allocated.1[i]? = some c.argv[i]? := by
  unfold CommandStruct.allocated
  cases hargv : d.argv with
  | none =>
    have hempty := h.empty hargv
    have hargc := h.argc
    rw [hempty, List.length_nil] at hargc
    exact ⟨rfl, rfl, by omega, fun i hi => by simp [hempty, show i = 0 by omega]⟩
  | some argv =>
    have hcap := h.initial argv hargv
    have hlen := (h.room argv hargv).trans hcap
    have hnull := (List.getElem?_eq_some_iff.mp (h.argv argv hargv d.argc le_rfl)).1
    exact ⟨hlen, hcap, by omega, h.argv argv hargv⟩

theorem Stored.length_lt (h : Stored d c) : c.argv.length < 8 :=
  h.argc ▸ h.allocated.2.2.1

/-- The array never grows, and the null is the write that leaves it. -/
theorem Stored.appendArgv_eq (h : Stored d c) (s : String) : appendArgv d s =
    if d.argc + 1 < 8 then some { d with
      argv := some ((d.allocated.1.set d.argc (some s)).set (d.argc + 1) none)
      argvCap := 8
      argc := d.argc + 1 }
    else none := by
  rcases h.allocated with ⟨hlen, hcap, hlt, -⟩
  have hgrown : grown d.argc d.allocated.1 d.allocated.2 = (d.allocated.1, 8) := by
    rw [hcap, grown, if_neg (by omega)]
  simp only [appendArgv, hgrown, writeArgv, hlen, if_pos hlt, Option.bind_eq_bind,
    Option.bind_some, List.length_set]
  split <;> rfl

theorem Stored.appendArgv (h : Stored d c) (s : String) (hfew : c.argv.length + 1 < 8) :
    ∃ d', appendArgv d s = some d' ∧ Stored d' { c with argv := c.argv ++ [s] } := by
  rcases h.allocated with ⟨hlen, -, -, helems⟩
  rw [h.appendArgv_eq, if_pos (h.argc ▸ hfew)]
  refine ⟨_, rfl, ⟨by simp [h.argc], fun hnone => (nomatch hnone), ?_, ?_, h.outputRedir,
    h.inputRedir⟩, fun _ _ => rfl⟩
  · rintro argv ⟨⟩
    rw [List.length_set, List.length_set, hlen]
  · rintro argv ⟨⟩ i hi
    have hi : i ≤ d.argc + 1 := hi
    have hargc := h.argc
    rw [List.getElem?_set, List.getElem?_set, List.length_set, hlen]
    by_cases hend : d.argc + 1 = i
    · -- the null behind the arguments
      rw [if_pos hend, if_pos (by omega), List.getElem?_eq_none]
      simp
      omega
    · rw [if_neg hend]
      by_cases hlast : d.argc = i
      · rw [if_pos hlast, if_pos (by omega), ← hlast, hargc]
        simp
      · rw [if_neg hlast, helems i (by omega), List.getElem?_append_left (by omega)]

theorem Stored.appendArgv_full (h : Stored d c) (s : String) (hfull : 8 ≤ c.argv.length + 1) :
    Shell.appendArgv d s = none := by
  rw [h.appendArgv_eq, if_neg (by rw [h.argc]; omega)]

/-- The commands are a chain of structs from `first_command` on, and the pointers are where
`Globals` says. -/
structure Agrees (g : Globals) (st : Structs) (pre : List ℕ) (x : ℕ) : Prop where
  chain : LinkedCells.Chain st.commands firstCommand (pre ++ [x])
  nodup : (pre ++ [x]).Nodup
  fresh : ∀ y, st.fresh ≤ y → st.commands y = none
  positive : 0 < st.fresh
  earlier : List.Forall₂ Stored (values st.commands pre) g.earlier
  last : ∀ d, st.commands x = some d → Stored d.value g.last
  current : g.current = true → st.currentCommand = x
  previous : g.current = false → st.currentCommand = 0 ∧ st.previousCommand = x
  background : st.background = g.background
  currentBuiltin : st.currentBuiltin = g.currentBuiltin
  builtinArg : st.builtinArg = g.builtinArg

variable {pre : List ℕ} {x : ℕ}

theorem Agrees.notMem (h : Agrees g st pre x) : x ∉ pre := by
  have hnodup := h.nodup
  rw [List.nodup_append] at hnodup
  exact fun hx => hnodup.2.2 x hx x (by simp) rfl

/-- A change of the current command. -/
theorem Agrees.edit (h : Agrees g st pre x) (hcurrent : g.current = true)
    (f : CommandStruct → Option CommandStruct) (last : Command)
    (hf : ∀ d, Stored d g.last → ∃ d', f d = some d' ∧ Stored d' last) :
    ∃ st', st.edit f = some st' ∧ Agrees { g with last := last } st' pre x := by
  rcases h.chain.last with ⟨-, d, hd, -⟩
  rcases hf d.value (h.last d hd) with ⟨d', hd', hstored⟩
  have hx := h.current hcurrent
  refine ⟨{ st with commands := setValue st.commands x d' }, ?_, ?_⟩
  · simp [Structs.edit, hx, hd, hd']
  · have hnew : setValue st.commands x d' x = some { d with value := d' } := by
      simp [setValue, hd]
    refine ⟨h.chain.setValue x _, h.nodup, ?_, h.positive, ?_, ?_, h.current, h.previous,
      h.background, h.currentBuiltin, h.builtinArg⟩
    · -- only the last command is written, which is an old one
      intro y hy
      have hyx : y ≠ x := by
        rintro rfl
        rw [h.fresh y hy] at hd
        cases hd
      show setValue st.commands x d' y = none
      rw [setValue, Function.update_of_ne hyx, h.fresh y hy]
    · have hsame : values (setValue st.commands x d') pre = values st.commands pre := by
        refine values_congr fun z hz => Function.update_of_ne ?_ _ _
        rintro rfl
        exact h.notMem hz
      show List.Forall₂ Stored (values (setValue st.commands x d') pre) g.earlier
      rw [hsame]
      exact h.earlier
    · intro e he
      rcases Option.some.inj (hnew.symm.trans he) with rfl
      exact hstored

theorem Agrees.edit_none (h : Agrees g st pre x) (hcurrent : g.current = true)
    {f : CommandStruct → Option CommandStruct} (hf : ∀ d, Stored d g.last → f d = none) :
    st.edit f = none := by
  rcases h.chain.last with ⟨-, d, hd, -⟩
  simp [Structs.edit, h.current hcurrent, hd, hf d.value (h.last d hd)]

/-- A new command behind the previous one. -/
theorem Agrees.newCommand (h : Agrees g st pre x) (hcurrent : g.current = false) :
    ∃ st', st.ensureCommand = some st' ∧ Agrees { g with
      earlier := g.earlier ++ [g.last], last := ⟨[], none, none⟩, current := true } st'
        (pre ++ [x]) st.fresh := by
  rcases h.chain.last with ⟨-, d, hd, -⟩
  rcases h.previous hcurrent with ⟨hnull, hx⟩
  have hfree := h.fresh st.fresh le_rfl
  rcases h.chain.concat (v := CommandStruct.zeroed) h.nodup hfree h.positive.ne' with
    ⟨hchain, hvalues⟩
  have hfresh : st.fresh ∉ pre ++ [x] := by
    intro hmem
    have hsome := h.chain.isSome hmem
    rw [hfree] at hsome
    cases hsome
  have hne : st.fresh ≠ x := fun heq => hfresh (by simp [heq])
  refine ⟨{ st with
    commands := linkAfter st.commands x st.fresh .zeroed 0
    currentCommand := st.fresh
    fresh := st.fresh + 1 }, ?_, ?_⟩
  · simp [Structs.ensureCommand, hnull, hx, hd]
  · have hnew : linkAfter st.commands x st.fresh CommandStruct.zeroed 0 st.fresh =
        some ⟨.zeroed, 0⟩ := linkAfter_new hne
    refine ⟨hchain, ?_, ?_, Nat.succ_pos _, ?_, ?_, fun _ => rfl, fun hfalse => (nomatch hfalse),
      h.background, h.currentBuiltin, h.builtinArg⟩
    · rw [List.nodup_append]
      refine ⟨h.nodup, by simp, ?_⟩
      rintro y hy z hz rfl
      rw [List.mem_singleton] at hz
      exact hfresh (hz ▸ hy)
    · intro y hy
      have hy : st.fresh + 1 ≤ y := hy
      have hyx : y ≠ x := by
        rintro rfl
        rw [h.fresh y (by omega)] at hd
        cases hd
      show linkAfter st.commands x st.fresh CommandStruct.zeroed 0 y = none
      rw [linkAfter_of_ne hyx (by omega), h.fresh y (by omega)]
    · -- the values before the new struct are the old ones
      rw [values_append, values_cons hnew, values_nil] at hvalues
      have hold := List.append_cancel_right hvalues
      show List.Forall₂ Stored (values (linkAfter st.commands x st.fresh CommandStruct.zeroed 0)
        (pre ++ [x])) (g.earlier ++ [g.last])
      rw [hold, values_append, values_cons hd, values_nil]
      exact List.rel_append h.earlier (.cons (h.last d hd) .nil)
    · intro e he
      rcases Option.some.inj (hnew.symm.trans he) with rfl
      exact stored_zeroed

/-- The actions that need a current command. -/
def Action.Enabled (g : Globals) : Action → Prop
  | .inputRedir _ | .outputRedir _ | .simple => g.current = true
  | _ => True

/-- Some command has more arguments than its array has room for, with the null. -/
def Overfull (g : Globals) : Prop := ∃ c ∈ g.commands, 8 ≤ c.argv.length

theorem Overfull.perform (h : Overfull g) (a : Action) : Overfull (g.perform a) := by
  rcases h with ⟨c, hc, hlen⟩
  rcases List.mem_append.mp hc with hc | hc
  · -- an earlier command stays one
    refine ⟨c, List.mem_append_left _ ?_, hlen⟩
    cases a with
    | word =>
      simp only [Globals.perform, Globals.appendArgv]
      split
      · exact hc
      · exact List.mem_append_left _ hc
    | _ => exact hc
  · rw [List.mem_singleton] at hc
    subst hc
    cases a with
    | word s =>
      simp only [Globals.perform, Globals.appendArgv]
      split
      · refine ⟨_, List.mem_append_right _ (List.mem_singleton_self _), ?_⟩
        rw [List.length_append]
        omega
      · exact ⟨g.last, by simp [Globals.commands], hlen⟩
    | _ => exact ⟨_, List.mem_append_right _ (List.mem_singleton_self _), hlen⟩

theorem Overfull.foldl (h : Overfull g) (as : List Action) :
    Overfull (as.foldl Globals.perform g) := by
  induction as generalizing g with
  | nil => exact h
  | cons a as ih => exact ih (h.perform a)

theorem Overfull.yyparse (h : Overfull g) (pos : Position) (input : List (Option Token)) :
    Overfull (yyparse pos g input).globals := by
  have hend : ∀ {pos g}, Overfull g → Overfull (reductions pos g) := fun {pos g} h => by
    rw [reductions_eq]
    exact h.foldl _
  induction input generalizing pos g with
  | nil => exact hend h
  | cons token rest ih =>
    cases token with
    | none => exact hend h
    | some =>
      simp only [Shell.yyparse]
      split
      · rw [act_eq]
        exact ih (h.foldl _) _
      · exact hend h

theorem Agrees.not_overfull (h : Agrees g st pre x) : ¬ Overfull g := by
  rintro ⟨c, hc, hlen⟩
  rcases List.mem_append.mp hc with hc | hc
  · rcases List.mem_iff_getElem.mp hc with ⟨i, hi, rfl⟩
    have hi' : i < (values st.commands pre).length := h.earlier.length_eq ▸ hi
    have hlt := (List.forall₂_iff_get.mp h.earlier).2 i hi' hi |>.length_lt
    exact absurd hlen (Nat.not_le.mpr hlt)
  · rcases h.chain.last with ⟨-, d, hd, -⟩
    rw [List.mem_singleton] at hc
    have hlt := (h.last d hd).length_lt
    rw [← hc] at hlt
    omega

/-- An action on the structs is that on `Globals`, or the array of a command is too short
for it. -/
theorem perform_agrees (h : Agrees g st pre x) (ha : a.Enabled g) :
    (∃ st' pre' x', st.perform a = some st' ∧ Agrees (g.perform a) st' pre' x') ∨
      (st.perform a = none ∧ Overfull (g.perform a)) := by
  cases a with
  | builtin => exact .inl ⟨_, pre, x, rfl, { h with currentBuiltin := rfl }⟩
  | builtinArg => exact .inl ⟨_, pre, x, rfl, { h with builtinArg := rfl }⟩
  | background background => exact .inl ⟨_, pre, x, rfl, { h with background := rfl }⟩
  | simple =>
    exact .inl ⟨_, pre, x, rfl, { h with
      current := fun hcurrent => nomatch hcurrent
      previous := fun _ => ⟨rfl, h.current ha⟩ }⟩
  | inputRedir file =>
    rcases h.edit ha (fun c => some { c with inputRedir := file })
      { g.last with inputRedir := file } fun d hd => ⟨_, rfl, { hd with inputRedir := rfl }⟩ with
      ⟨st', hedit, hagrees⟩
    exact .inl ⟨st', pre, x, hedit, hagrees⟩
  | outputRedir file =>
    rcases h.edit ha (fun c => some { c with outputRedir := file })
      { g.last with outputRedir := file } fun d hd => ⟨_, rfl, { hd with outputRedir := rfl }⟩ with
      ⟨st', hedit, hagrees⟩
    exact .inl ⟨st', pre, x, hedit, hagrees⟩
  | word s =>
    cases hcurrent : g.current with
    | true =>
      have hne : st.currentCommand ≠ 0 := by
        rw [h.current hcurrent]
        exact h.chain.last.1
      have hword : st.perform (.word s) = st.edit fun c => appendArgv c s := by
        simp [Structs.perform, Structs.ensureCommand, hne]
      have hglobals : g.perform (.word s) =
          { g with last := { g.last with argv := g.last.argv ++ [s] } } := by
        simp [Globals.perform, Globals.appendArgv, hcurrent]
      rw [hword, hglobals]
      rcases Nat.lt_or_ge (g.last.argv.length + 1) 8 with hfew | hfull
      · rcases h.edit hcurrent (fun c => appendArgv c s) { g.last with argv := g.last.argv ++ [s] }
          fun d hd => hd.appendArgv s hfew with ⟨st', hedit, hagrees⟩
        exact .inl ⟨st', pre, x, hedit, hagrees⟩
      · refine .inr ⟨h.edit_none hcurrent fun d hd => hd.appendArgv_full s hfull, _,
          List.mem_append_right _ (List.mem_singleton_self _), ?_⟩
        rw [List.length_append]
        exact hfull
    | false =>
      -- the first word of a command allocates it and links it behind the last one
      rcases h.newCommand hcurrent with ⟨st₁, hnew, hagrees₁⟩
      rcases hagrees₁.edit rfl (fun c => appendArgv c s) ⟨[s], none, none⟩
        fun d hd => hd.appendArgv s (by simp) with ⟨st', hedit, hagrees⟩
      refine .inl ⟨st', pre ++ [x], st.fresh, ?_, ?_⟩
      · simp [Structs.perform, hnew, hedit]
      · simpa [Globals.perform, Globals.appendArgv, hcurrent] using hagrees

/-- Actions one after the other. -/
def EnabledAll : Globals → List Action → Prop
  | _, [] => True
  | g, a :: as => a.Enabled g ∧ EnabledAll (g.perform a) as

theorem performAll_agrees (h : Agrees g st pre x) (has : EnabledAll g as) :
    (∃ st' pre' x', st.performAll as = some st' ∧
      Agrees (as.foldl Globals.perform g) st' pre' x') ∨
    (st.performAll as = none ∧ Overfull (as.foldl Globals.perform g)) := by
  induction as generalizing g st pre x with
  | nil => exact .inl ⟨st, pre, x, rfl, h⟩
  | cons a as ih =>
    rcases perform_agrees h has.1 with ⟨st₁, pre₁, x₁, hstep, hagrees₁⟩ | ⟨hnone, hover⟩
    · rw [Structs.performAll, hstep]
      exact ih hagrees₁ has.2
    · rw [Structs.performAll, hnone]
      exact .inr ⟨rfl, hover.foldl as⟩

/-! ## The parser -/

/-- Within a command there is a current one. -/
def InCommand (pos : Position) (g : Globals) : Prop :=
  (pos = .command ∨ pos = .inputRedir ∨ pos = .input ∨ pos = .outputRedir) → g.current = true

theorem current_appendArgv (g : Globals) (s : String) : (g.appendArgv s).current = true := by
  unfold Globals.appendArgv
  split
  · assumption
  · rfl

theorem InCommand.shift (h : InCommand pos g) (hadvance : advance pos t = some pos') :
    EnabledAll g (shiftActions pos t) ∧ InCommand pos' (act pos t g) := by
  cases pos <;> cases t <;> cases hadvance <;>
    simp_all [InCommand, EnabledAll, shiftActions, reduceActions, Action.Enabled, Globals.perform,
      act, reducePipeline, current_appendArgv, Globals.setInputRedir, Globals.setOutputRedir,
      Globals.endSimple]

theorem InCommand.endActions (h : InCommand pos g) : EnabledAll g (endActions pos) := by
  cases pos <;>
    simp_all [InCommand, EnabledAll, Shell.endActions, reduceActions, Action.Enabled,
      Globals.perform, Globals.setInputRedir, Globals.setOutputRedir]

/-- The actions before the end of a line. -/
theorem end_agrees (h : Agrees g st pre x) (hpos : InCommand pos g) (result : ℕ) :
    (∃ st' pre' x', (st.performAll (endActions pos)).map (fun st => (result, st)) =
        some (result, st') ∧ Agrees (reductions pos g) st' pre' x') ∨
    ((st.performAll (endActions pos)).map (fun st => (result, st)) = none ∧
      Overfull (reductions pos g)) := by
  rw [reductions_eq]
  rcases performAll_agrees h hpos.endActions with ⟨st', pre', x', hend, hagrees⟩ | ⟨hnone, hover⟩
  · exact .inl ⟨st', pre', x', by rw [hend, Option.map_some], hagrees⟩
  · exact .inr ⟨by rw [hnone, Option.map_none], hover⟩

/-- The parser never follows a null pointer, and fills the structs as `yyparse` does the
globals. It fails only at an array that is too short. -/
theorem parse_agrees (h : Agrees g st pre x) (hpos : InCommand pos g) (input : List (Option Token)) :
    (∃ st' pre' x', parse pos st input = some ((yyparse pos g input).result, st') ∧
      Agrees (yyparse pos g input).globals st' pre' x') ∨
    (parse pos st input = none ∧ Overfull (yyparse pos g input).globals) := by
  induction input generalizing pos g st pre x with
  | nil => exact end_agrees h hpos _
  | cons token rest ih =>
    cases token with
    | none => exact end_agrees h hpos _
    | some t =>
      simp only [parse, yyparse]
      cases hadvance : advance pos t with
      | none => exact end_agrees h hpos _
      | some pos' =>
        rcases hpos.shift hadvance with ⟨henabled, hpos'⟩
        have hshift := performAll_agrees h henabled
        rw [← act_eq] at hshift
        rcases hshift with ⟨st₁, pre₁, x₁, hshift, hagrees₁⟩ | ⟨hnone, hover⟩
        · simp only [hshift, Option.bind_some]
          exact ih hagrees₁ hpos'
        · simp only [hnone, Option.bind_none]
          exact .inr ⟨trivial, hover.yyparse pos' rest⟩

theorem cleared_agrees : Agrees .cleared .cleared [] firstCommand := by
  have hfirst : Structs.cleared.commands firstCommand = some ⟨.zeroed, 0⟩ := rfl
  refine ⟨⟨rfl, by decide, _, hfirst, rfl⟩, by simp, ?_, by decide, .nil, ?_, fun _ => rfl,
    fun hfalse => (nomatch hfalse), rfl, rfl, rfl⟩
  · intro y hy
    have hne : y ≠ firstCommand := Nat.ne_of_gt hy
    simp [Structs.cleared, Function.update_of_ne hne]
  · intro d hd
    rcases Option.some.inj (hfirst.symm.trans hd) with rfl
    exact stored_zeroed

end SysProg.Shell
