import SysProg.Lib.Loop
import SysProg.Shell.Execute
import SysProg.Shell.Grammar

/-!
# The main loop of the shell, `task3-processes/main.c`

In every round `main` clears the globals, calls `yyparse`, which fills them as it reads
tokens, and then runs what they hold. It does not look at what `yyparse` returns.

* `Globals` — the variables that the parser and `main` share;
* `act`, `reductions` — the actions of `parse.y`, in the order the parser performs them;
* `yyparse` — reads tokens to the end of a line, or to one it cannot shift;
* `mainStep` — one round of `main`.
-/

namespace SysProg.Shell

open Recognizer Loop

/-- `enum builtin_type`, without `BUILTIN_NONE`. -/
inductive Builtin where
  | exit
  | wait
  | kill
deriving DecidableEq, Repr

/-! ## Globals -/

/-- The globals of the parser. The pipeline is the chain of commands `earlier` and `last`.
If `current`, `current_command` points to `last`; if not, it is NULL and
`previous_command` points to `last`. -/
structure Globals where
  currentBuiltin : Option Builtin
  builtinArg : Option String
  earlier : List Command
  last : Command
  background : Bool
  current : Bool
deriving DecidableEq, Repr

/-- The globals after the `memset` in `main`. -/
def Globals.cleared : Globals where
  currentBuiltin := none
  builtinArg := none
  earlier := []
  last := ⟨[], none, none⟩
  background := false
  current := true

namespace Globals

def commands (g : Globals) : List Command := g.earlier ++ [g.last]

/-- `current_pipeline`. -/
def pipeline (g : Globals) : Pipeline :=
  match g.earlier with
  | [] => ⟨g.last, [], g.background⟩
  | first :: rest => ⟨first, rest ++ [g.last], g.background⟩

def setBuiltin (g : Globals) (builtin : Builtin) (arg : Option String) : Globals :=
  { g with currentBuiltin := some builtin, builtinArg := arg }

/-- The actions of `command`: a new command if there is no current one, then
`append_argv`. -/
def appendArgv (g : Globals) (s : String) : Globals :=
  if g.current then { g with last := { g.last with argv := g.last.argv ++ [s] } }
  else { g with earlier := g.earlier ++ [g.last], last := ⟨[s], none, none⟩, current := true }

def setInputRedir (g : Globals) (file : Option String) : Globals :=
  { g with last := { g.last with inputRedir := file } }

def setOutputRedir (g : Globals) (file : Option String) : Globals :=
  { g with last := { g.last with outputRedir := file } }

/-- The actions of `pipeline`. -/
def endSimple (g : Globals) : Globals := { g with current := false }

def setBackground (g : Globals) (background : Bool) : Globals :=
  { g with background := background }

end Globals

/-! ## Actions -/

/-- The reductions that complete a pipeline. -/
def reducePipeline : Position → Globals → Globals
  | .command, g => ((g.setInputRedir none).setOutputRedir none).endSimple
  | .input, g => (g.setOutputRedir none).endSimple
  | _, g => g

/-- The actions between two shifts: the reductions before a token that can be shifted, and
those behind it that depend on no other token. -/
def act : Position → Token → Globals → Globals
  | .exit, .string s, g => g.setBuiltin .exit (some s)
  | .wait, .string s, g => g.setBuiltin .wait (some s)
  | .kill, .string s, g => g.setBuiltin .kill (some s)
  | .inputRedir, .string s, g => g.setInputRedir (some s)
  | .outputRedir, .string s, g => (g.setOutputRedir (some s)).endSimple
  | _, .string s, g => g.appendArgv s
  | .command, .outputRedir, g => g.setInputRedir none
  | pos, .pipe, g => reducePipeline pos g
  | pos, .background, g => (reducePipeline pos g).setBackground true
  | _, _, g => g

/-- The actions before the end of a line or a token that cannot be shifted. -/
def reductions : Position → Globals → Globals
  | .exit, g => g.setBuiltin .exit none
  | .wait, g => { g with currentBuiltin := some .wait }
  | .command, g => (reducePipeline .command g).setBackground false
  | .input, g => (reducePipeline .input g).setBackground false
  | .pipeline, g => g.setBackground false
  | _, g => g

/-! ## The parser -/

/-- What `yyparse` leaves behind: its result, which is 0 if the line was accepted, the
globals, the input that is not read, whether the last token was the end of a line, and
whether it was the end of the input. -/
structure Parsed where
  result : ℕ
  globals : Globals
  rest : List (Option Token)
  newline : Bool
  eof : Bool
deriving DecidableEq, Repr

/-- `yyparse`. In the input, `none` is the 0 that the scanner returns for a newline; it
also returns 0 at the end of the input, and sets `eof`. -/
def yyparse : Position → Globals → List (Option Token) → Parsed
  | pos, g, [] => ⟨if pos.accepting then 0 else 1, reductions pos g, [], false, true⟩
  | pos, g, none :: rest =>
    ⟨if pos.accepting then 0 else 1, reductions pos g, rest, true, false⟩
  | pos, g, some token :: rest =>
    match advance pos token with
    | some pos' => yyparse pos' (act pos token g) rest
    | none => ⟨1, reductions pos g, rest, false, false⟩

/-! ## `main` -/

/-- A call of `run_pipeline` or `run_builtin`. -/
inductive Execution where
  | pipeline (pipeline : Pipeline)
  | builtin (builtin : Builtin) (arg : Option String)
deriving DecidableEq, Repr

/-- `exit` does not return. -/
def Execution.isExit : Execution → Bool
  | .builtin .exit _ => true
  | _ => false

/-- `check_consistency`. -/
def checkConsistency : List Command → Bool
  | [] | [_] => true
  | c :: next :: rest => c.outputRedir.isNone && checkConsistency (next :: rest)

/-- What `main` runs after `yyparse`. -/
def execute (g : Globals) : Option Execution :=
  match g.currentBuiltin with
  | some builtin => some (.builtin builtin g.builtinArg)
  | none =>
    if checkConsistency g.pipeline.commands ∧ g.pipeline.firstCommand.argv ≠ [] then
      some (.pipeline g.pipeline)
    else none

/-- `main`: the input that is left, the number of the line it is in, and what has been
run, with the line in which `yyparse` stopped before. -/
structure MainState where
  line : ℕ
  input : List (Option Token)
  log : List (ℕ × Execution)

/-- One round of `main`; it ends at the end of the input or in `exit`. -/
def mainStep (s : MainState) : MainState ⊕ List (ℕ × Execution) :=
  let parsed := yyparse .start .cleared s.input
  if parsed.eof then .inr s.log
  else
    let line := if parsed.newline then s.line + 1 else s.line
    match execute parsed.globals with
    | none => .inl ⟨line, parsed.rest, s.log⟩
    | some execution =>
      let log := s.log ++ [(s.line, execution)]
      if execution.isExit then .inr log else .inl ⟨line, parsed.rest, log⟩

/-- The input of lines, the last of which may lack its newline. -/
def inputOf (lines : List (List Token)) (tail : List Token) : List (Option Token) :=
  lines.flatMap (fun line => line.map some ++ [none]) ++ tail.map some

end SysProg.Shell
