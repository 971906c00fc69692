import SysProg.Lib.OrdMap

/-!
# Running pipelines, `task3-processes/execute.c`

The shell runs a pipeline command by command. For every command but the last it makes a
pipe; it forks, and while the child redirects its descriptors and executes the command,
the parent goes on with the next command, waits for it, and closes its end of the pipe.

* `File`, `Table` — what descriptors refer to, with `dup2` and `close`;
* `Kernel` — the choices of the operating system, all calls succeeding;
* `childTable` — the descriptors of a command when it is executed;
* `runCommand`, `runPipeline` — the shell.
-/

namespace SysProg.Shell

/-- `struct command`, without the capacity of its array. -/
structure Command where
  argv : List String
  outputRedir : Option String
  inputRedir : Option String
deriving DecidableEq, Repr

/-- `struct pipeline`: the first command, those after it, and the flag. -/
structure Pipeline where
  firstCommand : Command
  next : List Command
  background : Bool
deriving DecidableEq, Repr

def Pipeline.commands (pipeline : Pipeline) : List Command :=
  pipeline.firstCommand :: pipeline.next

/-! ## Descriptors -/

/-- What a descriptor refers to: something the shell was started with, an end of a pipe,
or a file that was opened. The pipe that command `k` writes to has number `k`. -/
inductive File (α : Type) where
  | initial (a : α)
  | readEnd (pipe : ℕ)
  | writeEnd (pipe : ℕ)
  | input (path : String)
  | output (path : String)
deriving DecidableEq, Repr

/-- The open descriptors of a process. -/
abbrev Table (α : Type) := OrdMap ℕ (File α)

def STDIN_FILENO : ℕ := 0
def STDOUT_FILENO : ℕ := 1

namespace Table

variable {α : Type}

def close (t : Table α) (fd : ℕ) : Table α := t.erase fd

/-- `dup2`; a descriptor that is not open leaves the table as it is. -/
def dup2 (t : Table α) (fd target : ℕ) : Table α :=
  match t.find? fd with
  | none => t
  | some file => t.insert target file

/-- `dup2(fd, target)` and `close(fd)`. -/
def redirect (t : Table α) (fd target : ℕ) : Table α :=
  (t.dup2 fd target).close fd

end Table

/-- The calls of one run of `run_command` that return a new descriptor. -/
inductive Call where
  | pipeRead
  | pipeWrite
  | openInput
  | openOutput
deriving DecidableEq, Repr

/-- What the operating system chooses: for each call made for command `k` a descriptor
that is not in use, and the number of the process that is forked for it. -/
structure Kernel (α : Type) where
  unused : ℕ → Call → Table α → ℕ
  unused_spec : ∀ k call (t : Table α), t.find? (unused k call t) = none
  pid : ℕ → ℕ
  pid_injective : Function.Injective pid

/-! ## The shell -/

/-- A child when it calls `execvp`. -/
structure Child (α : Type) where
  pid : ℕ
  argv : List String
  table : Table α

/-- The shell process: its descriptors, the children it has forked, and the processes it
has waited for with a blocking `waitpid`, in order. -/
structure ShellState (α : Type) where
  table : Table α
  children : List (Child α)
  waited : List ℕ

variable {α : Type} (K : Kernel α)

/-- `open` of a redirection, `dup2` and `close`. -/
def openRedirect (k : ℕ) (call : Call) (file : File α) (target : ℕ) (t : Table α) : Table α :=
  let fd := K.unused k call t
  Table.redirect (t.insert fd file) fd target

/-- Let the command read from the pipe. -/
def readFromPipe (inFd : Option ℕ) (t : Table α) : Table α :=
  match inFd with
  | none => t
  | some fd => t.redirect fd STDIN_FILENO

/-- Let the command read from a file. -/
def readFromFile (k : ℕ) (command : Command) (t : Table α) : Table α :=
  match command.inputRedir with
  | none => t
  | some path => openRedirect K k .openInput (.input path) STDIN_FILENO t

/-- Let the command write into the pipe. -/
def writeToPipe (pipefd : Option (ℕ × ℕ)) (t : Table α) : Table α :=
  match pipefd with
  | none => t
  | some (readFd, writeFd) => Table.redirect (t.close readFd) writeFd STDOUT_FILENO

/-- Let the command write into a file. -/
def writeToFile (k : ℕ) (command : Command) (t : Table α) : Table α :=
  match command.outputRedir with
  | none => t
  | some path => openRedirect K k .openOutput (.output path) STDOUT_FILENO t

/-- The branch of the child: its descriptors at `execvp`. -/
def childTable (k : ℕ) (command : Command) (inFd : Option ℕ) (pipefd : Option (ℕ × ℕ))
    (t : Table α) : Table α :=
  let t := readFromPipe inFd t
  let t := readFromFile K k command t
  let t := writeToPipe pipefd t
  writeToFile K k command t

/-- The descriptors of pipe `k` in a process with table `t`. -/
def Kernel.pipefd (k : ℕ) (t : Table α) : ℕ × ℕ :=
  let readFd := K.unused k .pipeRead t
  (readFd, K.unused k .pipeWrite (t.insert readFd (.readEnd k)))

/-- `pipe`. -/
def pipe (k : ℕ) (t : Table α) : Table α :=
  (t.insert (K.pipefd k t).1 (.readEnd k)).insert (K.pipefd k t).2 (.writeEnd k)

/-- `fork` for command `k`, whose child gets a copy of the descriptors. -/
def fork (k : ℕ) (command : Command) (inFd : Option ℕ) (pipefd : Option (ℕ × ℕ))
    (s : ShellState α) : ShellState α :=
  { s with children := s.children ++
      [⟨K.pid k, command.argv, childTable K k command inFd pipefd s.table⟩] }

/-- `waitpid(pid, NULL, 0)`. -/
def ShellState.waitpid (s : ShellState α) (pid : ℕ) : ShellState α :=
  { s with waited := s.waited ++ [pid] }

def ShellState.close (s : ShellState α) (fd : ℕ) : ShellState α :=
  { s with table := Table.close s.table fd }

/-- `run_command` for command `k` and those after it. The descriptor `in_fd` of the source
is -1 if there is none. -/
def runCommand : ℕ → Command → List Command → Option ℕ → ShellState α → ℕ × ShellState α
  | k, command, [], inFd, s => (K.pid k, fork K k command inFd none s)
  | k, command, nextCommand :: rest, inFd, s =>
    let (readFd, writeFd) := K.pipefd k s.table
    let s := { s with table := pipe K k s.table }
    let s := fork K k command inFd (some (readFd, writeFd)) s
    let s := s.close writeFd
    let (nextPid, s) := runCommand (k + 1) nextCommand rest (some readFd) s
    let s := s.waitpid nextPid
    (K.pid k, s.close readFd)

/-- `run_pipeline`. -/
def runPipeline (pipeline : Pipeline) (s : ShellState α) : ShellState α :=
  let (pid, s) := runCommand K 0 pipeline.firstCommand pipeline.next none s
  if pipeline.background then s else s.waitpid pid

/-! ## An operating system -/

/-- The lowest descriptor that is not open. -/
def lowestUnused (t : Table α) : ℕ :=
  ((List.range (t.keys.length + 1)).find? fun fd => fd ∉ t.keys).getD 0

theorem find?_lowestUnused (t : Table α) : t.find? (lowestUnused t) = none := by
  have hnot : lowestUnused t ∉ t.keys := by
    unfold lowestUnused
    cases hfind : (List.range (t.keys.length + 1)).find? fun fd => fd ∉ t.keys with
    | some => simpa using List.find?_some hfind
    | none =>
      -- more numbers than descriptors: one of them is free
      have hsub : List.range (t.keys.length + 1) ⊆ t.keys := by
        intro fd hfd
        simpa using List.find?_eq_none.mp hfind fd hfd
      have hlen := (List.subperm_of_subset List.nodup_range hsub).length_le
      rw [List.length_range] at hlen
      omega
  cases hfd : t.find? (lowestUnused t) with
  | none => rfl
  | some file => exact absurd (OrdMap.mem_keys_iff_find?.mpr ⟨file, hfd⟩) hnot

/-- Descriptors as POSIX assigns them, and processes numbered from 100 on. -/
def posix (α : Type) : Kernel α where
  unused _ _ := lowestUnused
  unused_spec _ _ := find?_lowestUnused
  pid k := 100 + k
  pid_injective := fun _ _ h => Nat.add_left_cancel h

/-- A shell started on a terminal. -/
def console : Table String :=
  ((OrdMap.empty.insert 0 (.initial "stdin")).insert 1 (.initial "stdout")).insert 2
    (.initial "stderr")

end SysProg.Shell
