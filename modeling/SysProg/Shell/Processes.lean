import Mathlib.Tactic
import SysProg.Lib.Lts
import SysProg.Shell.Execute

/-!
# The processes of a pipeline

The shell and the processes of a pipeline side by side, with the pipes between them. The shell
takes the steps of `run_command` one after the other; a process first redirects its descriptors
and then runs its program, which reads, writes and closes descriptors and exits.

* `Request`, `Userland` — the programs, which compute, read, write, close and exit;
* `Control`, `shellStep` — the shell, with the calls of `run_command` that have not returned;
* `runStep` — a step of a program. A read from an empty pipe blocks while somebody can write
  to it. A write to a full pipe blocks while somebody can read from it, and ends the process
  with `SIGPIPE` if nobody can;
* `system` — all interleavings;
* `interleaved_runs_pipeline` — the shell ends as `runPipeline` says, whatever the processes do.
-/

namespace SysProg.Shell

open Lts

/-! ## Programs -/

/-- What a program does next, and how it goes on. -/
inductive Request (σ : Type) where
  | compute (s : σ)
  | read (fd max : ℕ) (received : List UInt8 → σ)
  | write (fd : ℕ) (bytes : List UInt8) (s : σ)
  | close (fd : ℕ) (s : σ)
  | exit

/-- The programs that `execvp` finds. If there is none for a command, the process prints a
message and exits. -/
structure Userland (σ : Type) where
  execvp : List String → σ
  next : σ → Request σ

/-- A process between `fork` and `execvp`, in its program with the bytes of the present write
that it has written, or at its end. -/
inductive ProcState (α σ : Type) where
  | forked (table : Table α)
  | running (table : Table α) (s : σ) (written : ℕ)
  | exited

def ProcState.hasExited {α σ : Type} : ProcState α σ → Bool
  | .exited => true
  | _ => false

theorem ProcState.eq_exited {α σ : Type} {state : ProcState α σ}
    (h : state.hasExited = true) : state = .exited := by
  cases state with
  | exited => rfl
  | _ => cases h

/-- The process of a command: what it will be executed with, and whether files have to be
opened before, which may fail. -/
structure Process (α σ : Type) where
  child : Child α
  redirected : Bool
  state : ProcState α σ

/-- The descriptors that a process has open. -/
def ProcState.table {α σ : Type} : ProcState α σ → Table α
  | .forked table | .running table _ _ => table
  | .exited => OrdMap.empty

/-! ## The shell -/

/-- Where the shell is: at the start of `run_command`, at `fork`, at the two calls of `close`,
or at a `waitpid` for the process whose number `run_command` has returned. -/
inductive Control where
  | call (k : ℕ) (command : Command) (next : List Command) (inFd : Option ℕ)
  | fork (k : ℕ) (command : Command) (next : List Command) (inFd : Option ℕ)
      (pipefd : Option (ℕ × ℕ))
  | closeWrite (k : ℕ) (pipefd : ℕ × ℕ) (nextCommand : Command) (rest : List Command)
  | wait (pid : ℕ)
  | closeRead (k readFd : ℕ)
  | done

structure World (α σ : Type) where
  table : Table α
  control : Control
  /-- The calls of `run_command` that have not returned: the command and the end of its pipe
  that is still open. -/
  frames : List (ℕ × ℕ)
  waited : List ℕ
  processes : List (Process α σ)
  pipes : ℕ → List UInt8
  /-- What the program of command `k` has read so far. -/
  consumed : ℕ → List UInt8
  /-- What the program of command `k` has written so far. -/
  produced : ℕ → List UInt8

variable {α σ : Type} [DecidableEq α] (K : Kernel α) (U : Userland σ) (capacity : ℕ)
  (pipeline : Pipeline)

/-- The process with this number has exited. -/
def World.hasExited (w : World α σ) (pid : ℕ) : Bool :=
  w.processes.any fun p => p.child.pid == pid && p.state.hasExited

/-- The parent after `fork`: it goes on with the next command, or `run_command` returns. -/
def afterFork (k : ℕ) (next : List Command) (pipefd : Option (ℕ × ℕ)) : Control :=
  match pipefd, next with
  | some pipefd, nextCommand :: rest => .closeWrite k pipefd nextCommand rest
  | _, _ => .wait (K.pid k)

def shellStep (w : World α σ) : Option (World α σ) :=
  match w.control with
  | .call k command [] inFd => some { w with control := .fork k command [] inFd none }
  | .call k command (nextCommand :: rest) inFd =>
      some { w with
        table := pipe K k w.table
        control := .fork k command (nextCommand :: rest) inFd (some (K.pipefd k w.table)) }
  | .fork k command next inFd pipefd =>
      let child := ⟨K.pid k, command.argv, childTable K k command inFd pipefd w.table⟩
      let redirected := command.inputRedir.isSome || command.outputRedir.isSome
      some { w with
        processes := w.processes ++ [⟨child, redirected, .forked w.table⟩]
        control := afterFork K k next pipefd }
  | .closeWrite k (readFd, writeFd) nextCommand rest =>
      some { w with
        table := w.table.close writeFd
        frames := (k, readFd) :: w.frames
        control := .call (k + 1) nextCommand rest (some readFd) }
  | .wait pid =>
      match w.frames with
      | (k, readFd) :: frames =>
          if w.hasExited pid then
            some { w with waited := w.waited ++ [pid], frames, control := .closeRead k readFd }
          else none
      | [] =>
          -- `run_pipeline` goes on
          if pipeline.background then some { w with control := .done }
          else if w.hasExited pid then
            some { w with waited := w.waited ++ [pid], control := .done }
          else none
  | .closeRead k readFd =>
      some { w with table := w.table.close readFd, control := .wait (K.pid k) }
  | .done => none

/-! ## The processes -/

/-- Some descriptor refers to the file. -/
def Table.refersTo (t : Table α) (file : File α) : Bool :=
  t.entries.any fun e => e.2 == file

/-- Some process, or the shell, has the file open. -/
def World.isOpen (w : World α σ) (file : File α) : Bool :=
  w.table.refersTo file || w.processes.any fun p => p.state.table.refersTo file

@[simps -fullyApplied]
def World.put (w : World α σ) (k : ℕ) (state : ProcState α σ) : World α σ :=
  { w with processes := w.processes.modify k fun p => { p with state } }

@[simps -fullyApplied]
def World.setPipe (w : World α σ) (j : ℕ) (bytes : List UInt8) : World α σ :=
  { w with pipes := Function.update w.pipes j bytes }

@[simps -fullyApplied]
def World.receive (w : World α σ) (k : ℕ) (bytes : List UInt8) : World α σ :=
  { w with consumed := Function.update w.consumed k (w.consumed k ++ bytes) }

@[simps -fullyApplied]
def World.send (w : World α σ) (k : ℕ) (bytes : List UInt8) : World α σ :=
  { w with produced := Function.update w.produced k (w.produced k ++ bytes) }

/-- `read`. What files and the descriptors that the shell was started with contain is `data`. -/
def readStep (w : World α σ) (k : ℕ) (table : Table α) (fd max : ℕ)
    (received : List UInt8 → σ) (data : List UInt8) : Option (World α σ) :=
  match table.find? fd with
  | some (.readEnd j) =>
      let bytes := (w.pipes j).take max
      if w.pipes j = [] ∧ 0 < max ∧ w.isOpen (.writeEnd j) then none
      else some (((w.setPipe j ((w.pipes j).drop max)).receive k bytes).put k
        (.running table (received bytes) 0))
  | some (.writeEnd _) | none => some (w.put k (.running table (received []) 0))
  | some _ =>
      let bytes := data.take max
      some ((w.receive k bytes).put k (.running table (received bytes) 0))

/-- `write`, of which `written` bytes have been written. -/
def writeStep (w : World α σ) (k : ℕ) (table : Table α) (fd : ℕ) (bytes : List UInt8)
    (s s' : σ) (written : ℕ) : Option (World α σ) :=
  match table.find? fd with
  | some (.writeEnd j) =>
      if w.isOpen (.readEnd j) then
        let room := capacity - (w.pipes j).length
        let rest := bytes.drop written
        if rest.length ≤ room then
          some (((w.setPipe j (w.pipes j ++ rest)).send k rest).put k (.running table s' 0))
        else if room = 0 then none
        else some (((w.setPipe j (w.pipes j ++ rest.take room)).send k (rest.take room)).put k
          (.running table s (written + room)))
      else some (w.put k .exited)
  | some (.readEnd _) | none => some (w.put k (.running table s' 0))
  | some _ => some ((w.send k bytes).put k (.running table s' 0))

/-- A step of the program of process `k`. -/
def runStep (w : World α σ) (k : ℕ) (data : List UInt8) : Option (World α σ) :=
  match (w.processes[k]?).map Process.state with
  | some (.running table s written) =>
      match U.next s with
      | .compute s' => some (w.put k (.running table s' 0))
      | .read fd max received => readStep w k table fd max received data
      | .write fd bytes s' => writeStep capacity w k table fd bytes s s' written
      | .close fd s' => some (w.put k (.running (table.close fd) s' 0))
      | .exit => some (w.put k .exited)
  | _ => none

/-- Process `k` has redirected its descriptors and calls `execvp`. -/
def execStep (w : World α σ) (k : ℕ) : Option (World α σ) :=
  match w.processes[k]? with
  | some ⟨child, _, .forked _⟩ => some (w.put k (.running child.table (U.execvp child.argv) 0))
  | _ => none

/-- A file of a redirection cannot be opened. -/
def openFails (w : World α σ) (k : ℕ) : Option (World α σ) :=
  match w.processes[k]? with
  | some ⟨_, true, .forked _⟩ => some (w.put k .exited)
  | _ => none

/-! ## All of them -/

inductive Label where
  | shell
  | exec (k : ℕ)
  | openFails (k : ℕ)
  | run (k : ℕ) (data : List UInt8)

def step (l : Label) (w : World α σ) : Option (World α σ) :=
  match l with
  | .shell => shellStep K pipeline w
  | .exec k => execStep U w k
  | .openFails k => openFails w k
  | .run k data => runStep U capacity w k data

/-- The shell calls `run_pipeline`. -/
def launch (t : Table α) : World α σ where
  table := t
  control := .call 0 pipeline.firstCommand pipeline.next none
  frames := []
  waited := []
  processes := []
  pipes _ := []
  consumed _ := []
  produced _ := []

def system (t : Table α) : System (World α σ) Label where
  Init w := w = launch pipeline t
  Next l w w' := step K U capacity pipeline l w = some w'

theorem launch_init (t : Table α) : (system K U capacity pipeline t).Init (launch pipeline t) :=
  rfl

variable {K U capacity pipeline} {t table : Table α} {w w' : World α σ} {k fd max written : ℕ}
  {data bytes : List UInt8} {received : List UInt8 → σ} {p : Process α σ} {state : ProcState α σ}
  {s s' : σ}

/-! ## What one step does -/

/-- What a step of the shell does. -/
inductive ShellStepped (K : Kernel α) (pipeline : Pipeline) (w : World α σ) : World α σ → Prop where
  | last (k : ℕ) (command : Command) (inFd : Option ℕ) : w.control = .call k command [] inFd →
      ShellStepped K pipeline w { w with control := .fork k command [] inFd none }
  | pipe (k : ℕ) (command nextCommand : Command) (rest : List Command) (inFd : Option ℕ) :
      w.control = .call k command (nextCommand :: rest) inFd →
      ShellStepped K pipeline w { w with
        table := pipe K k w.table
        control := .fork k command (nextCommand :: rest) inFd (some (K.pipefd k w.table)) }
  | fork (k : ℕ) (command : Command) (next : List Command) (inFd : Option ℕ)
      (pipefd : Option (ℕ × ℕ)) : w.control = .fork k command next inFd pipefd →
      ShellStepped K pipeline w { w with
        processes := w.processes ++ [⟨⟨K.pid k, command.argv,
          childTable K k command inFd pipefd w.table⟩,
          command.inputRedir.isSome || command.outputRedir.isSome, .forked w.table⟩]
        control := afterFork K k next pipefd }
  | closeWrite (k readFd writeFd : ℕ) (nextCommand : Command) (rest : List Command) :
      w.control = .closeWrite k (readFd, writeFd) nextCommand rest →
      ShellStepped K pipeline w { w with
        table := w.table.close writeFd
        frames := (k, readFd) :: w.frames
        control := .call (k + 1) nextCommand rest (some readFd) }
  | wait (pid k readFd : ℕ) (frames : List (ℕ × ℕ)) : w.control = .wait pid →
      w.frames = (k, readFd) :: frames → w.hasExited pid = true →
      ShellStepped K pipeline w
        { w with waited := w.waited ++ [pid], frames, control := .closeRead k readFd }
  | background (pid : ℕ) : w.control = .wait pid → w.frames = [] → pipeline.background = true →
      ShellStepped K pipeline w { w with control := .done }
  | foreground (pid : ℕ) : w.control = .wait pid → w.frames = [] → pipeline.background = false →
      w.hasExited pid = true →
      ShellStepped K pipeline w { w with waited := w.waited ++ [pid], control := .done }
  | closeRead (k readFd : ℕ) : w.control = .closeRead k readFd →
      ShellStepped K pipeline w
        { w with table := w.table.close readFd, control := .wait (K.pid k) }

omit [DecidableEq α] in
theorem shellStepped_of_shellStep (hstep : shellStep K pipeline w = some w') :
    ShellStepped K pipeline w w' := by
  unfold shellStep at hstep
  split at hstep
  · rename_i hcontrol
    exact Option.some.inj hstep ▸ .last _ _ _ hcontrol
  · rename_i hcontrol
    exact Option.some.inj hstep ▸ .pipe _ _ _ _ _ hcontrol
  · rename_i hcontrol
    exact Option.some.inj hstep ▸ .fork _ _ _ _ _ hcontrol
  · rename_i hcontrol
    exact Option.some.inj hstep ▸ .closeWrite _ _ _ _ _ hcontrol
  · rename_i hcontrol
    -- the last command waits, or the shell goes on at once in the background
    split at hstep
    · rename_i hframes
      split at hstep
      · rename_i hexited
        exact Option.some.inj hstep ▸ .wait _ _ _ _ hcontrol hframes hexited
      · cases hstep
    · rename_i hframes
      split at hstep
      · rename_i hbackground
        exact Option.some.inj hstep ▸ .background _ hcontrol hframes hbackground
      · rename_i hbackground
        split at hstep
        · rename_i hexited
          exact Option.some.inj hstep ▸ .foreground _ hcontrol hframes
            (Bool.eq_false_of_not_eq_true hbackground) hexited
        · cases hstep
  · rename_i hcontrol
    exact Option.some.inj hstep ▸ .closeRead _ _ hcontrol
  · cases hstep

/-- How a process can go on: what it has open afterwards was open before, unless it has just
redirected its descriptors. -/
inductive Moves (child : Child α) : ProcState α σ → ProcState α σ → Prop where
  | exec (t : Table α) (s : σ) : Moves child (.forked t) (.running child.table s 0)
  | fails (t : Table α) : Moves child (.forked t) .exited
  | goes {t t' : Table α} (s s' : σ) (n n' : ℕ) :
      (∀ fd file, t'.find? fd = some file → t.find? fd = some file) →
      Moves child (.running t s n) (.running t' s' n')
  | exits (t : Table α) (s : σ) (n : ℕ) : Moves child (.running t s n) .exited

/-- Process `k` has done something, and the shell and the other processes have not. -/
structure ProcStepped (w : World α σ) (k : ℕ) (w' : World α σ) : Prop where
  table : w'.table = w.table
  control : w'.control = w.control
  frames : w'.frames = w.frames
  waited : w'.waited = w.waited
  process : ∃ p state, w.processes[k]? = some p ∧ Moves p.child p.state state ∧
    w'.processes = w.processes.modify k fun p => { p with state }

omit [DecidableEq α] in
theorem ProcStepped.put (hk : w.processes[k]? = some p)
    (hmoves : Moves p.child p.state state) : ProcStepped w k (w.put k state) :=
  ⟨rfl, rfl, rfl, rfl, p, state, hk, hmoves, rfl⟩

omit [DecidableEq α] in
theorem Moves.stays (hp : p.state = .running table s written) (s' : σ) (n' : ℕ) :
    Moves p.child p.state (.running table s' n') := by
  rw [hp]
  exact .goes _ _ _ _ fun _ _ h => h

theorem readStep_spec (hk : w.processes[k]? = some p)
    (hp : p.state = .running table s written)
    (hstep : readStep w k table fd max received data = some w') : ProcStepped w k w' := by
  have hmoves := Moves.stays hp
  unfold readStep at hstep
  split at hstep
  · simp only at hstep
    split at hstep
    · cases hstep
    · exact Option.some.inj hstep ▸ ⟨rfl, rfl, rfl, rfl, p, _, hk, hmoves _ _, rfl⟩
  · exact Option.some.inj hstep ▸ .put hk (hmoves _ _)
  · exact Option.some.inj hstep ▸ .put hk (hmoves _ _)
  · exact Option.some.inj hstep ▸ ⟨rfl, rfl, rfl, rfl, p, _, hk, hmoves _ _, rfl⟩

theorem writeStep_spec (hk : w.processes[k]? = some p)
    (hp : p.state = .running table s written)
    (hstep : writeStep capacity w k table fd bytes s s' written = some w') :
    ProcStepped w k w' := by
  have hmoves := Moves.stays hp
  unfold writeStep at hstep
  split at hstep
  · split at hstep
    · simp only at hstep
      split at hstep
      · exact Option.some.inj hstep ▸ ⟨rfl, rfl, rfl, rfl, p, _, hk, hmoves _ _, rfl⟩
      · split at hstep
        · cases hstep
        · exact Option.some.inj hstep ▸ ⟨rfl, rfl, rfl, rfl, p, _, hk, hmoves _ _, rfl⟩
    · exact Option.some.inj hstep ▸ .put hk (hp ▸ .exits _ _ _)
  · exact Option.some.inj hstep ▸ .put hk (hmoves _ _)
  · exact Option.some.inj hstep ▸ .put hk (hmoves _ _)
  · exact Option.some.inj hstep ▸ ⟨rfl, rfl, rfl, rfl, p, _, hk, hmoves _ _, rfl⟩

theorem runStep_spec (hstep : runStep U capacity w k data = some w') : ProcStepped w k w' := by
  unfold runStep at hstep
  split at hstep
  · rename_i table s written hstate
    rcases Option.map_eq_some_iff.mp hstate with ⟨p, hk, hp⟩
    split at hstep
    · exact Option.some.inj hstep ▸ .put hk (.stays hp _ _)
    · exact readStep_spec hk hp hstep
    · exact writeStep_spec hk hp hstep
    · refine Option.some.inj hstep ▸ .put hk ?_
      rw [hp]
      refine .goes _ _ _ _ fun fd file h => ?_
      rw [Table.close, OrdMap.find?_erase] at h
      split at h
      · cases h
      · exact h
    · exact Option.some.inj hstep ▸ .put hk (hp ▸ .exits _ _ _)
  · cases hstep

omit [DecidableEq α] in
theorem execStep_spec (hstep : execStep U w k = some w') : ProcStepped w k w' := by
  unfold execStep at hstep
  split at hstep
  · rename_i hk
    exact Option.some.inj hstep ▸ .put hk (.exec _ _)
  · cases hstep

omit [DecidableEq α] in
theorem openFails_spec (hstep : openFails w k = some w') : ProcStepped w k w' := by
  unfold openFails at hstep
  split at hstep
  · rename_i hk
    exact Option.some.inj hstep ▸ .put hk (.fails _)
  · cases hstep

/-- A step is one of the shell or one of a process. -/
theorem stepped_of_step {l : Label} (hstep : step K U capacity pipeline l w = some w') :
    ShellStepped K pipeline w w' ∨ ∃ k, ProcStepped w k w' := by
  cases l with
  | shell => exact .inl (shellStepped_of_shellStep hstep)
  | exec k => exact .inr ⟨k, execStep_spec hstep⟩
  | openFails k => exact .inr ⟨k, openFails_spec hstep⟩
  | run k data => exact .inr ⟨k, runStep_spec hstep⟩

/-! ## The shell alone -/

/-- The shell of the sequential model. -/
def World.view (w : World α σ) : ShellState α where
  table := w.table
  children := w.processes.map Process.child
  waited := w.waited

/-- The calls of `run_command` return one after the other. -/
def unwind (K : Kernel α) : List (ℕ × ℕ) → ℕ × ShellState α → ℕ × ShellState α
  | [], r => r
  | (k, readFd) :: frames, (pid, s) => unwind K frames (K.pid k, (s.waitpid pid).close readFd)

/-- `run_pipeline` after `run_command` has returned. -/
def finish (pipeline : Pipeline) (r : ℕ × ShellState α) : ShellState α :=
  if pipeline.background then r.2 else r.2.waitpid r.1

/-- What the shell will be left with if every `waitpid` returns. -/
def outcome (K : Kernel α) (pipeline : Pipeline) (w : World α σ) : ShellState α :=
  match w.control with
  | .call k command next inFd =>
      finish pipeline (unwind K w.frames (runCommand K k command next inFd w.view))
  | .fork k command next inFd pipefd =>
      let s := fork K k command inFd pipefd w.view
      match pipefd, next with
      | some (readFd, writeFd), nextCommand :: rest =>
          finish pipeline (unwind K ((k, readFd) :: w.frames)
            (runCommand K (k + 1) nextCommand rest (some readFd) (s.close writeFd)))
      | _, _ => finish pipeline (unwind K w.frames (K.pid k, s))
  | .closeWrite k (readFd, writeFd) nextCommand rest =>
      finish pipeline (unwind K ((k, readFd) :: w.frames)
        (runCommand K (k + 1) nextCommand rest (some readFd) (w.view.close writeFd)))
  | .wait pid => finish pipeline (unwind K w.frames (pid, w.view))
  | .closeRead k readFd => finish pipeline (unwind K w.frames (K.pid k, w.view.close readFd))
  | .done => w.view

omit [DecidableEq α] in
theorem view_fork (k : ℕ) (command : Command) (inFd : Option ℕ) (pipefd : Option (ℕ × ℕ))
    (redirected : Bool) (control : Control) :
    World.view { w with
      processes := w.processes ++ [⟨⟨K.pid k, command.argv,
        childTable K k command inFd pipefd w.table⟩, redirected, .forked w.table⟩]
      control } = fork K k command inFd pipefd w.view := by
  simp only [World.view, fork, List.map_append, List.map_cons, List.map_nil]

omit [DecidableEq α] in
/-- A step of the shell is a step of the sequential model. -/
theorem outcome_shell (hstep : ShellStepped K pipeline w w') :
    outcome K pipeline w' = outcome K pipeline w := by
  cases hstep with
  | last k command inFd hcontrol => simp only [outcome, hcontrol, runCommand, World.view]
  | pipe k command nextCommand rest inFd hcontrol =>
    simp only [outcome, hcontrol, runCommand, World.view, unwind]
  | fork k command next inFd pipefd hcontrol =>
    cases pipefd with
    | none => simp only [outcome, hcontrol, afterFork, view_fork]
    | some =>
      cases next with
      | nil | cons => simp only [outcome, hcontrol, afterFork, view_fork]
  | closeWrite k readFd writeFd nextCommand rest hcontrol =>
    simp only [outcome, hcontrol]
    rfl
  -- the waits unwind the recursion of `run_command`
  | wait pid k readFd frames hcontrol hframes hexited =>
    simp only [outcome, hcontrol, hframes, unwind]
    rfl
  | background pid hcontrol hframes hbackground =>
    simp only [outcome, hcontrol, hframes, unwind, finish, hbackground, if_true]
    rfl
  | foreground pid hcontrol hframes hbackground hexited =>
    simp only [outcome, hcontrol, hframes, unwind, finish, hbackground]
    rfl
  | closeRead k readFd hcontrol =>
    simp only [outcome, hcontrol]
    rfl

omit [DecidableEq α] in
/-- A step of a process is not seen by the shell. -/
theorem ProcStepped.view_eq (hstep : ProcStepped w k w') : w'.view = w.view := by
  rcases hstep.process with ⟨p, state, -, -, hprocesses⟩
  have hchildren : w'.processes.map Process.child = w.processes.map Process.child := by
    refine List.ext_getElem? fun j => ?_
    rw [hprocesses, List.getElem?_map, List.getElem?_map, List.getElem?_modify]
    cases w.processes[j]? with
    | none => simp
    | some => by_cases hj : k = j <;> simp [hj]
  simp only [World.view, hstep.table, hstep.waited, hchildren]

omit [DecidableEq α] in
theorem outcome_proc (hstep : ProcStepped w k w') :
    outcome K pipeline w' = outcome K pipeline w := by
  simp only [outcome, hstep.control, hstep.frames, hstep.view_eq]

theorem outcome_eq (hr : Reachable (system K U capacity pipeline t) w) :
    outcome K pipeline w = runPipeline K pipeline ⟨t, [], []⟩ := by
  induction hr with
  | init hinit =>
    rcases hinit with rfl
    rfl
  | step l _ hnext ih =>
    rcases stepped_of_step hnext with hshell | ⟨k, hproc⟩
    · rw [outcome_shell hshell]
      exact ih
    · rw [outcome_proc hproc]
      exact ih

/-! ### The shell only forks and waits for more -/

/-- The children and the processes waited for are those of `s`, and maybe more. -/
structure Grows (s s' : ShellState α) : Prop where
  children : s.children <+: s'.children
  waited : s.waited <+: s'.waited

section Grows

variable {s s' s'' : ShellState α}

omit [DecidableEq α]

theorem Grows.refl (s : ShellState α) : Grows s s :=
  ⟨List.prefix_rfl, List.prefix_rfl⟩

theorem Grows.trans (h : Grows s s') (h' : Grows s' s'') : Grows s s'' :=
  ⟨h.children.trans h'.children, h.waited.trans h'.waited⟩

theorem grows_waitpid (s : ShellState α) (pid : ℕ) : Grows s (s.waitpid pid) :=
  ⟨List.prefix_rfl, List.prefix_append _ _⟩

theorem grows_close (s : ShellState α) (fd : ℕ) : Grows s (s.close fd) :=
  ⟨List.prefix_rfl, List.prefix_rfl⟩

theorem grows_fork (k : ℕ) (command : Command) (inFd : Option ℕ) (pipefd : Option (ℕ × ℕ))
    (s : ShellState α) : Grows s (fork K k command inFd pipefd s) :=
  ⟨List.prefix_append _ _, List.prefix_rfl⟩

theorem grows_runCommand (k : ℕ) (command : Command) (next : List Command) (inFd : Option ℕ)
    (s : ShellState α) : Grows s (runCommand K k command next inFd s).2 := by
  induction next generalizing k command inFd s with
  | nil => exact grows_fork k command inFd none s
  | cons nextCommand rest ih =>
    have hfork : Grows s (fork K k command inFd (some (K.pipefd k s.table))
        { s with table := pipe K k s.table }) := ⟨List.prefix_append _ _, List.prefix_rfl⟩
    exact ((((hfork.trans (grows_close _ _)).trans (ih _ _ _ _)).trans (grows_waitpid _ _)).trans
      (grows_close _ _))

theorem grows_unwind (frames : List (ℕ × ℕ)) (pid : ℕ) (s : ShellState α) :
    Grows s (unwind K frames (pid, s)).2 := by
  induction frames generalizing pid s with
  | nil => exact .refl _
  | cons frame frames ih =>
    exact ((grows_waitpid s pid).trans (grows_close _ frame.2)).trans (ih _ _)

theorem grows_finish (pipeline : Pipeline) (r : ℕ × ShellState α) : Grows r.2 (finish pipeline r) := by
  unfold finish
  split
  · exact .refl _
  · exact grows_waitpid _ _

/-- What the shell has done is part of what it will have done. -/
theorem grows_outcome (w : World α σ) : Grows w.view (outcome K pipeline w) := by
  have hend : ∀ frames pid (s : ShellState α), Grows s (finish pipeline (unwind K frames (pid, s))) :=
    fun frames pid s => (grows_unwind frames pid s).trans (grows_finish pipeline _)
  unfold outcome
  split
  · exact (grows_runCommand _ _ _ _ _).trans (hend _ _ _)
  · simp only
    split
    · exact (((grows_fork _ _ _ _ _).trans (grows_close _ _)).trans
        (grows_runCommand _ _ _ _ _)).trans (hend _ _ _)
    · exact (grows_fork _ _ _ _ _).trans (hend _ _ _)
  · exact ((grows_close _ _).trans (grows_runCommand _ _ _ _ _)).trans (hend _ _ _)
  · exact hend _ _ _
  · exact (grows_close _ _).trans (hend _ _ _)
  · exact .refl _

end Grows

/-- Whatever the processes do and in which order, the shell does what the sequential model
says: the processes are forked with its descriptors and command lines and waited for in its
order, and when `run_pipeline` returns, the shell has its descriptors. -/
theorem interleaved_runs_pipeline (K : Kernel α) (U : Userland σ) (capacity : ℕ)
    (pipeline : Pipeline) (t : Table α) (w : World α σ)
    (hr : Reachable (system K U capacity pipeline t) w) :
    Grows w.view (runPipeline K pipeline ⟨t, [], []⟩) ∧
      (w.control = .done → w.view = runPipeline K pipeline ⟨t, [], []⟩) := by
  rw [← outcome_eq hr]
  refine ⟨grows_outcome w, ?_⟩
  intro hdone
  simp only [outcome, hdone]

def Control.isDone : Control → Bool
  | .done => true
  | _ => false

theorem Control.eq_done {control : Control} (h : control.isDone = true) : control = .done := by
  cases control with
  | done => rfl
  | _ => cases h

inductive Demo where
  | echo
  | cat
  | copy (bytes : List UInt8)
  | stop

/-- `echo` writes two bytes, and every other program is `cat`. -/
def demo : Userland Demo where
  execvp argv := if argv = ["echo"] then .echo else .cat
  next
    | .echo => .write 1 [104, 105] .stop
    | .cat => .read 0 4 fun bytes => if bytes = [] then .stop else .copy bytes
    | .copy bytes => .write 1 bytes .cat
    | .stop => .exit

def echoCat : Pipeline := ⟨⟨["echo"], none, none⟩, [⟨["cat"], none, none⟩], false⟩

/-- The pipe has room for one byte, so the two processes take turns. -/
def echoCatRun : Behavior (system (posix String) demo 1 echoCat console) :=
  .ofSchedule (step (posix String) demo 1 echoCat) (fun _ _ _ h => h) (launch echoCat console)
    (launch_init _ _ _ _ _)
    ([.shell, .shell, .shell, .shell, .shell, .exec 0, .exec 1, .run 0 [], .run 1 [], .run 0 [],
      .run 1 [], .run 1 [], .run 1 [], .run 0 [], .run 1 [], .run 1 [], .shell, .shell, .shell])

theorem interleaved_runs_pipeline_echoCat :
    ((echoCatRun.state 9).processes.map fun p => p.child.argv) = [["echo"], ["cat"]] ∧
      Grows (echoCatRun.state 9).view (runPipeline (posix String) echoCat ⟨console, [], []⟩) ∧
      (echoCatRun.state 19).view = runPipeline (posix String) echoCat ⟨console, [], []⟩ := by
  have hdone : (echoCatRun.state 19).control = .done := Control.eq_done (by decide +kernel)
  refine ⟨by decide +kernel, ?_, ?_⟩
  · exact (interleaved_runs_pipeline (posix String) demo 1 echoCat console _
      (echoCatRun.reachable 9)).1
  · exact (interleaved_runs_pipeline (posix String) demo 1 echoCat console _
      (echoCatRun.reachable 19)).2 hdone

end SysProg.Shell
