import SysProg.Shell.Execute

/-!
# Descriptors of a pipeline

What the children of a pipeline are executed with, and what the shell is left with.

* `find?_childTable` — the descriptors of one child;
* `Chain` — the children of a pipeline, connected one to the next;
* `runCommand_chain` — `run_command` makes a chain, restores the table of the shell and
  waits for all children but the first.
-/

namespace SysProg.Shell

variable {α : Type} {K : Kernel α} {t : Table α} {command : Command} {inFd : Option ℕ}
  {file : File α} {k : ℕ}

/-! ## One descriptor -/

theorem find?_close (t : Table α) (fd x : ℕ) :
    (t.close fd).find? x = if x = fd then none else t.find? x :=
  OrdMap.find?_erase t fd x

theorem find?_redirect {fd target : ℕ} (hfd : t.find? fd = some file) (x : ℕ) :
    (t.redirect fd target).find? x =
      if x = fd then none else if x = target then some file else t.find? x := by
  unfold Table.redirect Table.dup2
  rw [find?_close, hfd]
  simp only [OrdMap.find?_insert]

/-- A file that is opened and moved to a descriptor in use leaves no other trace. -/
theorem find?_openRedirect {k target : ℕ} {call : Call} (htarget : t.find? target ≠ none) (x : ℕ) :
    (openRedirect K k call file target t).find? x =
      if x = target then some file else t.find? x := by
  have hfree := K.unused_spec k call t
  have hne : K.unused k call t ≠ target := by
    intro heq
    exact htarget (heq ▸ hfree)
  unfold openRedirect
  rw [find?_redirect (OrdMap.find?_insert_self t _ file), OrdMap.find?_insert]
  by_cases hx : x = K.unused k call t
  · rw [if_pos hx, hx, if_neg hne, hfree]
  · rw [if_neg hx, if_neg hx]

/-! ## One child -/

/-- What a command reads from when it would otherwise read from `file`. -/
def stdinOf (command : Command) (file : Option (File α)) : Option (File α) :=
  match command.inputRedir with
  | none => file
  | some path => some (.input path)

/-- What a command writes to when it would otherwise write to `file`. -/
def stdoutOf (command : Command) (file : Option (File α)) : Option (File α) :=
  match command.outputRedir with
  | none => file
  | some path => some (.output path)

/-- The standard descriptors are open. -/
structure Standard (t : Table α) : Prop where
  stdin : t.find? 0 ≠ none
  stdout : t.find? 1 ≠ none
  stderr : t.find? 2 ≠ none

/-- A descriptor other than the standard ones. -/
def Extra (fd : ℕ) : Prop := fd ≠ 0 ∧ fd ≠ 1 ∧ fd ≠ 2

theorem Standard.extra (h : Standard t) {fd : ℕ} (hfd : t.find? fd = none) : Extra fd := by
  refine ⟨?_, ?_, ?_⟩
  · rintro rfl
    exact h.stdin hfd
  · rintro rfl
    exact h.stdout hfd
  · rintro rfl
    exact h.stderr hfd

theorem Standard.insert (h : Standard t) (fd : ℕ) (file : File α) :
    Standard (t.insert fd file) := by
  have hopen : ∀ x, t.find? x ≠ none → (t.insert fd file).find? x ≠ none := by
    intro x hx
    rw [OrdMap.find?_insert]
    split
    · exact Option.some_ne_none _
    · exact hx
  exact ⟨hopen 0 h.stdin, hopen 1 h.stdout, hopen 2 h.stderr⟩

/-- The descriptor that the child reads from: that of a pipe, or its standard input. -/
def inputFd (inFd : Option ℕ) : ℕ := inFd.getD 0

/-- The pipe that the child reads from is open. -/
def InFdOpen (t : Table α) (inFd : Option ℕ) : Prop :=
  ∀ fd, inFd = some fd → Extra fd ∧ t.find? fd ≠ none

theorem find?_readFromPipe (hin : InFdOpen t inFd) (x : ℕ) :
    (readFromPipe inFd t).find? x =
      if inFd = some x then none else if x = 0 then t.find? (inputFd inFd) else t.find? x := by
  cases inFd with
  | none =>
    simp only [readFromPipe, inputFd, Option.getD_none]
    split
    · contradiction
    · split
      · rename_i hx
        rw [hx]
      · rfl
  | some fd =>
    rcases Option.ne_none_iff_exists'.mp (hin fd rfl).2 with ⟨file, hfile⟩
    simp only [readFromPipe, inputFd, Option.getD_some, find?_redirect hfile, hfile,
      Option.some.injEq, eq_comm, STDIN_FILENO]

theorem find?_readFromFile (hstdin : t.find? 0 ≠ none) (x : ℕ) :
    (readFromFile K k command t).find? x =
      if x = 0 then stdinOf command (t.find? 0) else t.find? x := by
  unfold readFromFile stdinOf
  cases command.inputRedir with
  | none =>
    simp only
    split
    · rename_i hx
      rw [hx]
    · rfl
  | some => exact find?_openRedirect hstdin x

theorem find?_writeToPipe {readFd writeFd : ℕ} (hread : Extra readFd)
    (hne : readFd ≠ writeFd) (hfile : t.find? writeFd = some file) (x : ℕ) :
    (writeToPipe (some (readFd, writeFd)) t).find? x =
      if x = writeFd ∨ x = readFd then none else if x = 1 then some file else t.find? x := by
  have hopen : (t.close readFd).find? writeFd = some file := by
    rw [find?_close, if_neg hne.symm, hfile]
  simp only [writeToPipe, find?_redirect hopen, find?_close, STDOUT_FILENO]
  by_cases hw : x = writeFd
  · rw [if_pos hw, if_pos (.inl hw)]
  · by_cases hr : x = readFd
    · have hone : x ≠ 1 := hr ▸ hread.2.1
      rw [if_neg hw, if_neg hone, if_pos hr, if_pos (.inr hr)]
    · have hnot : ¬ (x = writeFd ∨ x = readFd) := fun h => h.elim hw hr
      rw [if_neg hw, if_neg hr, if_neg hnot]

theorem find?_writeToFile (hstdout : t.find? 1 ≠ none) (x : ℕ) :
    (writeToFile K k command t).find? x =
      if x = 1 then stdoutOf command (t.find? 1) else t.find? x := by
  unfold writeToFile stdoutOf
  cases command.outputRedir with
  | none =>
    simp only
    split
    · rename_i hx
      rw [hx]
    · rfl
  | some => exact find?_openRedirect hstdout x

/-- A child is executed with its own ends of pipes and redirections as standard input and
output; all other descriptors are those of the shell, without the pipe it reads from. -/
structure Exec (K : Kernel α) (k : ℕ) (t : Table α) (inFd : Option ℕ) (command : Command)
    (stdout : Option (File α)) (child : Child α) : Prop where
  pid : child.pid = K.pid k
  argv : child.argv = command.argv
  stdin : child.table.find? 0 = stdinOf command (t.find? (inputFd inFd))
  stdout : child.table.find? 1 = stdoutOf command stdout
  others : ∀ x, x ≠ 0 → x ≠ 1 → child.table.find? x =
    if inFd = some x then none else t.find? x

theorem inputFd_open (hstd : Standard t) (hin : InFdOpen t inFd) :
    t.find? (inputFd inFd) ≠ none := by
  cases inFd with
  | none => exact hstd.stdin
  | some fd => exact (hin fd rfl).2

theorem stdinOf_ne_none {file : Option (File α)} (h : file ≠ none) :
    stdinOf command file ≠ none := by
  unfold stdinOf
  cases command.inputRedir with
  | none => exact h
  | some => exact Option.some_ne_none _

/-- The first half of the child. -/
theorem find?_input (hstd : Standard t) (hin : InFdOpen t inFd) (x : ℕ) :
    (readFromFile K k command (readFromPipe inFd t)).find? x =
      if x = 0 then stdinOf command (t.find? (inputFd inFd))
      else if inFd = some x then none else t.find? x := by
  have hzero : (readFromPipe inFd t).find? 0 = t.find? (inputFd inFd) := by
    rw [find?_readFromPipe hin, if_neg (fun h => (hin 0 h).1.1 rfl), if_pos rfl]
  have hopen : (readFromPipe inFd t).find? 0 ≠ none := by
    rw [hzero]
    exact inputFd_open hstd hin
  rw [find?_readFromFile hopen, hzero, find?_readFromPipe hin]
  by_cases hx : x = 0
  · rw [if_pos hx, if_pos hx]
  · rw [if_neg hx, if_neg hx, if_neg hx]

/-- The last command of a pipeline. -/
theorem childTable_last (hstd : Standard t) (hin : InFdOpen t inFd) :
    Exec K k t inFd command (t.find? 1)
      ⟨K.pid k, command.argv, childTable K k command inFd none t⟩ := by
  have hnot : inFd ≠ some 1 := fun h => (hin 1 h).1.2.1 rfl
  have hone : (readFromFile K k command (readFromPipe inFd t)).find? 1 = t.find? 1 := by
    rw [find?_input hstd hin, if_neg Nat.one_ne_zero, if_neg hnot]
  have hopen : (readFromFile K k command (readFromPipe inFd t)).find? 1 ≠ none := by
    rw [hone]
    exact hstd.stdout
  have hfind : ∀ x, (childTable K k command inFd none t).find? x =
      if x = 1 then stdoutOf command (t.find? 1)
      else if x = 0 then stdinOf command (t.find? (inputFd inFd))
      else if inFd = some x then none else t.find? x := by
    intro x
    show (writeToFile K k command (readFromFile K k command (readFromPipe inFd t))).find? x = _
    rw [find?_writeToFile hopen, hone, find?_input hstd hin]
  refine ⟨rfl, rfl, ?_, ?_, ?_⟩
  · rw [hfind, if_neg Nat.zero_ne_one, if_pos rfl]
  · rw [hfind, if_pos rfl]
  · intro x hzero hone'
    rw [hfind, if_neg hone', if_neg hzero]

/-! ## Pipes -/

theorem find?_pipefd_fst (k : ℕ) (t : Table α) : t.find? (K.pipefd k t).1 = none :=
  K.unused_spec k .pipeRead t

theorem find?_pipefd_snd (k : ℕ) (t : Table α) :
    (t.insert (K.pipefd k t).1 (.readEnd k)).find? (K.pipefd k t).2 = none :=
  K.unused_spec k .pipeWrite _

theorem pipefd_ne (k : ℕ) (t : Table α) : (K.pipefd k t).1 ≠ (K.pipefd k t).2 := by
  intro heq
  have hfree := find?_pipefd_snd (K := K) k t
  rw [← heq, OrdMap.find?_insert_self] at hfree
  exact absurd hfree (Option.some_ne_none _)

theorem find?_pipefd_snd_old (k : ℕ) (t : Table α) : t.find? (K.pipefd k t).2 = none := by
  have hfree := find?_pipefd_snd (K := K) k t
  rw [OrdMap.find?_insert_of_ne _ _ (pipefd_ne k t).symm] at hfree
  exact hfree

theorem find?_pipe (k : ℕ) (t : Table α) (x : ℕ) :
    (pipe K k t).find? x = if x = (K.pipefd k t).2 then some (.writeEnd k)
      else if x = (K.pipefd k t).1 then some (.readEnd k) else t.find? x := by
  unfold pipe
  rw [OrdMap.find?_insert, OrdMap.find?_insert]

/-- The shell closes the end that it does not pass on. -/
theorem close_pipe (k : ℕ) (t : Table α) :
    Table.close (pipe K k t) (K.pipefd k t).2 = t.insert (K.pipefd k t).1 (.readEnd k) :=
  OrdMap.erase_insert _ (find?_pipefd_snd k t)

/-- What was open before the pipe is not an end of it. -/
theorem find?_pipe_old {k x : ℕ} (hx : t.find? x ≠ none) : (pipe K k t).find? x = t.find? x := by
  rw [find?_pipe, if_neg, if_neg]
  · rintro rfl
    exact hx (find?_pipefd_fst k t)
  · rintro rfl
    exact hx (find?_pipefd_snd_old k t)

section Pipe

variable {k : ℕ} {command : Command} {inFd : Option ℕ} (hstd : Standard t) (hin : InFdOpen t inFd)
include hstd hin

/-- The input of the child is set up. -/
theorem find?_pipe_input (x : ℕ) :
    (readFromFile K k command (readFromPipe inFd (pipe K k t))).find? x =
      if x = 0 then stdinOf command (t.find? (inputFd inFd))
      else if inFd = some x then none else (pipe K k t).find? x := by
  have hstd' : Standard (pipe K k t) := (hstd.insert _ _).insert _ _
  have hin' : InFdOpen (pipe K k t) inFd := by
    intro fd hfd
    rw [find?_pipe_old (hin fd hfd).2]
    exact hin fd hfd
  rw [find?_input hstd' hin', find?_pipe_old (inputFd_open hstd hin)]

/-- The whole table of the child. -/
theorem find?_childTable_pipe (x : ℕ) :
    (childTable K k command inFd (some (K.pipefd k t)) (pipe K k t)).find? x =
      if x = 1 then stdoutOf command (some (.writeEnd k))
      else if x = (K.pipefd k t).2 ∨ x = (K.pipefd k t).1 then none
      else if x = 0 then stdinOf command (t.find? (inputFd inFd))
      else if inFd = some x then none else (pipe K k t).find? x := by
  have hread := hstd.extra (find?_pipefd_fst (K := K) k t)
  have hwrite := hstd.extra (find?_pipefd_snd_old (K := K) k t)
  have hfile : (readFromFile K k command (readFromPipe inFd (pipe K k t))).find?
      (K.pipefd k t).2 = some (.writeEnd k) := by
    have hnot : inFd ≠ some (K.pipefd k t).2 := fun h =>
      (hin _ h).2 (find?_pipefd_snd_old k t)
    rw [find?_pipe_input hstd hin, if_neg hwrite.1, if_neg hnot, find?_pipe, if_pos rfl]
  have hpipe := find?_writeToPipe hread (pipefd_ne k t) hfile
  -- the output is the pipe, until a redirection replaces it
  have hone : (writeToPipe (some (K.pipefd k t)) (readFromFile K k command
      (readFromPipe inFd (pipe K k t)))).find? 1 = some (.writeEnd k) := by
    have hnot : ¬ (1 = (K.pipefd k t).2 ∨ 1 = (K.pipefd k t).1) := fun h =>
      h.elim (fun h => hwrite.2.1 h.symm) fun h => hread.2.1 h.symm
    rw [hpipe, if_neg hnot, if_pos rfl]
  have hopen : (writeToPipe (some (K.pipefd k t)) (readFromFile K k command
      (readFromPipe inFd (pipe K k t)))).find? 1 ≠ none := by
    rw [hone]
    exact Option.some_ne_none _
  show (writeToFile K k command (writeToPipe (some (K.pipefd k t)) (readFromFile K k command
    (readFromPipe inFd (pipe K k t))))).find? x = _
  rw [find?_writeToFile hopen, hone, hpipe, find?_pipe_input hstd hin]
  by_cases hx : x = 1
  · rw [if_pos hx, if_pos hx]
  · rw [if_neg hx, if_neg hx, if_neg hx]

/-- A command of a pipeline that is not the last one. -/
theorem childTable_pipe :
    Exec K k t inFd command (some (.writeEnd k))
      ⟨K.pid k, command.argv,
        childTable K k command inFd (some (K.pipefd k t)) (pipe K k t)⟩ := by
  have hread := hstd.extra (find?_pipefd_fst (K := K) k t)
  have hwrite := hstd.extra (find?_pipefd_snd_old (K := K) k t)
  refine ⟨rfl, rfl, ?_, ?_, ?_⟩
  · have hnot : ¬ (0 = (K.pipefd k t).2 ∨ 0 = (K.pipefd k t).1) := fun h =>
      h.elim (fun h => hwrite.1 h.symm) fun h => hread.1 h.symm
    rw [find?_childTable_pipe hstd hin, if_neg Nat.zero_ne_one, if_neg hnot, if_pos rfl]
  · rw [find?_childTable_pipe hstd hin, if_pos rfl]
  · intro x hzero hone
    rw [find?_childTable_pipe hstd hin, if_neg hone, if_neg hzero, find?_pipe]
    by_cases hw : x = (K.pipefd k t).2
    · rw [if_pos (.inl hw), hw, find?_pipefd_snd_old, ite_self]
    · by_cases hr : x = (K.pipefd k t).1
      · rw [if_pos (.inr hr), hr, find?_pipefd_fst, ite_self]
      · have hnot : ¬ (x = (K.pipefd k t).2 ∨ x = (K.pipefd k t).1) := fun h => h.elim hw hr
        rw [if_neg hnot, if_neg hw, if_neg hr]

end Pipe

/-! ## All children -/

/-- The children of a pipeline from command `k` on, forked by a shell with table `t`: each
command but the last writes to a pipe whose other end stays open in the shell, and which
the next command reads from. -/
inductive Chain (K : Kernel α) :
    ℕ → Table α → Option ℕ → List Command → List (Child α) → Prop where
  | last {k : ℕ} {t : Table α} {inFd : Option ℕ} {command : Command} {child : Child α}
      (hexec : Exec K k t inFd command (t.find? 1) child) :
      Chain K k t inFd [command] [child]
  | cons {k readFd : ℕ} {t : Table α} {inFd : Option ℕ} {command : Command}
      {child : Child α} {commands : List Command} {children : List (Child α)}
      (hfree : t.find? readFd = none)
      (hexec : Exec K k t inFd command (some (.writeEnd k)) child)
      (hrest : Chain K (k + 1) (t.insert readFd (.readEnd k)) (some readFd) commands children) :
      Chain K k t inFd (command :: commands) (child :: children)

/-- `run_command` forks a chain and leaves the table of the shell as it was. -/
theorem runCommand_chain (k : ℕ) (command : Command) (next : List Command)
    (inFd : Option ℕ) (s : ShellState α) (hstd : Standard s.table) (hin : InFdOpen s.table inFd) :
    ∃ children, Chain K k s.table inFd (command :: next) children ∧
      (runCommand K k command next inFd s).2.table = s.table ∧
      (runCommand K k command next inFd s).2.children = s.children ++ children := by
  induction next generalizing k command inFd s with
  | nil => exact ⟨_, .last (childTable_last hstd hin), rfl, rfl⟩
  | cons nextCommand rest ih =>
    have hfree := find?_pipefd_fst (K := K) k s.table
    have hin' : InFdOpen (s.table.insert (K.pipefd k s.table).1 (.readEnd k))
        (some (K.pipefd k s.table).1) := by
      intro fd hfd
      rcases Option.some.inj hfd with rfl
      refine ⟨hstd.extra hfree, ?_⟩
      rw [OrdMap.find?_insert_self]
      exact Option.some_ne_none _
    -- the shell as it goes on with the next command
    have hnext := ih (k + 1) nextCommand (some (K.pipefd k s.table).1)
      ⟨s.table.insert (K.pipefd k s.table).1 (.readEnd k), s.children ++
        [⟨K.pid k, command.argv, childTable K k command inFd (some (K.pipefd k s.table))
          (pipe K k s.table)⟩], s.waited⟩ (hstd.insert _ _) hin'
    rcases hnext with ⟨children, hchain, htable, hchildren⟩
    refine ⟨_, .cons hfree (childTable_pipe hstd hin) hchain, ?_, ?_⟩
    · simp only [runCommand, fork, ShellState.close, ShellState.waitpid, close_pipe, htable]
      exact OrdMap.erase_insert _ hfree
    · simp only [runCommand, fork, ShellState.close, ShellState.waitpid, close_pipe, hchildren,
        List.append_assoc, List.singleton_append]

theorem runCommand_fst (k : ℕ) (command : Command) (next : List Command) (inFd : Option ℕ)
    (s : ShellState α) : (runCommand K k command next inFd s).1 = K.pid k := by
  cases next <;> rfl

/-- The processes of `n` commands from command `k` on. -/
def Kernel.pids (K : Kernel α) (k n : ℕ) : List ℕ := (List.range' k n).map K.pid

theorem Kernel.pids_succ (k n : ℕ) : K.pids k (n + 1) = K.pid k :: K.pids (k + 1) n := rfl

theorem Kernel.pids_nodup (k n : ℕ) : (K.pids k n).Nodup :=
  (List.nodup_range').map K.pid_injective

/-- `run_command` waits for the children of the later commands, the last one first. -/
theorem runCommand_waited (k : ℕ) (command : Command) (next : List Command)
    (inFd : Option ℕ) (s : ShellState α) :
    (runCommand K k command next inFd s).2.waited =
      s.waited ++ (K.pids (k + 1) next.length).reverse := by
  induction next generalizing k command inFd s with
  | nil => simp [runCommand, fork, Kernel.pids]
  | cons nextCommand rest ih =>
    simp [runCommand, fork, ShellState.close, ShellState.waitpid, ih, runCommand_fst,
      Kernel.pids_succ]

theorem Chain.pids {commands : List Command}
    {children : List (Child α)} (h : Chain K k t inFd commands children) :
    children.map Child.pid = K.pids k commands.length := by
  induction h with
  | last hexec => simp [hexec.pid, Kernel.pids]
  | cons hfree hexec hrest ih =>
    rw [List.map_cons, ih, hexec.pid, List.length_cons, Kernel.pids_succ]

end SysProg.Shell
