import SysProg.Shell.Plumbing

/-!
# Pipelines of any length

* `pipeline_plumbing` — every command reads from the one before it and writes to the one
  after it, redirections apart; the shell is left as it was and has waited for all;
* `only_standard_iff` — which pipelines run their commands without other descriptors;
* `background_waits_iff` — which background pipelines the shell does not wait for.
-/

namespace SysProg.Shell

variable {α : Type} {K : Kernel α} {t : Table α} {children : List (Child α)}
  {commands : List Command} {inFd : Option ℕ} {command : Command} {k : ℕ}

/-! ## Plumbing -/

/-- What the child for command `k` of `n` is connected to, for a shell with table `t`. -/
structure Plumbed (t : Table α) (n k : ℕ) (command : Command) (child : Child α) : Prop where
  argv : child.argv = command.argv
  stdin : child.table.find? STDIN_FILENO =
    stdinOf command (if k = 0 then t.find? STDIN_FILENO else some (.readEnd (k - 1)))
  stdout : child.table.find? STDOUT_FILENO =
    stdoutOf command (if k + 1 = n then t.find? STDOUT_FILENO else some (.writeEnd k))

theorem Chain.length_eq (h : Chain K k t inFd commands children) :
    children.length = commands.length := by
  induction h with
  | last => rfl
  | cons _ _ _ ih => rw [List.length_cons, List.length_cons, ih]

theorem Chain.commands_pos (h : Chain K k t inFd commands children) :
    0 < commands.length := by
  cases h <;> simp

/-- The child at each position of a chain that starts with command `k`. -/
theorem Chain.child_at (h : Chain K k t inFd commands children) (hstd : Standard t)
    {j : ℕ} {child : Child α} (hcommand : commands[j]? = some command)
    (hchild : children[j]? = some child) :
    child.argv = command.argv ∧
    child.table.find? 0 = stdinOf command
      (if j = 0 then t.find? (inputFd inFd) else some (.readEnd (k + j - 1))) ∧
    child.table.find? 1 = stdoutOf command
      (if j + 1 = commands.length then t.find? 1 else some (.writeEnd (k + j))) := by
  induction h generalizing j with
  | last hexec =>
    cases j with
    | zero =>
      rcases Option.some.inj hcommand with rfl
      rcases Option.some.inj hchild with rfl
      exact ⟨hexec.argv, hexec.stdin, hexec.stdout⟩
    | succ => exact absurd hcommand (by simp)
  | @cons k readFd t inFd _ _ commands _ hfree hexec hrest ih =>
    cases j with
    | zero =>
      rcases Option.some.inj hcommand with rfl
      rcases Option.some.inj hchild with rfl
      -- there are commands after this one
      have hne : ¬ 0 + 1 = (commands.length + 1) := by
        have hpos := hrest.commands_pos
        omega
      refine ⟨hexec.argv, hexec.stdin, ?_⟩
      rw [List.length_cons, if_neg hne]
      exact hexec.stdout
    | succ j =>
      have hone : (t.insert readFd (.readEnd k)).find? 1 = t.find? 1 :=
        OrdMap.find?_insert_of_ne _ _ (hstd.extra hfree).2.1.symm
      rcases ih (hstd.insert _ _) hcommand hchild with ⟨hargv, hstdin, hstdout⟩
      refine ⟨hargv, ?_, ?_⟩
      · rw [hstdin, if_neg (Nat.succ_ne_zero j)]
        by_cases hj : j = 0
        · rw [if_pos hj, hj]
          simp [inputFd]
        · rw [if_neg hj, Nat.add_right_comm k 1 j]
          rfl
      · rw [hstdout, hone, List.length_cons, Nat.add_right_comm k 1 j]
        simp only [Nat.add_right_cancel_iff]
        rfl

theorem runPipeline_chain (K : Kernel α) (pipeline : Pipeline) (hstd : Standard t) :
    (runPipeline K pipeline ⟨t, [], []⟩).table = t ∧
    Chain K 0 t none pipeline.commands (runPipeline K pipeline ⟨t, [], []⟩).children := by
  have hin : InFdOpen t none := fun fd h => absurd h (by simp)
  have hrun : ∃ children, Chain K 0 t none pipeline.commands children ∧
      (runCommand K 0 pipeline.firstCommand pipeline.next none ⟨t, [], []⟩).2.table = t ∧
      (runCommand K 0 pipeline.firstCommand pipeline.next none ⟨t, [], []⟩).2.children =
        [] ++ children := runCommand_chain 0 _ _ none ⟨t, [], []⟩ hstd hin
  rcases hrun with ⟨children, hchain, htable, hchildren⟩
  rw [List.nil_append] at hchildren
  -- the last wait is not about descriptors
  have hkeep : ∀ s : ShellState α, ∀ pid, (s.waitpid pid).table = s.table ∧
      (s.waitpid pid).children = s.children := fun _ _ => ⟨rfl, rfl⟩
  unfold runPipeline
  cases pipeline.background with
  | true =>
    simp only [if_true]
    exact ⟨htable, hchildren ▸ hchain⟩
  | false =>
    simp only [Bool.false_eq_true, if_false, hkeep]
    exact ⟨htable, hchildren ▸ hchain⟩

theorem runPipeline_waited (K : Kernel α) (pipeline : Pipeline) (t : Table α) :
    (runPipeline K pipeline ⟨t, [], []⟩).waited =
      (K.pids 1 pipeline.next.length).reverse ++
        if pipeline.background then [] else [K.pid 0] := by
  have hrun := runCommand_waited (K := K) 0 pipeline.firstCommand pipeline.next none ⟨t, [], []⟩
  unfold runPipeline
  cases pipeline.background <;> simp [ShellState.waitpid, hrun, runCommand_fst]

/-- Pipelines are connected as they should be, whatever their length, their redirections
and the descriptors the shell has open; the shell is left with the descriptors it had, and
has waited once for every child of a foreground pipeline. -/
theorem pipeline_plumbing (K : Kernel α) (pipeline : Pipeline) (hstd : Standard t) :
    (runPipeline K pipeline ⟨t, [], []⟩).table = t ∧
    (runPipeline K pipeline ⟨t, [], []⟩).children.length = pipeline.commands.length ∧
    (∀ k command child, pipeline.commands[k]? = some command →
      (runPipeline K pipeline ⟨t, [], []⟩).children[k]? = some child →
      Plumbed t pipeline.commands.length k command child) ∧
    (pipeline.background = false →
      ((runPipeline K pipeline ⟨t, [], []⟩).children.map Child.pid).Nodup ∧
      (runPipeline K pipeline ⟨t, [], []⟩).waited.Perm
        ((runPipeline K pipeline ⟨t, [], []⟩).children.map Child.pid)) := by
  rcases runPipeline_chain K pipeline hstd with ⟨htable, hchain⟩
  refine ⟨htable, hchain.length_eq, ?_, ?_⟩
  · intro k command child hcommand hchild
    rcases hchain.child_at hstd hcommand hchild with ⟨hargv, hstdin, hstdout⟩
    rw [Nat.zero_add] at hstdin hstdout
    exact ⟨hargv, hstdin, hstdout⟩
  · intro hforeground
    rw [hchain.pids]
    refine ⟨Kernel.pids_nodup 0 _, ?_⟩
    rw [runPipeline_waited, hforeground, Pipeline.commands, List.length_cons,
      Kernel.pids_succ]
    -- the last command first, the first command last
    have hperm := (List.reverse_perm (K.pids 1 pipeline.next.length)).append_right [K.pid 0]
    exact hperm.trans (List.perm_append_singleton _ _)

theorem console_standard : Standard console :=
  ⟨by decide, by decide, by decide⟩

/-- `ls | sort < names | wc > count`. -/
theorem pipeline_plumbing_three :
    Standard console ∧
    (runPipeline (posix String) ⟨⟨["ls"], none, none⟩,
      [⟨["sort"], none, some "names"⟩, ⟨["wc"], some "count", none⟩], false⟩
      ⟨console, [], []⟩).waited.Perm [100, 101, 102] :=
  ⟨console_standard, ((pipeline_plumbing (posix String) ⟨⟨["ls"], none, none⟩,
    [⟨["sort"], none, some "names"⟩, ⟨["wc"], some "count", none⟩], false⟩
    console_standard).2.2.2 rfl).2⟩

/-! ## Other descriptors -/

/-- A descriptor that the shell has open beside the pipe it passes on is open in every
child. -/
theorem Chain.inherits {k : ℕ} {inFd : Option ℕ} {commands : List Command}
    {children : List (Child α)} (h : Chain K k t inFd commands children) {x : ℕ}
    {file : File α} (hextra : Extra x) (hx : t.find? x = some file) (hne : inFd ≠ some x)
    {child : Child α} (hchild : child ∈ children) : child.table.find? x = some file := by
  induction h with
  | last hexec =>
    rcases List.mem_singleton.mp hchild with rfl
    rw [hexec.others x hextra.1 hextra.2.1, if_neg hne, hx]
  | @cons k readFd t _ _ _ _ _ hfree hexec hrest ih =>
    rcases List.mem_cons.mp hchild with rfl | hchild
    · rw [hexec.others x hextra.1 hextra.2.1, if_neg hne, hx]
    · -- the new pipe has another descriptor
      have hread : x ≠ readFd := by
        rintro rfl
        exact absurd (hfree.symm.trans hx) (by simp)
      refine ih ?_ (fun h => hread (Option.some.inj h).symm) hchild
      rw [OrdMap.find?_insert_of_ne _ _ hread, hx]

theorem stdoutOf_ne_none {file : Option (File α)} (h : file ≠ none) :
    stdoutOf command file ≠ none := by
  unfold stdoutOf
  cases command.outputRedir with
  | none => exact h
  | some => exact Option.some_ne_none _

theorem mem_keys_iff_ne_none {x : ℕ} : x ∈ t.keys ↔ t.find? x ≠ none := by
  rw [OrdMap.mem_keys_iff_find?, Option.ne_none_iff_exists']

/-- A child has the descriptors of the shell, apart from the pipe it reads from. -/
theorem Exec.mem_keys
    {stdout : Option (File α)} {child : Child α} (h : Exec K k t inFd command stdout child)
    (hstd : Standard t) (hin : InFdOpen t inFd) (hstdout : stdout ≠ none) (x : ℕ) :
    x ∈ child.table.keys ↔ x ∈ t.keys ∧ inFd ≠ some x := by
  rw [mem_keys_iff_ne_none, mem_keys_iff_ne_none]
  by_cases hzero : x = 0
  · subst hzero
    rw [h.stdin]
    exact ⟨fun _ => ⟨hstd.stdin, fun h => (hin 0 h).1.1 rfl⟩,
      fun _ => stdinOf_ne_none (inputFd_open hstd hin)⟩
  · by_cases hone : x = 1
    · subst hone
      rw [h.stdout]
      exact ⟨fun _ => ⟨hstd.stdout, fun h => (hin 1 h).1.2.1 rfl⟩,
        fun _ => stdoutOf_ne_none hstdout⟩
    · rw [h.others x hzero hone]
      by_cases hx : inFd = some x
      · simp [hx]
      · simp [hx]

theorem standard_of_keys (ht : t.keys = [0, 1, 2]) : Standard t := by
  have hopen : ∀ x ∈ [0, 1, 2], t.find? x ≠ none := by
    intro x hx
    rw [← ht, mem_keys_iff_ne_none] at hx
    exact hx
  exact ⟨hopen 0 (by decide), hopen 1 (by decide), hopen 2 (by decide)⟩

/-- One command has the descriptors of the shell, and so have two: the second one has
closed its copy of the pipe. From the third on, commands also have the pipe between the
first two. -/
theorem Chain.keys_iff (h : Chain K 0 t none commands children) (ht : t.keys = [0, 1, 2]) :
    (∀ child ∈ children, child.table.keys = [0, 1, 2]) ↔ commands.length ≤ 2 := by
  have hstd := standard_of_keys ht
  have hin : InFdOpen t none := fun fd h => absurd h (by simp)
  have hfirst : ∀ {command stdout child}, Exec K 0 t none command stdout child →
      stdout ≠ none → child.table.keys = [0, 1, 2] := by
    intro command stdout child hexec hstdout
    rw [← ht]
    refine OrdMap.keys_eq_of_mem_iff fun x => ?_
    rw [hexec.mem_keys hstd hin hstdout]
    simp
  cases h with
  | last hexec =>
    simp only [List.mem_singleton, forall_eq, List.length_singleton, Nat.one_le_ofNat, iff_true]
    exact hfirst hexec hstd.stdout
  | @cons _ readFd _ _ _ child _ _ hfree hexec hrest =>
    have hread := hstd.extra hfree
    have hstd' : Standard (t.insert readFd (.readEnd 0)) := hstd.insert _ _
    have hin' : InFdOpen (t.insert readFd (.readEnd 0)) (some readFd) := by
      intro fd hfd
      rcases Option.some.inj hfd with rfl
      exact ⟨hread, by rw [OrdMap.find?_insert_self]; exact Option.some_ne_none _⟩
    cases hrest with
    | @last _ _ _ _ child' hexec' =>
      simp only [List.mem_cons, List.not_mem_nil, or_false, List.length_cons, List.length_nil,
        Nat.reduceAdd, le_refl, iff_true]
      rintro x (rfl | rfl)
      · exact hfirst hexec (Option.some_ne_none _)
      · rw [← ht]
        refine OrdMap.keys_eq_of_mem_iff fun x => ?_
        rw [hexec'.mem_keys hstd' hin' hstd'.stdout, mem_keys_iff_ne_none,
          mem_keys_iff_ne_none, OrdMap.find?_insert]
        by_cases hx : x = readFd
        · simp [hx, hfree]
        · simp [hx, Ne.symm hx]
    | @cons _ readFd' _ _ _ _ commands children hfree' hexec' hrest' =>
      -- a third command
      have hlen := hrest'.commands_pos
      have hthree : ¬ (commands.length + 1 + 1 ≤ 2) := by omega
      refine ⟨fun hall => ?_, fun hle => absurd hle hthree⟩
      exfalso
      have hne : readFd ≠ readFd' := by
        rintro rfl
        rw [OrdMap.find?_insert_self] at hfree'
        exact absurd hfree' (Option.some_ne_none _)
      have hopen : ((t.insert readFd (.readEnd 0)).insert readFd' (.readEnd 1)).find? readFd =
          some (.readEnd 0) := by
        rw [OrdMap.find?_insert_of_ne _ _ hne, OrdMap.find?_insert_self]
      have hpos : 0 < children.length := hrest'.length_eq ▸ hlen
      have hmem := List.getElem_mem hpos
      have hinherit := hrest'.inherits hread hopen (fun h => hne (Option.some.inj h).symm) hmem
      have hkeys := hall _ (List.mem_cons_of_mem _ (List.mem_cons_of_mem _ hmem))
      have hkey : readFd ∈ [0, 1, 2] := by
        rw [← hkeys]
        exact OrdMap.mem_keys_iff_find?.mpr ⟨_, hinherit⟩
      rcases hread with ⟨h0, h1, h2⟩
      simp [h0, h1, h2] at hkey

/-- Every command runs with the standard descriptors only just when there are at most two
commands. -/
theorem only_standard_iff (K : Kernel α) (pipeline : Pipeline) (ht : t.keys = [0, 1, 2]) :
    (∀ child ∈ (runPipeline K pipeline ⟨t, [], []⟩).children,
      child.table.keys = [0, 1, 2]) ↔ pipeline.commands.length ≤ 2 :=
  (runPipeline_chain K pipeline (standard_of_keys ht)).2.keys_iff ht

/-- `ls | wc`. -/
theorem only_standard_two : console.keys = [0, 1, 2] ∧
    ∀ child ∈ (runPipeline (posix String) ⟨⟨["ls"], none, none⟩, [⟨["wc"], none, none⟩], false⟩
      ⟨console, [], []⟩).children, child.table.keys = [0, 1, 2] :=
  ⟨by decide, (only_standard_iff (posix String) _ (by decide)).mpr (by decide)⟩

/-- `ls | sort | wc`: the last command also has the read end of the first pipe. -/
theorem third_command_inherits :
    console.keys = [0, 1, 2] ∧
    (runPipeline (posix String) ⟨⟨["ls"], none, none⟩,
      [⟨["sort"], none, none⟩, ⟨["wc"], none, none⟩], false⟩ ⟨console, [], []⟩).children.map
      (fun child => (child.argv, child.table.entries)) =
      [(["ls"], [(0, .initial "stdin"), (1, .writeEnd 0), (2, .initial "stderr")]),
       (["sort"], [(0, .readEnd 0), (1, .writeEnd 1), (2, .initial "stderr")]),
       (["wc"], [(0, .readEnd 1), (1, .initial "stdout"), (2, .initial "stderr"),
         (3, .readEnd 0)])] := by
  decide +kernel

/-! ## Waiting -/

/-- The shell does not wait for a background pipeline just when it has one command: it waits
for the second and all later ones in `run_command`, whatever the flag says. -/
theorem background_waits_iff (K : Kernel α) (pipeline : Pipeline) (t : Table α)
    (hbackground : pipeline.background = true) :
    (runPipeline K pipeline ⟨t, [], []⟩).waited = [] ↔ pipeline.commands.length = 1 := by
  rw [runPipeline_waited, hbackground, if_pos rfl, List.append_nil, List.reverse_eq_nil_iff,
    Kernel.pids, List.map_eq_nil_iff, List.range'_eq_nil_iff, Pipeline.commands,
    List.length_cons]
  omega

/-- `sleep &`. -/
theorem background_waits_single :
    (runPipeline (posix String) ⟨⟨["sleep"], none, none⟩, [], true⟩
      ⟨console, [], []⟩).waited = [] :=
  (background_waits_iff (posix String) ⟨⟨["sleep"], none, none⟩, [], true⟩ console rfl).mpr rfl

/-- `ls | wc &`: the shell waits for `wc`. -/
theorem background_pipe_waits :
    (runPipeline (posix String) ⟨⟨["ls"], none, none⟩, [⟨["wc"], none, none⟩], true⟩
      ⟨console, [], []⟩).waited = [101] := by
  decide +kernel

end SysProg.Shell
