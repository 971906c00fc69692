import Mathlib.Tactic
import SysProg.Shell.Plumbing
import SysProg.Shell.Processes

/-!
# Pipelines do not deadlock

Processes wait for each other through pipes, and the shell waits for processes while it has
ends of pipes open itself.

* `Stacked` — the descriptors of the shell: one end of a pipe for each call of `run_command`
  that has not returned;
* `Stage` — what holds at each point of the shell;
* `Ends` — process `k` can only write to pipe `k`, and only read from pipes before;
* `waits_to_write` — if nothing can move, a running process waits for room in its own pipe,
  since a process that waits for input waits for one before it;
* `never_stuck` — some process or the shell can move until all processes have exited and the
  shell is done.
-/

namespace SysProg.Shell

open Lts

variable {α σ : Type} {K : Kernel α} {U : Userland σ} {capacity : ℕ}
  {pipeline : Pipeline} {t₀ t : Table α} {w w' : World α σ} {frames : List (ℕ × ℕ)}
  {fd j k readFd : ℕ} {file : File α} {p : Process α σ} {state : ProcState α σ}

/-! ## The descriptors of the shell -/

/-- No descriptor refers to a pipe. -/
def NoPipes (t : Table α) : Prop :=
  ∀ fd j, t.find? fd ≠ some (.readEnd j) ∧ t.find? fd ≠ some (.writeEnd j)

/-- The descriptors of a shell that has one end of a pipe open for each call of `run_command`. -/
inductive Stacked (t₀ : Table α) : List (ℕ × ℕ) → Table α → Prop where
  | nil : Stacked t₀ [] t₀
  | cons {frames : List (ℕ × ℕ)} {t : Table α} {readFd : ℕ} : Stacked t₀ frames t →
      t.find? readFd = none →
      Stacked t₀ ((frames.length, readFd) :: frames) (t.insert readFd (.readEnd frames.length))

/-- The pipe that the next command reads from. -/
def inFdOf (frames : List (ℕ × ℕ)) : Option ℕ :=
  frames.head?.map Prod.snd

namespace Stacked

theorem standard (hs : Stacked t₀ frames t) (hstd : Standard t₀) : Standard t := by
  induction hs with
  | nil => exact hstd
  | cons _ _ ih => exact ih.insert _ _

theorem inFdOpen (hs : Stacked t₀ frames t) (hstd : Standard t₀) : InFdOpen t (inFdOf frames) := by
  intro fd hfd
  cases hs with
  | nil => cases hfd
  | cons hs hfree =>
    rcases Option.some.inj hfd with rfl
    refine ⟨(hs.standard hstd).extra hfree, ?_⟩
    rw [OrdMap.find?_insert_self]
    exact Option.some_ne_none _

theorem eq_nil (hs : Stacked t₀ [] t) : t = t₀ := by
  cases hs
  rfl

/-- The last pipe that the shell has not closed. -/
theorem top (hs : Stacked t₀ ((k, readFd) :: frames) t) : k = frames.length ∧
    ∃ t', Stacked t₀ frames t' ∧ t'.find? readFd = none ∧ t = t'.insert readFd (.readEnd k) := by
  cases hs with
  | cons hs hfree => exact ⟨rfl, _, hs, hfree, rfl⟩

theorem read_lt (hs : Stacked t₀ frames t) (hno : NoPipes t₀)
    (hfd : t.find? fd = some (.readEnd j)) : j < frames.length := by
  induction hs generalizing fd with
  | nil => exact absurd hfd (hno fd j).1
  | cons _ _ ih =>
    rw [OrdMap.find?_insert] at hfd
    split at hfd
    · cases hfd
      exact Nat.lt_succ_self _
    · exact (ih hfd).trans (Nat.lt_succ_self _)

theorem not_write (hs : Stacked t₀ frames t) (hno : NoPipes t₀) :
    t.find? fd ≠ some (.writeEnd j) := by
  induction hs generalizing fd with
  | nil => exact (hno fd j).2
  | cons _ _ ih =>
    rw [OrdMap.find?_insert]
    split
    · exact fun h => by cases h
    · exact ih

end Stacked

/-! ## The ends that a process has -/

/-- A program can read from pipes before its command, and write to its own. -/
def Allowed (k : ℕ) : File α → Prop
  | .readEnd j => j < k
  | .writeEnd j => j = k
  | _ => True

/-- What is open is allowed. -/
def Ends (k : ℕ) (t : Table α) : Prop :=
  ∀ fd file, t.find? fd = some file → Allowed k file

theorem Stacked.ends (hs : Stacked t₀ frames t) (hno : NoPipes t₀) : Ends frames.length t := by
  intro fd file hfd
  cases file with
  | readEnd => exact hs.read_lt hno hfd
  | writeEnd => exact absurd hfd (hs.not_write hno)
  | _ => trivial

/-- The ends of pipes that a child is executed with. -/
theorem Exec.ends {inFd : Option ℕ} {command : Command} {stdout : Option (File α)}
    {child : Child α} (hexec : Exec K frames.length t inFd command stdout child)
    (hs : Stacked t₀ frames t) (hno : NoPipes t₀)
    (hout : ∀ file, stdout = some file → Allowed frames.length file) :
    Ends frames.length child.table := by
  intro fd file hfd
  by_cases hzero : fd = 0
  · rw [hzero, hexec.stdin, stdinOf] at hfd
    split at hfd
    · exact hs.ends hno _ file hfd
    · -- a redirection opens a regular file
      exact Option.some.inj hfd ▸ trivial
  · by_cases hone : fd = 1
    · rw [hone, hexec.stdout, stdoutOf] at hfd
      split at hfd
      · exact hout file hfd
      · exact Option.some.inj hfd ▸ trivial
    · rw [hexec.others fd hzero hone] at hfd
      split at hfd
      · cases hfd
      · exact hs.ends hno fd file hfd

/-! ## The points of the shell -/

def Exited (w : World α σ) (k : ℕ) : Prop :=
  ∃ p, w.processes[k]? = some p ∧ p.state = .exited

/-- What holds when the shell is at a point of `run_command` or of `run_pipeline`. -/
inductive Stage (K : Kernel α) (pipeline : Pipeline) (t₀ : Table α) (w : World α σ) :
    Control → Prop where
  | call {command : Command} {next : List Command} : Stacked t₀ w.frames w.table →
      w.processes.length = w.frames.length →
      pipeline.commands.drop w.frames.length = command :: next →
      Stage K pipeline t₀ w (.call w.frames.length command next (inFdOf w.frames))
  | forkLast {command : Command} : Stacked t₀ w.frames w.table →
      w.processes.length = w.frames.length →
      pipeline.commands.drop w.frames.length = [command] →
      Stage K pipeline t₀ w (.fork w.frames.length command [] (inFdOf w.frames) none)
  | forkPipe {t : Table α} {command nextCommand : Command} {rest : List Command} :
      Stacked t₀ w.frames t → w.table = pipe K w.frames.length t →
      w.processes.length = w.frames.length →
      pipeline.commands.drop w.frames.length = command :: nextCommand :: rest →
      Stage K pipeline t₀ w (.fork w.frames.length command (nextCommand :: rest)
        (inFdOf w.frames) (some (K.pipefd w.frames.length t)))
  | closeWrite {t : Table α} {pipefd : ℕ × ℕ} {nextCommand : Command} {rest : List Command} :
      Stacked t₀ w.frames t → w.table = pipe K w.frames.length t →
      pipefd = K.pipefd w.frames.length t → w.processes.length = w.frames.length + 1 →
      pipeline.commands.drop (w.frames.length + 1) = nextCommand :: rest →
      Stage K pipeline t₀ w (.closeWrite w.frames.length pipefd nextCommand rest)
  | wait : Stacked t₀ w.frames w.table → w.frames.length < pipeline.commands.length →
      w.processes.length = pipeline.commands.length →
      (∀ i, w.frames.length < i → i < pipeline.commands.length → Exited w i) →
      Stage K pipeline t₀ w (.wait (K.pid w.frames.length))
  | closeRead {t : Table α} {readFd : ℕ} : Stacked t₀ w.frames t → t.find? readFd = none →
      w.table = t.insert readFd (.readEnd w.frames.length) →
      w.frames.length < pipeline.commands.length →
      w.processes.length = pipeline.commands.length →
      (∀ i, w.frames.length < i → i < pipeline.commands.length → Exited w i) →
      Stage K pipeline t₀ w (.closeRead w.frames.length readFd)
  | done : w.table = t₀ → w.processes.length = pipeline.commands.length →
      (∀ i, 0 < i → i < pipeline.commands.length → Exited w i) →
      Stage K pipeline t₀ w .done

structure ProcOk (K : Kernel α) (k : ℕ) (p : Process α σ) : Prop where
  pid : p.child.pid = K.pid k
  child : Ends k p.child.table
  running : ∀ t s n, p.state = .running t s n → Ends k t

structure Inv (K : Kernel α) (pipeline : Pipeline) (t₀ : Table α) (w : World α σ) : Prop where
  stage : Stage K pipeline t₀ w w.control
  process : ∀ k p, w.processes[k]? = some p → ProcOk K k p

theorem Inv.stage_at {control : Control} (hinv : Inv K pipeline t₀ w)
    (hcontrol : w.control = control) : Stage K pipeline t₀ w control :=
  hcontrol ▸ hinv.stage

/-! ### Steps of processes -/

theorem ProcStepped.length (hstep : ProcStepped w k w') :
    w'.processes.length = w.processes.length := by
  rcases hstep.process with ⟨p, state, -, -, hprocesses⟩
  rw [hprocesses, List.length_modify]

/-- A process that has not exited is another one than one that has. -/
theorem Exited.ne (h : Exited w j) (hp : w.processes[k]? = some p)
    (hrunning : p.state ≠ .exited) : j ≠ k := by
  rintro rfl
  rcases h with ⟨q, hq, hexited⟩
  rcases Option.some.inj (hp.symm.trans hq) with rfl
  exact hrunning hexited

/-- A process that has exited stays so. -/
theorem Exited.modify (h : Exited w j)
    (hp : w.processes[k]? = some p) (hrunning : p.state ≠ .exited)
    (hprocesses : w'.processes = w.processes.modify k fun p => { p with state }) : Exited w' j := by
  have hne := h.ne hp hrunning
  rcases h with ⟨q, hq, hexited⟩
  refine ⟨q, ?_, hexited⟩
  rw [hprocesses, List.getElem?_modify_ne _ _ hne.symm]
  exact hq

theorem ProcStepped.exited (hstep : ProcStepped w k w') (h : Exited w j) : Exited w' j := by
  rcases hstep.process with ⟨p, state, hk, hmoves, hprocesses⟩
  refine h.modify hk ?_ hprocesses
  intro hexited
  rw [hexited] at hmoves
  cases hmoves

theorem ProcStepped.eq (hstep : ProcStepped w k w') : w' = { w with
    processes := w'.processes, pipes := w'.pipes, consumed := w'.consumed, produced := w'.produced } := by
  rw [← hstep.table, ← hstep.control, ← hstep.frames, ← hstep.waited]

theorem Stage.proc {control : Control} (hstage : Stage K pipeline t₀ w control)
    (hstep : ProcStepped w k w') : Stage K pipeline t₀ w' control := by
  have hlength := hstep.length
  have hexited : ∀ i, Exited w i → Exited w' i := fun _ => hstep.exited
  rw [hstep.eq] at hlength hexited ⊢
  cases hstage with
  | call hs hp hdrop => exact .call hs (hlength.trans hp) hdrop
  | forkLast hs hp hdrop => exact .forkLast hs (hlength.trans hp) hdrop
  | forkPipe hs htable hp hdrop => exact .forkPipe hs htable (hlength.trans hp) hdrop
  | closeWrite hs htable hfd hp hdrop => exact .closeWrite hs htable hfd (hlength.trans hp) hdrop
  | wait hs hlt hp h =>
    exact .wait hs hlt (hlength.trans hp) fun i hi hn => hexited i (h i hi hn)
  | closeRead hs hfree htable hlt hp h =>
    exact .closeRead hs hfree htable hlt (hlength.trans hp) fun i hi hn => hexited i (h i hi hn)
  | done htable hp h => exact .done htable (hlength.trans hp) fun i hi hn => hexited i (h i hi hn)

theorem ProcOk.moves (hok : ProcOk K k p)
    (hmoves : Moves p.child p.state state) : ProcOk K k { p with state } := by
  refine ⟨hok.pid, hok.child, fun t s n ht => ?_⟩
  have ht : state = .running t s n := ht
  rw [ht] at hmoves
  generalize hold : p.state = old at hmoves
  cases hmoves with
  | exec => exact hok.child -- what the shell prepared
  | goes s s' n n' hsub =>
    have hends := hok.running _ _ _ hold
    exact fun fd file h => hends fd file (hsub fd file h)

theorem Inv.proc (hinv : Inv K pipeline t₀ w) (hstep : ProcStepped w k w') :
    Inv K pipeline t₀ w' := by
  refine ⟨hstep.control ▸ hinv.stage.proc hstep, ?_⟩
  intro i p hp
  rcases hstep.process with ⟨q, state, hk, hmoves, hprocesses⟩
  rw [hprocesses] at hp
  by_cases heq : k = i
  · subst heq
    rw [List.getElem?_modify_eq, hk] at hp
    rcases Option.some.inj hp with rfl
    exact (hinv.process k q hk).moves hmoves
  · rw [List.getElem?_modify_ne _ _ heq] at hp
    exact hinv.process i p hp

/-! ### Steps of the shell -/

/-- One more process. -/
theorem Inv.append (hinv : Inv K pipeline t₀ w) (hp : ProcOk K w.processes.length p) (i : ℕ)
    (q : Process α σ) (hq : (w.processes ++ [p])[i]? = some q) : ProcOk K i q := by
  rcases Nat.lt_trichotomy i w.processes.length with hi | rfl | hi
  · rw [List.getElem?_append_left hi] at hq
    exact hinv.process i q hq
  · rw [List.getElem?_concat_length] at hq
    exact Option.some.inj hq ▸ hp
  · rw [List.getElem?_eq_none (by simp; omega)] at hq
    cases hq

/-- The process that has been waited for has exited. -/
theorem Inv.exited_of_hasExited (hinv : Inv K pipeline t₀ w)
    (hexited : w.hasExited (K.pid k) = true) : Exited w k := by
  rcases List.any_eq_true.mp hexited with ⟨p, hp, hmatch⟩
  rcases List.getElem?_of_mem hp with ⟨i, hi⟩
  rcases Bool.and_eq_true_iff.mp hmatch with ⟨hpid, hstate⟩
  have heq : i = k := by
    refine K.pid_injective ?_
    rw [← (hinv.process i p hi).pid]
    exact beq_iff_eq.mp hpid
  subst heq
  exact ⟨p, hi, ProcState.eq_exited hstate⟩

section Shell

variable (hinv : Inv K pipeline t₀ w) (hstd : Standard t₀) (hno : NoPipes t₀)
include hinv hstd hno

/-- The shell has forked. -/
theorem Inv.fork {command : Command} {next : List Command} {inFd : Option ℕ}
    {pipefd : Option (ℕ × ℕ)} {redirected : Bool}
    (hcontrol : w.control = .fork k command next inFd pipefd) :
    Inv K pipeline t₀ { w with
      processes := w.processes ++ [⟨⟨K.pid k, command.argv,
        childTable K k command inFd pipefd w.table⟩, redirected, .forked w.table⟩]
      control := afterFork K k next pipefd } := by
  cases hinv.stage_at hcontrol with
  | forkLast hs hp hdrop =>
    have hlength := congrArg List.length hdrop
    rw [List.length_drop, List.length_singleton] at hlength
    have hlt : w.frames.length < pipeline.commands.length := by omega
    refine ⟨.wait hs hlt ?_ fun i hi hn => ?_, hinv.append ?_⟩
    · rw [List.length_append, List.length_singleton]
      omega
    · have hi : w.frames.length < i := hi
      omega
    · rw [hp]
      refine ⟨rfl, ?_, fun t s n ht => by cases ht⟩
      exact (childTable_last (hs.standard hstd) (hs.inFdOpen hstd)).ends hs hno (hs.ends hno 1)
  | forkPipe hs htable hp hdrop =>
    refine ⟨.closeWrite hs htable rfl ?_ ?_, hinv.append ?_⟩
    · rw [List.length_append, List.length_singleton, hp]
    · rw [← List.drop_drop, hdrop]
      rfl
    · rw [hp, htable]
      refine ⟨rfl, ?_, fun t s n ht => by cases ht⟩
      -- the child keeps the ends of its own pipes only
      refine (childTable_pipe (hs.standard hstd) (hs.inFdOpen hstd)).ends hs hno ?_
      rintro _ ⟨⟩
      rfl

theorem Inv.shell (hstep : ShellStepped K pipeline w w') : Inv K pipeline t₀ w' := by
  cases hstep with
  | last k command inFd hcontrol =>
    cases hinv.stage_at hcontrol with
    | call hs hp hdrop => exact ⟨.forkLast hs hp hdrop, hinv.process⟩
  | pipe k command nextCommand rest inFd hcontrol =>
    cases hinv.stage_at hcontrol with
    | call hs hp hdrop => exact ⟨.forkPipe hs rfl hp hdrop, hinv.process⟩
  | fork k command next inFd pipefd hcontrol => exact hinv.fork hstd hno hcontrol
  | closeWrite k readFd writeFd nextCommand rest hcontrol =>
    cases hinv.stage_at hcontrol with
    | @closeWrite t _ _ _ hs htable hfd hp hdrop =>
      have hread : readFd = (K.pipefd w.frames.length t).1 := congrArg Prod.fst hfd
      have hwrite : writeFd = (K.pipefd w.frames.length t).2 := congrArg Prod.snd hfd
      have hfree := find?_pipefd_fst (K := K) w.frames.length t
      have hclose : w.table.close writeFd = t.insert readFd (.readEnd w.frames.length) := by
        rw [htable, hread, hwrite, close_pipe]
      -- the read end stays open for the next command
      rw [← hread] at hfree
      rw [hclose]
      exact ⟨.call (hs.cons hfree) hp hdrop, hinv.process⟩
  | wait pid k readFd frames hcontrol hframes hexited =>
    cases hinv.stage_at hcontrol with
    | wait hs hlt hp hothers =>
      have hexit := hinv.exited_of_hasExited hexited
      rw [hframes] at hs hlt hothers hexit
      -- `wait` returned for the process whose pipe is on top
      rcases hs.top with ⟨rfl, t, hs, hfree, htable⟩
      refine ⟨.closeRead hs hfree htable ?_ hp ?_, hinv.process⟩
      · exact (Nat.lt_succ_self _).trans hlt
      · intro i hi hn
        rcases Nat.eq_or_lt_of_le hi with heq | hi
        · exact heq ▸ hexit
        · exact hothers i hi hn
  | background _ hcontrol hframes _ | foreground _ hcontrol hframes _ _ =>
    -- the first process may still run
    cases hinv.stage_at hcontrol with
    | wait hs hlt hp hothers =>
      rw [hframes] at hs hothers
      exact ⟨.done hs.eq_nil hp hothers, hinv.process⟩
  | closeRead k readFd hcontrol =>
    cases hinv.stage_at hcontrol with
    | @closeRead t _ hs hfree htable hlt hp hothers =>
      have hclose : w.table.close readFd = t := by
        rw [htable]
        exact OrdMap.erase_insert _ hfree
      rw [hclose]
      exact ⟨.wait hs hlt hp hothers, hinv.process⟩

end Shell

theorem reachable_inv [DecidableEq α] (hstd : Standard t₀) (hno : NoPipes t₀)
    (hr : Reachable (system K U capacity pipeline t₀) w) : Inv K pipeline t₀ w := by
  refine hr.invariant ?_ ?_
  · rintro w rfl
    exact ⟨.call .nil rfl rfl, fun k p hp => by simp [launch] at hp⟩
  · intro l w w' hinv hnext
    rcases stepped_of_step hnext with hshell | ⟨k, hproc⟩
    · exact hinv.shell hstd hno hshell
    · exact hinv.proc hproc

theorem Inv.length_le (hinv : Inv K pipeline t₀ w) :
    w.processes.length ≤ pipeline.commands.length := by
  have hdrop : ∀ {k : ℕ} {command : Command} {next : List Command},
      pipeline.commands.drop k = command :: next → k < pipeline.commands.length := by
    intro k command next h
    have hlength := congrArg List.length h
    rw [List.length_drop, List.length_cons] at hlength
    omega
  have hstage := hinv.stage
  generalize w.control = control at hstage
  cases hstage with
  | call _ hp hcommands | forkLast _ hp hcommands | forkPipe _ _ hp hcommands
  | closeWrite _ _ _ hp hcommands => exact hp ▸ (hdrop hcommands).le
  | wait _ _ hp _ | closeRead _ _ _ _ hp _ | done _ hp _ => exact hp.le

/-! ## Nobody is stuck -/

section Stuck

variable [DecidableEq α]

theorem refersTo_iff : t.refersTo file = true ↔ ∃ fd, t.find? fd = some file := by
  simp only [Table.refersTo, List.any_eq_true, beq_iff_eq, OrdMap.find?_eq_some, Prod.exists]
  constructor
  · rintro ⟨fd, file', hmem, rfl⟩
    exact ⟨fd, hmem⟩
  · rintro ⟨fd, hmem⟩
    exact ⟨fd, file, hmem, rfl⟩

/-- Who has a file open. -/
theorem isOpen_iff : w.isOpen file = true ↔ (∃ fd, w.table.find? fd = some file) ∨
    ∃ (i : ℕ) (p : Process α σ) (fd : ℕ), w.processes[i]? = some p ∧
      p.state.table.find? fd = some file := by
  simp only [World.isOpen, Bool.or_eq_true, refersTo_iff, List.any_eq_true]
  refine or_congr Iff.rfl ?_
  constructor
  · rintro ⟨p, hp, fd, hfd⟩
    rcases List.getElem?_of_mem hp with ⟨i, hi⟩
    exact ⟨i, p, fd, hi, hfd⟩
  · rintro ⟨i, p, fd, hi, hfd⟩
    exact ⟨p, List.mem_of_getElem? hi, fd, hfd⟩

/-- No step is possible. -/
def Stuck (K : Kernel α) (U : Userland σ) (capacity : ℕ) (pipeline : Pipeline)
    (w : World α σ) : Prop :=
  ∀ l, step K U capacity pipeline l w = none

/-- A program that cannot go on waits for input or for room in a pipe. -/
inductive Waits (capacity : ℕ) (w : World α σ) (t : Table α) : Prop where
  | input (fd j : ℕ) : t.find? fd = some (.readEnd j) → w.pipes j = [] →
      w.isOpen (.writeEnd j) = true → Waits capacity w t
  | room (fd j : ℕ) : t.find? fd = some (.writeEnd j) → w.isOpen (.readEnd j) = true →
      capacity ≤ (w.pipes j).length → Waits capacity w t

theorem readStep_none {max : ℕ} {received : List UInt8 → σ} {data : List UInt8}
    (hnone : readStep w k t fd max received data = none) : Waits capacity w t := by
  unfold readStep at hnone
  split at hnone
  · rename_i j hfd
    simp only at hnone
    split at hnone
    · rename_i hcond
      exact .input fd j hfd hcond.1 hcond.2.2
    · cases hnone
  · cases hnone
  · cases hnone
  · cases hnone

theorem writeStep_none {bytes : List UInt8} {s s' : σ} {written : ℕ}
    (hnone : writeStep capacity w k t fd bytes s s' written = none) : Waits capacity w t := by
  unfold writeStep at hnone
  split at hnone
  · rename_i j hfd
    split at hnone
    · rename_i hopen
      simp only at hnone
      split at hnone
      · cases hnone
      · split at hnone
        · rename_i hroom
          exact .room fd j hfd hopen (by omega)
        · cases hnone
    · cases hnone
  · cases hnone
  · cases hnone
  · cases hnone

omit [DecidableEq α] in
/-- A shell that cannot go on is done or waits for a process that has not exited. -/
theorem shellStep_none (hnone : shellStep K pipeline w = none) : w.control = .done ∨
    ∃ pid, w.control = .wait pid ∧ w.hasExited pid = false := by
  unfold shellStep at hnone
  split at hnone
  · cases hnone
  · cases hnone
  · cases hnone
  · cases hnone
  · -- in both modes it waits for an exit
    rename_i pid hcontrol
    refine .inr ⟨pid, hcontrol, ?_⟩
    split at hnone
    · split at hnone
      · cases hnone
      · rename_i hexited
        exact Bool.eq_false_of_not_eq_true hexited
    · split at hnone
      · cases hnone
      · split at hnone
        · cases hnone
        · rename_i hexited
          exact Bool.eq_false_of_not_eq_true hexited
  · cases hnone
  · rename_i hcontrol
    exact .inl hcontrol

omit [DecidableEq α] in
/-- The descriptors of a shell that cannot go on, and the process that it waits for. -/
theorem Inv.shell_waits (hinv : Inv K pipeline t₀ w) (hnone : shellStep K pipeline w = none) :
    w.control = .done ∧ w.table = t₀ ∨ Stacked t₀ w.frames w.table ∧
      ∃ p, w.processes[w.frames.length]? = some p ∧ p.state ≠ .exited := by
  rcases shellStep_none hnone with hdone | ⟨pid, hwait, hexited⟩
  · cases hinv.stage_at hdone with
    | done htable hp hothers => exact .inl ⟨hdone, htable⟩
  · cases hinv.stage_at hwait with
    | wait hs hlt hp hothers =>
      rw [← hp] at hlt
      refine .inr ⟨hs, w.processes[w.frames.length], List.getElem?_eq_getElem hlt, ?_⟩
      intro hstate
      have hpid := (hinv.process _ _ (List.getElem?_eq_getElem hlt)).pid
      have hany : w.hasExited (K.pid w.frames.length) = true := by
        refine List.any_eq_true.mpr ⟨w.processes[w.frames.length], List.getElem_mem hlt, ?_⟩
        simp [hpid, hstate, ProcState.hasExited]
      rw [hexited] at hany
      cases hany

omit [DecidableEq α] in
theorem Inv.shell_not_write (hinv : Inv K pipeline t₀ w) (hno : NoPipes t₀)
    (hnone : shellStep K pipeline w = none) : w.table.find? fd ≠ some (.writeEnd j) := by
  rcases hinv.shell_waits hnone with ⟨-, htable⟩ | ⟨hs, -⟩
  · rw [htable]
    exact (hno fd j).2
  · exact hs.not_write hno

section

variable (hstuck : Stuck K U capacity pipeline w)
include hstuck

/-- A process that cannot move has exited or waits in its program. -/
theorem Stuck.process (hp : w.processes[k]? = some p) :
    p.state = .exited ∨ ∃ t s n, p.state = .running t s n ∧ Waits capacity w t := by
  cases hstate : p.state with
  | exited => exact .inl rfl
  | forked t =>
    have hexec : execStep U w k = none := hstuck (.exec k)
    rcases p with ⟨child, redirected, state⟩
    have hstate : state = .forked t := hstate
    subst hstate
    simp [execStep, hp] at hexec
  | running t s n =>
    have hrun : runStep U capacity w k [] = none := hstuck (.run k [])
    refine .inr ⟨t, s, n, rfl, ?_⟩
    simp only [runStep, hp, Option.map_some, hstate] at hrun
    -- only a read or a write can block
    split at hrun
    · cases hrun
    · exact readStep_none hrun
    · exact writeStep_none hrun
    · cases hrun
    · cases hrun

variable (hinv : Inv K pipeline t₀ w)
include hinv

/-- Who has a file open when nothing can move: the shell, or a program that may. -/
theorem Stuck.holder (hopen : w.isOpen file = true) : (∃ fd, w.table.find? fd = some file) ∨
    ∃ i q t s n, w.processes[i]? = some q ∧ q.state = .running t s n ∧ Allowed i file := by
  rcases isOpen_iff.mp hopen with hshell | ⟨i, q, fd, hq, hfd⟩
  · exact .inl hshell
  · rcases hstuck.process hq with hexited | ⟨t, s, n, hrun, -⟩
    · -- a process that has exited has nothing open
      rw [hexited] at hfd
      cases hfd
    · rw [hrun] at hfd
      exact .inr ⟨i, q, t, s, n, hq, hrun, (hinv.process i q hq).running t s n hrun fd _ hfd⟩

variable (hno : NoPipes t₀) (hcapacity : 0 < capacity)
include hno hcapacity

/-- A running process waits for room in its own pipe: one that waits for input waits for an
earlier process, which would have filled the pipe. -/
theorem waits_to_write {s : σ} {n : ℕ} (hp : w.processes[k]? = some p)
    (hrun : p.state = .running t s n) :
    w.isOpen (.readEnd k) = true ∧ capacity ≤ (w.pipes k).length := by
  induction k using Nat.strong_induction_on generalizing p t s n with
  | _ k ih =>
    have hok := (hinv.process k p hp).running t s n hrun
    rcases hstuck.process hp with hexited | ⟨t', s', n', hrun', hwaits⟩
    · rw [hrun] at hexited
      cases hexited
    · rw [hrun] at hrun'
      cases hrun'
      cases hwaits with
      | room fd j hfd hopen hfull =>
        rw [show j = k from hok fd _ hfd] at hopen hfull
        exact ⟨hopen, hfull⟩
      | input fd j hfd hempty hopen =>
        -- somebody could write to the pipe, and that is process `j`
        have hj : j < k := hok fd _ hfd
        rcases hstuck.holder hinv hopen with ⟨fd', hfd'⟩ | ⟨i, q, t', s', n', hq, hrun', hi⟩
        · exact absurd hfd' (hinv.shell_not_write hno (hstuck .shell))
        · obtain rfl : j = i := hi
          have hfull := (ih j hj hq hrun').2
          rw [hempty, List.length_nil] at hfull
          omega

/-- If nothing can move, all processes have exited: a later process or the shell would have to
hold the other end of the pipe, and the shell waits for a later process as long as it does. -/
theorem Stuck.all_exited (hp : w.processes[k]? = some p) : p.state = .exited := by
  generalize hm : w.processes.length - k = m
  induction m using Nat.strong_induction_on generalizing k p with
  | _ m ih =>
    have hlater : ∀ i q, k < i → w.processes[i]? = some q → q.state = .exited := by
      intro i q hi hq
      have hlt := (List.getElem?_eq_some_iff.mp hq).1
      exact ih (w.processes.length - i) (by omega) hq rfl
    rcases hstuck.process hp with hexited | ⟨t, s, n, hrun, -⟩
    · exact hexited
    · have hopen := (waits_to_write hstuck hinv hno hcapacity hp hrun).1
      rcases hstuck.holder hinv hopen with ⟨fd, hfd⟩ | ⟨i, q, t', s', n', hq, hrun', hi⟩
      · -- the shell has the read end of pipe `k` until a later process has exited
        rcases hinv.shell_waits (hstuck .shell) with ⟨-, htable⟩ | ⟨hs, q, hq, hstate⟩
        · rw [htable] at hfd
          exact absurd hfd (hno fd k).1
        · exact absurd (hlater _ q (hs.read_lt hno hfd) hq) hstate
      · rw [hlater i q hi hq] at hrun'
        cases hrun'

end

end Stuck

/-- The shell is done and all processes have exited. -/
structure Finished (pipeline : Pipeline) (w : World α σ) : Prop where
  control : w.control = .done
  forked : w.processes.length = pipeline.commands.length
  exited : ∀ p ∈ w.processes, p.state = .exited

variable [DecidableEq α]

theorem Stuck.finished (hstuck : Stuck K U capacity pipeline w) (hinv : Inv K pipeline t₀ w)
    (hno : NoPipes t₀) (hcapacity : 0 < capacity) : Finished pipeline w := by
  have hall : ∀ p ∈ w.processes, p.state = .exited := by
    intro p hp
    rcases List.getElem?_of_mem hp with ⟨k, hk⟩
    exact hstuck.all_exited hinv hno hcapacity hk
  rcases hinv.shell_waits (hstuck .shell) with ⟨hdone, -⟩ | ⟨-, q, hq, hstate⟩
  · cases hinv.stage_at hdone with
    | done htable hp hothers => exact ⟨hdone, hp, hall⟩
  · exact absurd (hall q (List.mem_of_getElem? hq)) hstate

theorem console_noPipes : NoPipes console := by
  intro fd j
  simp only [console, OrdMap.find?_insert]
  repeat' split
  · simp
  · simp
  · simp
  · simp [OrdMap.find?, OrdMap.empty]

theorem echoCatRun_finished : Finished echoCat (echoCatRun.state 19) := by
  have hdone : (echoCatRun.state 19).control = .done := Control.eq_done (by decide +kernel)
  have hlength : (echoCatRun.state 19).processes.length = 2 := by decide +kernel
  have hexited : (echoCatRun.state 19).processes.all (fun p => p.state.hasExited) = true := by
    decide +kernel
  exact ⟨hdone, hlength, fun p hp => ProcState.eq_exited (List.all_eq_true.mp hexited p hp)⟩

end SysProg.Shell
