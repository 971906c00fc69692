import Mathlib.Tactic
import SysProg.Shell.NoDeadlock
import SysProg.Shell.Pipelines

/-!
# Pipelines compose

A filter reads its standard input to the end and writes a function of it to its standard
output. A pipeline of filters computes the composition of their functions, whatever the
interleaving, the sizes of the pipes and the pieces in which bytes are read and written.

* `Ran` — what a program can have read and written when it is in a state;
* `Filter` — a program that computes a function;
* `Drained` — a process that has seen the end of its input has read everything;
* `no_sigpipe` — a filter never writes to a pipe that nobody can read from, since the shell
  keeps its end open until the next process has exited;
* `Flow` — the invariant: what has been written to a pipe has been read from it or is in it;
* `pipeline_composes` — the result.
-/

namespace SysProg.Shell

open Lts

variable {α σ : Type} {K : Kernel α} {U : Userland σ} {capacity : ℕ} {pipeline : Pipeline}
  {t₀ t : Table α} {w w' : World α σ} {k j i written : ℕ} {command : Command}
  {frames : List (ℕ × ℕ)} {s₀ s s' : σ} {c o bytes data : List UInt8} {e : Bool}
  {f : ℕ → List UInt8 → List UInt8} {w₁ : World α σ} {p : Process α σ} {state : ProcState α σ}
  {max : ℕ} {received : List UInt8 → σ}

/-! ## Filters -/

/-- A program that was started in `s₀` has read `c` and written `o`, maybe has seen the end of
its input, and is now in state `s`. -/
inductive Ran (U : Userland σ) (s₀ : σ) : List UInt8 → List UInt8 → Bool → σ → Prop where
  | start : Ran U s₀ [] [] false s₀
  | compute {c o : List UInt8} {e : Bool} {s s' : σ} : Ran U s₀ c o e s →
      U.next s = .compute s' → Ran U s₀ c o e s'
  | read {c o : List UInt8} {e : Bool} {s : σ} {fd max : ℕ} {received : List UInt8 → σ}
      (bytes : List UInt8) : Ran U s₀ c o e s → U.next s = .read fd max received →
      bytes.length ≤ max → Ran U s₀ (c ++ bytes) o (e || bytes.isEmpty) (received bytes)
  | write {c o : List UInt8} {e : Bool} {s s' : σ} {fd : ℕ} {bytes : List UInt8} :
      Ran U s₀ c o e s → U.next s = .write fd bytes s' → Ran U s₀ c (o ++ bytes) e s'

/-- Only standard input and standard output are used, and left open. -/
def Request.Standard : Request σ → Prop
  | .compute _ | .exit => True
  | .read fd max _ => fd = STDIN_FILENO ∧ 0 < max
  | .write fd _ _ => fd = STDOUT_FILENO
  | .close _ _ => False

/-- The program computes `f`: when it exits, it has written `f` of what it has read. -/
structure Filter (U : Userland σ) (s₀ : σ) (f : List UInt8 → List UInt8) : Prop where
  requests : ∀ c o e s, Ran U s₀ c o e s → (U.next s).Standard
  exits : ∀ c o e s, Ran U s₀ c o e s → U.next s = .exit → o = f c

/-- The program only exits when it has seen the end of its input. -/
def Drains (U : Userland σ) (s₀ : σ) : Prop :=
  ∀ c o e s, Ran U s₀ c o e s → U.next s = .exit → e = true

/-- Every command is a filter, those behind a pipe read all there is, and only the first and the
last one are redirected. -/
structure Filters (U : Userland σ) (pipeline : Pipeline) (f : ℕ → List UInt8 → List UInt8) :
    Prop where
  program : ∀ k command, pipeline.commands[k]? = some command →
    Filter U (U.execvp command.argv) (f k)
  drains : ∀ k command, pipeline.commands[k]? = some command → 0 < k →
    Drains U (U.execvp command.argv)
  input : ∀ k command, pipeline.commands[k]? = some command → 0 < k → command.inputRedir = none
  output : ∀ k command, pipeline.commands[k]? = some command →
    k + 1 < pipeline.commands.length → command.outputRedir = none

/-! ## What the processes are connected to -/

/-- A file that is not an end of a pipe. -/
def NotPipe (file : File α) : Prop :=
  ∀ j, file ≠ .readEnd j ∧ file ≠ .writeEnd j

/-- The standard descriptors of the process of command `k` of `n`. -/
structure Connected (n k : ℕ) (command : Command) (child : Child α) : Prop where
  argv : child.argv = command.argv
  stdin : ∃ file, child.table.find? STDIN_FILENO = some file ∧
    if k = 0 then NotPipe file else file = .readEnd (k - 1)
  stdout : ∃ file, child.table.find? STDOUT_FILENO = some file ∧
    if k + 1 = n then NotPipe file else file = .writeEnd k

theorem NoPipes.notPipe (hno : NoPipes t) {fd : ℕ} (hfd : t.find? fd ≠ none) :
    ∃ file, t.find? fd = some file ∧ NotPipe file := by
  rcases Option.ne_none_iff_exists'.mp hfd with ⟨file, hfile⟩
  refine ⟨file, hfile, fun j => ?_⟩
  have hnot := hno fd j
  rw [hfile] at hnot
  simpa using hnot

theorem stdinOf_connected (hstd : Standard t) (hno : NoPipes t)
    (hredir : 0 < k → command.inputRedir = none) :
    ∃ file, stdinOf command (if k = 0 then t.find? 0 else some (.readEnd (k - 1))) = some file ∧
      if k = 0 then NotPipe file else file = .readEnd (k - 1) := by
  unfold stdinOf
  by_cases hk : k = 0
  · simp only [if_pos hk]
    cases command.inputRedir with
    | none => exact hno.notPipe hstd.stdin
    | some => exact ⟨_, rfl, fun j => ⟨by simp, by simp⟩⟩
  · simp only [if_neg hk, hredir (Nat.pos_of_ne_zero hk)]
    exact ⟨_, rfl, rfl⟩

theorem stdoutOf_connected {n : ℕ} (hstd : Standard t) (hno : NoPipes t)
    (hredir : k + 1 ≠ n → command.outputRedir = none) :
    ∃ file, stdoutOf command (if k + 1 = n then t.find? 1 else some (.writeEnd k)) = some file ∧
      if k + 1 = n then NotPipe file else file = .writeEnd k := by
  unfold stdoutOf
  by_cases hk : k + 1 = n
  · simp only [if_pos hk]
    cases command.outputRedir with
    | none => exact hno.notPipe hstd.stdout
    | some => exact ⟨_, rfl, fun j => ⟨by simp, by simp⟩⟩
  · simp only [if_neg hk, hredir hk]
    exact ⟨_, rfl, rfl⟩

section Connected

variable [DecidableEq α]

theorem connected (hstd : Standard t) (hno : NoPipes t) (hfilters : Filters U pipeline f)
    (hr : Reachable (system K U capacity pipeline t) w) (hp : w.processes[k]? = some p)
    (hcommand : pipeline.commands[k]? = some command) :
    Connected pipeline.commands.length k command p.child := by
  -- the child is one of the sequential model
  have hgrows : Grows w.view (outcome K pipeline w) := grows_outcome w
  rw [outcome_eq hr] at hgrows
  have hchild : (runPipeline K pipeline ⟨t, [], []⟩).children[k]? = some p.child := by
    rcases hgrows.children with ⟨rest, hrest⟩
    have hmap : w.view.children[k]? = some p.child := by
      simp [World.view, hp]
    rw [← hrest, List.getElem?_append_left (List.getElem?_eq_some_iff.mp hmap).1, hmap]
  rcases (runPipeline_chain K pipeline hstd).2.child_at hstd hcommand hchild with
    ⟨hargv, hstdin, hstdout⟩
  rw [Nat.zero_add] at hstdin hstdout
  refine ⟨hargv, ?_, ?_⟩
  · show ∃ file, p.child.table.find? 0 = some file ∧ _
    rw [hstdin]
    exact stdinOf_connected hstd hno (hfilters.input k command hcommand)
  · show ∃ file, p.child.table.find? 1 = some file ∧ _
    rw [hstdout]
    refine stdoutOf_connected hstd hno fun hne => hfilters.output k command hcommand ?_
    have hlt := (List.getElem?_eq_some_iff.mp hcommand).1
    omega

end Connected

/-! ## The invariant -/

/-- A process that has seen the end of its input: the one before it has exited, and nothing is
left in the pipe. -/
def Drained (w : World α σ) : ℕ → Prop
  | 0 => True
  | j + 1 => Exited w j ∧ w.pipes j = []

/-- What a write has written so far. -/
def sent (written : ℕ) : Request σ → List UInt8
  | .write _ bytes _ => bytes.take written
  | _ => []

/-- What the process of command `k` has done. -/
inductive Flowing (U : Userland σ) (n : ℕ) (f : List UInt8 → List UInt8) (w : World α σ) (k : ℕ)
    (child : Child α) : ProcState α σ → Prop where
  | forked {t : Table α} : w.consumed k = [] → w.produced k = [] →
      (k + 1 < n → ∃ fd, t.find? fd = some (.writeEnd k)) →
      Flowing U n f w k child (.forked t)
  | running {s : σ} {written : ℕ} {o : List UInt8} {e : Bool} :
      Ran U (U.execvp child.argv) (w.consumed k) o e s →
      w.produced k = o ++ sent written (U.next s) → (k + 1 = n → written = 0) →
      (e = true → Drained w k) → Flowing U n f w k child (.running child.table s written)
  | exited : w.produced k = f (w.consumed k) → Drained w k → Flowing U n f w k child .exited

structure Flow (U : Userland σ) (pipeline : Pipeline) (f : ℕ → List UInt8 → List UInt8)
    (w : World α σ) : Prop where
  process : ∀ k p, w.processes[k]? = some p →
    Flowing U pipeline.commands.length (f k) w k p.child p.state
  pipes : ∀ j, j + 1 < pipeline.commands.length → w.produced j = w.consumed (j + 1) ++ w.pipes j
  later : ∀ k, w.processes.length ≤ k → w.consumed k = [] ∧ w.produced k = []

theorem Flowing.mono {n : ℕ} {g : List UInt8 → List UInt8} {child : Child α}
    {state : ProcState α σ} (h : Flowing U n g w k child state)
    (hconsumed : w'.consumed k = w.consumed k) (hproduced : w'.produced k = w.produced k)
    (hdrained : Drained w k → Drained w' k) : Flowing U n g w' k child state := by
  cases h with
  | forked hc ho ht => exact .forked (hconsumed.trans hc) (hproduced.trans ho) ht
  | running hran ho hlast he =>
    rw [← hconsumed] at hran
    exact .running hran (hproduced.trans ho) hlast fun h => hdrained (he h)
  | exited ho hd =>
    refine .exited ?_ (hdrained hd)
    rw [hproduced, hconsumed]
    exact ho

/-- A process that has exited has read all that the one before it has written. -/
theorem Flow.drained (hflow : Flow U pipeline f w) (hexited : Exited w k) : Drained w k := by
  rcases hexited with ⟨p, hp, hstate⟩
  have h := hflow.process k p hp
  rw [hstate] at h
  cases h with
  | exited ho hd => exact hd

/-! ### The ends of pipes that keep writers and readers alive -/

theorem Stacked.holds (hs : Stacked t₀ frames t) (hk : k < frames.length) :
    ∃ fd, t.find? fd = some (.readEnd k) := by
  induction hs with
  | nil => cases hk
  | @cons frames t readFd hs hfree ih =>
    rcases Nat.lt_succ_iff_lt_or_eq.mp hk with hk | rfl
    · rcases ih hk with ⟨fd, hfd⟩
      refine ⟨fd, ?_⟩
      rw [OrdMap.find?_insert_of_ne]
      · exact hfd
      · rintro rfl
        rw [hfree] at hfd
        cases hfd
    · exact ⟨readFd, OrdMap.find?_insert_self _ _ _⟩

theorem Stacked.holds_pipe (hs : Stacked t₀ frames t) (hk : k ≤ frames.length) :
    ∃ fd, (pipe K frames.length t).find? fd = some (.readEnd k) := by
  rcases Nat.lt_or_eq_of_le hk with hk | rfl
  · rcases hs.holds hk with ⟨fd, hfd⟩
    refine ⟨fd, ?_⟩
    rw [find?_pipe_old]
    · exact hfd
    · rw [hfd]
      exact Option.some_ne_none _
  · refine ⟨(K.pipefd frames.length t).1, ?_⟩
    rw [find?_pipe, if_neg (pipefd_ne _ t), if_pos rfl]

/-- The shell has the other end of the pipe open until the next process has exited. -/
theorem Inv.holds (hinv : Inv K pipeline t₀ w) (hk : k < w.processes.length)
    (hnext : k + 1 < pipeline.commands.length) (hrunning : ¬ Exited w (k + 1)) :
    ∃ fd, w.table.find? fd = some (.readEnd k) := by
  have hstage := hinv.stage
  generalize w.control = control at hstage
  cases hstage with
  | call hs hp hdrop | forkLast hs hp hdrop => exact hs.holds (hp ▸ hk)
  | forkPipe hs htable hp hdrop => exact htable ▸ hs.holds_pipe (hp ▸ hk).le
  | closeWrite hs htable hfd hp hdrop => exact htable ▸ hs.holds_pipe (by omega)
  | wait hs hlt hp hexited =>
    rcases Nat.lt_or_ge k w.frames.length with hk | hk
    · exact hs.holds hk
    · exact absurd (hexited (k + 1) (by omega) hnext) hrunning
  | closeRead hs hfree htable hlt hp hexited =>
    rcases Nat.lt_or_ge k w.frames.length with hk | hk
    · exact htable ▸ (hs.cons hfree).holds (hk.trans (Nat.lt_succ_self _))
    · exact absurd (hexited (k + 1) (by omega) hnext) hrunning
  | done htable hp hexited => exact absurd (hexited (k + 1) (Nat.succ_pos k) hnext) hrunning

section Steps

variable [DecidableEq α] (hflow : Flow U pipeline f w)
include hflow

/-- A filter never writes to a pipe that nobody can read from. -/
theorem no_sigpipe (hinv : Inv K pipeline t₀ w) (hp : w.processes[k]? = some p)
    (hstate : p.state ≠ .exited) (hnext : k + 1 < pipeline.commands.length) :
    w.isOpen (.readEnd k) = true := by
  refine isOpen_iff.mpr (.inl (hinv.holds (List.getElem?_eq_some_iff.mp hp).1 hnext ?_))
  exact fun hexited => (hflow.drained hexited).1.ne hp hstate rfl

/-- A pipe that nobody can write to has lost its writer. -/
theorem exited_of_closed (hconnected : ∀ p command, w.processes[j]? = some p →
      pipeline.commands[j]? = some command → Connected pipeline.commands.length j command p.child)
    (hj : j < w.processes.length) (hnext : j + 1 < pipeline.commands.length)
    (hclosed : w.isOpen (.writeEnd j) = false) : Exited w j := by
  have hp : w.processes[j]? = some w.processes[j] := List.getElem?_eq_getElem hj
  refine ⟨_, hp, ?_⟩
  have hnone : ∀ fd, w.processes[j].state.table.find? fd ≠ some (.writeEnd j) := by
    intro fd hfd
    have hopen := isOpen_iff.mpr (.inr ⟨j, _, fd, hp, hfd⟩)
    rw [hclosed] at hopen
    cases hopen
  have h := hflow.process j _ hp
  generalize w.processes[j].state = state at h hnone
  cases h with
  -- before its exec the process still has the end of the shell
  | forked hc ho ht =>
    rcases ht hnext with ⟨fd, hfd⟩
    exact absurd hfd (hnone fd)
  | running hran ho hlast he =>
    have hcommand : pipeline.commands[j]? = some pipeline.commands[j] :=
      List.getElem?_eq_getElem (by omega)
    rcases (hconnected _ _ hp hcommand).stdout with ⟨file, hfile, hend⟩
    rw [if_neg hnext.ne] at hend
    rw [hend] at hfile
    exact absurd hfile (hnone STDOUT_FILENO)
  | exited => rfl

end Steps

/-! ## One step -/

/-- A process whose pipe is not changed, or whose writer is not done yet. -/
theorem drained_put (hp : w.processes[k]? = some p) (hrunning : p.state ≠ .exited)
    (hsame : w₁.processes = w.processes)
    (hpipe : ∀ j, i = j + 1 → j ≠ k → w₁.pipes j = w.pipes j) (h : Drained w i) :
    Drained (w₁.put k state) i := by
  cases i with
  | zero => trivial
  | succ j =>
    refine ⟨h.1.modify hp hrunning (congrArg _ hsame), ?_⟩
    simpa [hpipe j rfl (h.1.ne hp hrunning)] using h.2

/-- Process `k` has done a step, and with it maybe a pipe has changed. -/
theorem Flow.put (hflow : Flow U pipeline f w) (hp : w.processes[k]? = some p)
    (hrunning : p.state ≠ .exited) (hsame : w₁.processes = w.processes)
    (hself : Flowing U pipeline.commands.length (f k) (w₁.put k state) k p.child state)
    (hlogs : ∀ i, i ≠ k → w₁.consumed i = w.consumed i ∧ w₁.produced i = w.produced i)
    (hpipe : ∀ j, j + 1 ≠ k → j ≠ k → w₁.pipes j = w.pipes j)
    (hpipes : ∀ j, j + 1 < pipeline.commands.length →
      w₁.produced j = w₁.consumed (j + 1) ++ w₁.pipes j) : Flow U pipeline f (w₁.put k state) := by
  refine ⟨?_, hpipes, ?_⟩
  · intro i q hq
    have hq : (w₁.processes.modify k fun p => { p with state })[i]? = some q := hq
    rw [hsame] at hq
    by_cases hi : k = i
    · subst hi
      rw [List.getElem?_modify_eq, hp] at hq
      rcases Option.some.inj hq with rfl
      exact hself
    · -- another process: its logs and its pipe are as they were
      rw [List.getElem?_modify_ne _ _ hi] at hq
      have hlog := hlogs i (Ne.symm hi)
      refine (hflow.process i q hq).mono hlog.1 hlog.2 fun hd => ?_
      refine drained_put hp hrunning hsame (fun j hj hne => hpipe j ?_ hne) hd
      omega
  · intro i hi
    have hi : w.processes.length ≤ i := by
      have hlength : (w₁.processes.modify k fun p => { p with state }).length ≤ i := hi
      rwa [List.length_modify, hsame] at hlength
    have hlt := (List.getElem?_eq_some_iff.mp hp).1
    have hlog := hlogs i (by omega)
    exact ⟨hlog.1.trans (hflow.later i hi).1, hlog.2.trans (hflow.later i hi).2⟩

theorem sent_zero (r : Request σ) : sent 0 r = [] := by
  cases r <;> rfl

section Run

variable (hflow : Flow U pipeline f w) (hinv : Inv K pipeline t₀ w)
  (hfilters : Filters U pipeline f)
  (hconnected : ∀ (k : ℕ) p command, w.processes[k]? = some p →
    pipeline.commands[k]? = some command → Connected pipeline.commands.length k command p.child)
include hflow

/-- A filter calls `execvp`. -/
theorem Flow.exec (hp : w.processes[k]? = some p) (hforked : p.state = .forked t) :
    Flow U pipeline f (w.put k (.running p.child.table (U.execvp p.child.argv) 0)) := by
  have h := hflow.process k p hp
  rw [hforked] at h
  cases h with
  | forked hc ho ht =>
    refine hflow.put hp (by simp [hforked]) rfl ?_ (fun _ _ => ⟨rfl, rfl⟩) (fun _ _ _ => rfl)
      hflow.pipes
    refine .running (o := []) (e := false) ?_ ?_ (fun _ => rfl) (fun h => by cases h)
    · simpa [hc] using Ran.start
    · simp [ho, sent_zero]

/-- A filter has read `bytes`, and still has to read what is in its pipe. -/
theorem Flow.receive (hp : w.processes[k]? = some p)
    (hstate : p.state = .running p.child.table s written)
    (hnext : U.next s = .read STDIN_FILENO max received) (hlength : bytes.length ≤ max)
    (hsame : w₁.processes = w.processes)
    (hconsumed : w₁.consumed = Function.update w.consumed k (w.consumed k ++ bytes))
    (hproduced : w₁.produced = w.produced)
    (hpipe : ∀ j, j + 1 ≠ k → w₁.pipes j = w.pipes j)
    (hpipes : ∀ j, j + 1 = k → bytes ++ w₁.pipes j = w.pipes j)
    (hdrained : bytes = [] → Drained (w₁.put k (.running p.child.table (received bytes) 0)) k) :
    Flow U pipeline f (w₁.put k (.running p.child.table (received bytes) 0)) := by
  have h := hflow.process k p hp
  rw [hstate] at h
  cases h with
  | @running _ _ o e hran ho hlast he =>
    rw [hnext] at ho
    have hrunning : p.state ≠ .exited := by simp [hstate]
    refine hflow.put hp hrunning hsame ?_ ?_ (fun j hj _ => hpipe j hj) ?_
    · refine .running (o := o) (e := e || bytes.isEmpty) ?_ ?_ (fun _ => rfl) ?_
      · simpa [hconsumed] using hran.read bytes hnext hlength
      · rw [World.put_produced, hproduced, ho, sent_zero]
        rfl
      · intro he'
        by_cases hbytes : bytes = []
        · exact hdrained hbytes
        · rw [List.isEmpty_eq_false_iff.mpr hbytes, Bool.or_false] at he'
          -- the end of the input was seen before, so there is nothing more to read
          cases k with
          | zero => trivial
          | succ j =>
            have hempty := hpipes j rfl
            rw [(he he').2] at hempty
            exact absurd (List.append_eq_nil_iff.mp hempty).1 hbytes
    · intro i hi
      simp [hconsumed, hproduced, hi]
    · intro j hj
      rw [hproduced, hflow.pipes j hj]
      by_cases hjk : j + 1 = k
      · simp [hconsumed, hjk, hpipes j hjk]
      · simp [hconsumed, hjk, hpipe j hjk]

/-- A filter has written a piece of its output. -/
theorem Flow.wrote {written' : ℕ} (piece : List UInt8)
    (hp : w.processes[k]? = some p) (hstate : p.state = .running p.child.table s written)
    (hsame : w₁.processes = w.processes) (hconsumed : w₁.consumed = w.consumed)
    (hproduced : w₁.produced = Function.update w.produced k (w.produced k ++ piece))
    (hpipe : ∀ j, j ≠ k → w₁.pipes j = w.pipes j)
    (hpipes : k + 1 < pipeline.commands.length → w₁.pipes k = w.pipes k ++ piece)
    (hran' : ∀ o e, Ran U (U.execvp p.child.argv) (w.consumed k) o e s →
      ∃ o', Ran U (U.execvp p.child.argv) (w.consumed k) o' e s' ∧
        o ++ sent written (U.next s) ++ piece = o' ++ sent written' (U.next s'))
    (hlast' : k + 1 = pipeline.commands.length → written' = 0) :
    Flow U pipeline f (w₁.put k (.running p.child.table s' written')) := by
  have h := hflow.process k p hp
  rw [hstate] at h
  cases h with
  | @running _ _ o e hran ho hlast he =>
    have hrunning : p.state ≠ .exited := by simp [hstate]
    refine hflow.put hp hrunning hsame ?_ ?_ (fun j _ hj => hpipe j hj) ?_
    · rcases hran' o e hran with ⟨o', hran', ho'⟩
      refine .running (o := o') (e := e) ?_ ?_ hlast' ?_
      · simpa [hconsumed] using hran'
      · simp [hproduced, ho, ← ho']
      · exact fun he' => drained_put hp hrunning hsame (fun j _ hj => hpipe j hj) (he he')
    · intro i hi
      simp [hconsumed, hproduced, hi]
    · intro j hj
      by_cases hjk : j = k
      · subst hjk
        simp [hconsumed, hproduced, hpipes hj, hflow.pipes j hj]
      · simp [hconsumed, hproduced, hjk, hpipe j hjk, hflow.pipes j hj]

/-- A filter goes on without reading or writing. -/
theorem Flow.compute (hp : w.processes[k]? = some p)
    (hstate : p.state = .running p.child.table s written) (hnext : U.next s = .compute s') :
    Flow U pipeline f (w.put k (.running p.child.table s' 0)) := by
  refine hflow.wrote [] hp hstate rfl rfl ?_ (fun _ _ => rfl) (fun _ => ?_) ?_
    fun _ => rfl
  · rw [List.append_nil, Function.update_eq_self]
  · rw [List.append_nil]
  · intro o e hran
    refine ⟨o, hran.compute hnext, ?_⟩
    rw [hnext, sent_zero]
    exact List.append_nil _

variable [DecidableEq α]
include hinv hconnected

theorem Flow.write (hp : w.processes[k]? = some p) (hstate : p.state = .running p.child.table s written)
    (hnext : U.next s = .write STDOUT_FILENO bytes s')
    (hstep : writeStep capacity w k p.child.table STDOUT_FILENO bytes s s' written = some w') :
    Flow U pipeline f w' := by
  have hlt := (List.getElem?_eq_some_iff.mp hp).1
  have hk : k < pipeline.commands.length := hlt.trans_le hinv.length_le
  rcases (hconnected k p _ hp (List.getElem?_eq_getElem hk)).stdout with ⟨file, hfile, hend⟩
  -- the whole output has been written
  have hall : ∀ o e, Ran U (U.execvp p.child.argv) (w.consumed k) o e s →
      ∃ o', Ran U (U.execvp p.child.argv) (w.consumed k) o' e s' ∧
        o ++ sent written (U.next s) ++ bytes.drop written = o' ++ sent 0 (U.next s') := by
    intro o e hran
    refine ⟨o ++ bytes, hran.write hnext, ?_⟩
    rw [hnext, sent_zero, sent, List.append_nil, List.append_assoc, List.take_append_drop]
  unfold writeStep at hstep
  rw [hfile] at hstep
  by_cases hnot : k + 1 = pipeline.commands.length
  · -- the last command writes to a file or to what the shell was started with
    rw [if_pos hnot] at hend
    have hzero : written = 0 := by
      have h := hflow.process k p hp
      rw [hstate] at h
      cases h with
      | running hran ho hlast he => exact hlast hnot
    subst hzero
    rw [List.drop_zero] at hall
    have hsent : some ((w.send k bytes).put k (.running p.child.table s' 0)) = some w' := by
      cases file with
      | readEnd j => exact absurd rfl (hend j).1
      | writeEnd j => exact absurd rfl (hend j).2
      | _ => exact hstep
    exact Option.some.inj hsent ▸ hflow.wrote _ hp hstate rfl rfl rfl (fun _ _ => rfl)
      (fun h => absurd hnot h.ne) hall fun _ => rfl
  · rw [if_neg hnot] at hend
    have hopen := no_sigpipe hflow hinv hp (by simp [hstate]) (by omega)
    subst hend
    simp only [hopen, if_true] at hstep
    split at hstep
    · exact Option.some.inj hstep ▸ hflow.wrote _ hp hstate rfl rfl rfl
        (fun j hj => by simp [hj]) (fun _ => by simp) hall fun _ => rfl
    · split at hstep
      · cases hstep
      · -- the pipe is full, and the rest has to wait
        refine Option.some.inj hstep ▸ hflow.wrote _ hp hstate rfl rfl rfl
          (fun j hj => by simp [hj]) (fun _ => by simp) ?_ fun h => absurd h hnot
        intro o e hran
        refine ⟨o, hran, ?_⟩
        rw [hnext, sent, sent, List.append_assoc, List.take_add]

theorem Flow.read (hp : w.processes[k]? = some p) (hstate : p.state = .running p.child.table s written)
    (hnext : U.next s = .read STDIN_FILENO max received) (hmax : 0 < max)
    (hstep : readStep w k p.child.table STDIN_FILENO max received data = some w') :
    Flow U pipeline f w' := by
  have hlt := (List.getElem?_eq_some_iff.mp hp).1
  have hk : k < pipeline.commands.length := hlt.trans_le hinv.length_le
  rcases (hconnected k p _ hp (List.getElem?_eq_getElem hk)).stdin with ⟨file, hfile, hend⟩
  unfold readStep at hstep
  rw [hfile] at hstep
  cases k with
  | zero =>
    -- the first command reads from a file or from what the shell was started with
    have hfile : some ((w.receive 0 (data.take max)).put 0
        (.running p.child.table (received (data.take max)) 0)) = some w' := by
      cases file with
      | readEnd j => exact absurd rfl (hend j).1
      | writeEnd j => exact absurd rfl (hend j).2
      | _ => exact hstep
    refine Option.some.inj hfile ▸ hflow.receive hp hstate hnext (List.length_take_le _ _) rfl rfl rfl
      (fun _ _ => rfl) (fun j hj => ?_) fun _ => trivial
    cases hj
  | succ j =>
    have hend : file = .readEnd j := hend
    subst hend
    simp only at hstep
    split at hstep
    · cases hstep
    · rename_i hcond
      refine Option.some.inj hstep ▸ hflow.receive hp hstate hnext (List.length_take_le _ _) rfl rfl
        rfl ?_ ?_ ?_
      · intro i hi
        simp [show i ≠ j by omega]
      · intro i hi
        simp [Nat.succ.inj hi]
      · intro hempty
        -- the pipe is empty, and the writer is gone
        have hpipe : w.pipes j = [] := by
          rcases List.take_eq_nil_iff.mp hempty with hzero | hnil
          · omega
          · exact hnil
        have hclosed : w.isOpen (.writeEnd j) = false :=
          Bool.eq_false_of_not_eq_true fun hopen => hcond ⟨hpipe, hmax, hopen⟩
        have hexited := exited_of_closed hflow (hconnected j) (by omega) hk hclosed
        exact ⟨hexited.modify hp (by simp [hstate]) rfl, by simp [hpipe]⟩

include hfilters

/-- The filters keep the invariant. -/
theorem Flow.run (hstep : runStep U capacity w k data = some w') : Flow U pipeline f w' := by
  unfold runStep at hstep
  split at hstep
  · rename_i table s written hstate
    rcases Option.map_eq_some_iff.mp hstate with ⟨p, hp, hstate⟩
    have hk : k < pipeline.commands.length :=
      (List.getElem?_eq_some_iff.mp hp).1.trans_le hinv.length_le
    have hcommand := List.getElem?_eq_getElem hk
    have hfilter := hfilters.program k _ hcommand
    have hdrains := hfilters.drains k _ hcommand
    rw [← (hconnected k p _ hp hcommand).argv] at hfilter hdrains
    have h := hflow.process k p hp
    rw [hstate] at h
    cases h with
    | @running _ _ o e hran ho hlast he =>
      -- a filter reads its input and writes its output, nothing else
      have hrequest := hfilter.requests _ _ _ _ hran
      cases hnext : U.next s with
      | compute =>
        simp only [hnext] at hstep
        exact Option.some.inj hstep ▸ hflow.compute hp hstate hnext
      | read =>
        rw [hnext] at hrequest
        rcases hrequest with ⟨rfl, hmax⟩
        simp only [hnext] at hstep
        exact hflow.read hinv hconnected hp hstate hnext hmax hstep
      | write fd bytes s' =>
        rw [hnext] at hrequest
        have hfd : fd = STDOUT_FILENO := hrequest
        subst hfd
        simp only [hnext] at hstep
        exact hflow.write hinv hconnected hp hstate hnext hstep
      | close =>
        rw [hnext] at hrequest
        exact hrequest.elim
      | exit =>
        simp only [hnext] at hstep
        have hsent : sent written (U.next s) = [] := by rw [hnext]; rfl
        rw [hsent, List.append_nil, hfilter.exits _ _ _ _ hran hnext] at ho
        -- a filter that reads a pipe exits at its end only
        have hd : Drained w k := by
          rcases Nat.eq_zero_or_pos k with rfl | hpos
          · trivial
          · exact he (hdrains hpos _ _ _ _ hran hnext)
        have hrunning : p.state ≠ .exited := by simp [hstate]
        refine Option.some.inj hstep ▸ hflow.put hp hrunning rfl ?_ (fun _ _ => ⟨rfl, rfl⟩)
          (fun _ _ _ => rfl) hflow.pipes
        exact .exited ho (drained_put hp hrunning rfl (fun _ _ _ => rfl) hd)
  · cases hstep

end Run

/-- The shell only adds processes, and those have not done anything. -/
theorem Flow.extend {added : List (Process α σ)} (hflow : Flow U pipeline f w)
    (hprocesses : w'.processes = w.processes ++ added) (hpipes : w'.pipes = w.pipes)
    (hconsumed : w'.consumed = w.consumed) (hproduced : w'.produced = w.produced)
    (hadded : ∀ p ∈ added, ∃ t, p.state = .forked t ∧
      (w.processes.length + 1 < pipeline.commands.length →
        ∃ fd, t.find? fd = some (.writeEnd w.processes.length)))
    (hone : added.length ≤ 1) : Flow U pipeline f w' := by
  have hdrained : ∀ i, Drained w i → Drained w' i := by
    intro i h
    cases i with
    | zero => trivial
    | succ =>
      rcases h with ⟨⟨p, hp, hexited⟩, hempty⟩
      refine ⟨⟨p, ?_, hexited⟩, hpipes ▸ hempty⟩
      rw [hprocesses, List.getElem?_append_left (List.getElem?_eq_some_iff.mp hp).1]
      exact hp
  refine ⟨?_, ?_, ?_⟩
  · intro k p hp
    rw [hprocesses] at hp
    rcases Nat.lt_or_ge k w.processes.length with hk | hk
    · rw [List.getElem?_append_left hk] at hp
      exact (hflow.process k p hp).mono (by rw [hconsumed]) (by rw [hproduced]) (hdrained k)
    · -- the new process
      rw [List.getElem?_append_right hk] at hp
      have hlt := (List.getElem?_eq_some_iff.mp hp).1
      obtain rfl : k = w.processes.length := by omega
      rcases hadded p (List.mem_of_getElem? hp) with ⟨t, hstate, hwrite⟩
      rw [hstate]
      refine .forked ?_ ?_ hwrite
      · rw [hconsumed]
        exact (hflow.later _ hk).1
      · rw [hproduced]
        exact (hflow.later _ hk).2
  · intro j hj
    rw [hpipes, hconsumed, hproduced]
    exact hflow.pipes j hj
  · intro k hk
    rw [hprocesses, List.length_append] at hk
    rw [hconsumed, hproduced]
    exact hflow.later k (by omega)

theorem Flow.shell (hflow : Flow U pipeline f w) (hinv : Inv K pipeline t₀ w)
    (hstep : ShellStepped K pipeline w w') : Flow U pipeline f w' := by
  cases hstep with
  | fork k command next inFd pipefd hcontrol =>
    refine hflow.extend rfl rfl rfl rfl ?_ le_rfl
    intro p hmem
    rcases List.mem_singleton.mp hmem with rfl
    refine ⟨w.table, rfl, fun hnext => ?_⟩
    -- the shell still holds the end that the new process will write to
    have hstage := hinv.stage
    rw [hcontrol] at hstage
    cases hstage with
    | forkLast hs hp hdrop =>
      have hlength := congrArg List.length hdrop
      rw [List.length_drop, List.length_singleton] at hlength
      omega
    | @forkPipe t _ _ _ hs htable hp hdrop =>
      refine ⟨(K.pipefd w.frames.length t).2, ?_⟩
      rw [htable, find?_pipe, if_pos rfl, hp]
  | _ => exact hflow.extend (List.append_nil _).symm rfl rfl rfl (by simp) (Nat.zero_le 1)

/-! ## Whole runs -/

/-- The files of the redirections can be opened. -/
def Opens (l : Label) (_ : World α σ) : Prop :=
  ∀ k, l ≠ .openFails k

theorem launch_flow : Flow U pipeline f (launch pipeline t : World α σ) := by
  refine ⟨?_, fun _ _ => rfl, fun _ _ => ⟨rfl, rfl⟩⟩
  intro k p hp
  cases hp

section Runs

variable [DecidableEq α]

theorem Flow.step {l : Label} (hflow : Flow U pipeline f w) (hstd : Standard t)
    (hno : NoPipes t) (hfilters : Filters U pipeline f)
    (hr : Reachable (system K U capacity pipeline t) w) (hopens : Opens l w)
    (hstep : step K U capacity pipeline l w = some w') : Flow U pipeline f w' := by
  have hinv := reachable_inv hstd hno hr
  cases l with
  | shell => exact hflow.shell hinv (shellStepped_of_shellStep hstep)
  | exec k =>
    have hstep : execStep U w k = some w' := hstep
    unfold execStep at hstep
    split at hstep
    · rename_i hp
      exact Option.some.inj hstep ▸ hflow.exec hp rfl
    · cases hstep
  | openFails k => exact absurd rfl (hopens k)
  | run =>
    exact hflow.run hinv hfilters
      (fun _ _ _ hp hcommand => connected hstd hno hfilters hr hp hcommand) hstep

theorem reachable_flow (hstd : Standard t) (hno : NoPipes t) (hfilters : Filters U pipeline f)
    (hr : Reachable ((system K U capacity pipeline t).guarded Opens) w) : Flow U pipeline f w := by
  let Good := fun w => Reachable (system K U capacity pipeline t) w ∧ Flow U pipeline f w
  have hgood : Good w := by
    refine Reachable.invariant_guarded ?_ ?_ hr
    · intro w hinit
      exact ⟨.init hinit, hinit ▸ launch_flow⟩
    · rintro l w w' ⟨hr, hflow⟩ hopens hstep
      exact ⟨hr.step l hstep, hflow.step hstd hno hfilters hr hopens hstep⟩
  exact hgood.2

/-- The input after the first `k` filters. -/
def through (f : ℕ → List UInt8 → List UInt8) (input : List UInt8) : ℕ → List UInt8
  | 0 => input
  | k + 1 => f k (through f input k)

omit [DecidableEq α] in
/-- What a process has written when it and all before it have exited. -/
theorem Flow.produced_eq (hflow : Flow U pipeline f w)
    (hexited : ∀ i, i < pipeline.commands.length → Exited w i) (hk : k < pipeline.commands.length) :
    w.produced k = through f (w.consumed 0) (k + 1) := by
  have hcomputed : ∀ i, i < pipeline.commands.length → w.produced i = f i (w.consumed i) := by
    intro i hi
    rcases hexited i hi with ⟨p, hp, hstate⟩
    have h := hflow.process i p hp
    rw [hstate] at h
    cases h with
    | exited ho hd => exact ho
  induction k with
  | zero => exact hcomputed 0 hk
  | succ j ih =>
    have hempty := (hflow.drained (hexited (j + 1) hk)).2
    have hpipe := hflow.pipes j hk
    rw [hempty, List.append_nil] at hpipe
    rw [hcomputed (j + 1) hk, ← hpipe, ih (by omega)]
    rfl

/-- When a pipeline of filters has finished, its last command has written the composition of the
filters, applied to what the first one has read, and every command has read all that the one
before it has written. -/
theorem pipeline_composes (K : Kernel α) (U : Userland σ) (capacity : ℕ) (pipeline : Pipeline)
    (t : Table α) (f : ℕ → List UInt8 → List UInt8) (w : World α σ) (hstd : Standard t)
    (hno : NoPipes t) (hfilters : Filters U pipeline f)
    (hr : Reachable ((system K U capacity pipeline t).guarded Opens) w)
    (hfinished : Finished pipeline w) :
    w.produced pipeline.next.length =
        through f (w.consumed 0) (pipeline.next.length + 1) ∧
      ∀ k, k < pipeline.next.length → w.consumed (k + 1) = w.produced k ∧ w.pipes k = [] := by
  have hflow := reachable_flow hstd hno hfilters hr
  have hexited : ∀ k, k < pipeline.commands.length → Exited w k := by
    intro k hk
    rw [← hfinished.forked] at hk
    exact ⟨_, List.getElem?_eq_getElem hk, hfinished.exited _ (List.getElem_mem hk)⟩
  refine ⟨hflow.produced_eq hexited (Nat.lt_succ_self _), ?_⟩
  intro k hk
  have hk : k + 1 < pipeline.commands.length := Nat.succ_lt_succ hk
  have hempty := (hflow.drained (hexited (k + 1) hk)).2
  rw [hflow.pipes k hk, hempty, List.append_nil]
  exact ⟨rfl, rfl⟩

end Runs

/-! ### The filters of `echo | cat` -/

theorem ran_echo {s : Demo} (hran : Ran demo .echo c o e s) :
    (s = .echo ∧ o = []) ∨ (s = .stop ∧ o = [104, 105]) := by
  induction hran with
  | start => exact .inl ⟨rfl, rfl⟩
  | compute _ hnext ih | read bytes _ hnext _ ih =>
    rcases ih with ⟨rfl, -⟩ | ⟨rfl, -⟩ <;> cases hnext
  | write _ hnext ih =>
    rcases ih with ⟨rfl, rfl⟩ | ⟨rfl, -⟩ <;> cases hnext
    exact .inr ⟨rfl, rfl⟩

theorem ran_cat {s : Demo} (hran : Ran demo .cat c o e s) :
    (s = .cat ∧ o = c) ∨ (∃ bytes, s = .copy bytes ∧ o ++ bytes = c) ∨
      (s = .stop ∧ o = c ∧ e = true) := by
  induction hran with
  | start => exact .inl ⟨rfl, rfl⟩
  | compute _ hnext ih => rcases ih with ⟨rfl, -⟩ | ⟨bytes, rfl, -⟩ | ⟨rfl, -⟩ <;> cases hnext
  | read bytes _ hnext _ ih =>
    rcases ih with ⟨rfl, rfl⟩ | ⟨bytes, rfl, -⟩ | ⟨rfl, -⟩ <;> cases hnext
    by_cases hempty : bytes = []
    · exact .inr (.inr ⟨if_pos hempty, by simp [hempty], by simp [hempty]⟩)
    · exact .inr (.inl ⟨bytes, if_neg hempty, rfl⟩)
  | write _ hnext ih =>
    rcases ih with ⟨rfl, -⟩ | ⟨bytes, rfl, hc⟩ | ⟨rfl, -⟩ <;> cases hnext
    exact .inl ⟨rfl, hc⟩

theorem filter_echo : Filter demo .echo fun _ => [104, 105] := by
  refine ⟨?_, ?_⟩
  · intro c o e s hran
    rcases ran_echo hran with ⟨rfl, -⟩ | ⟨rfl, -⟩
    · exact rfl
    · trivial
  · intro c o e s hran hexit
    rcases ran_echo hran with ⟨rfl, -⟩ | ⟨rfl, ho⟩ <;> cases hexit
    exact ho

theorem filter_cat : Filter demo .cat id := by
  refine ⟨?_, ?_⟩
  · intro c o e s hran
    rcases ran_cat hran with ⟨rfl, -⟩ | ⟨bytes, rfl, -⟩ | ⟨rfl, -⟩
    · exact ⟨rfl, Nat.succ_pos 3⟩
    · exact rfl
    · trivial
  · intro c o e s hran hexit
    rcases ran_cat hran with ⟨rfl, -⟩ | ⟨bytes, rfl, -⟩ | ⟨rfl, ho, -⟩ <;> cases hexit
    exact ho

theorem drains_cat : Drains demo .cat := by
  intro c o e s hran hexit
  rcases ran_cat hran with ⟨rfl, -⟩ | ⟨bytes, rfl, -⟩ | ⟨rfl, -, he⟩ <;> cases hexit
  exact he

def echoCatFilters : ℕ → List UInt8 → List UInt8
  | 0 => fun _ => [104, 105]
  | _ + 1 => id

theorem echoCat_redirections {command : Command} (hcommand : echoCat.commands[k]? = some command) :
    command.inputRedir = none ∧ command.outputRedir = none := by
  match k, hcommand with
  | 0, rfl => exact ⟨rfl, rfl⟩
  | 1, rfl => exact ⟨rfl, rfl⟩

theorem filters_echoCat : Filters demo echoCat echoCatFilters := by
  refine ⟨?_, ?_, fun k command h _ => (echoCat_redirections h).1,
    fun k command h _ => (echoCat_redirections h).2⟩
  · intro k command hcommand
    match k, hcommand with
    | 0, rfl => exact filter_echo
    | 1, rfl => exact filter_cat
  · intro k command hcommand hk
    match k, hcommand with
    | 0, _ => cases hk
    | 1, rfl => exact drains_cat

theorem pipeline_composes_echoCat :
    (echoCatRun.state 19).produced 1 = [104, 105] ∧
      (echoCatRun.state 19).consumed 1 = (echoCatRun.state 19).produced 0 ∧
      (echoCatRun.state 19).pipes 0 = [] := by
  have hopens : ∀ k l, echoCatRun.label k = some l → Opens l (echoCatRun.state k) := by
    rintro k l hl i rfl
    have hmem := Behavior.mem_of_ofSchedule_label hl
    simp at hmem
  have h := pipeline_composes (posix String) demo 1 echoCat console echoCatFilters _
    ⟨by decide, by decide, by decide⟩ console_noPipes filters_echoCat
    (echoCatRun.reachable_guarded hopens 19) echoCatRun_finished
  exact ⟨h.1, h.2 0 Nat.one_pos⟩

end SysProg.Shell
