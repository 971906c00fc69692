import Mathlib.Tactic
import SysProg.Lib.Loop

/-!
# The system call tracer, `task1-syscalls/task-1_3.c`

The tracee is a list of stops, after the last of which it is gone. The tracer looks at two
stops in each iteration of its loop and takes them for the entry and the exit of a call.

* `Stop`, `Alternates` — the stops of a tracee, with signal-delivery stops anywhere;
* `traceStep`, `tracer` — the loop of `main` and what it writes to `stderr`;
* `completed` — the reads and writes that the tracee completes, and `report`, their lines;
* `tracer_eq` — the tracer ends, and prints a line for each two stops that show a call.
-/

namespace SysProg.Syscalls

/-! ## The tracee -/

/-- The fields of `struct user_regs_struct` that the tracer looks at. -/
structure Registers where
  origRax : BitVec 64
  rdi : BitVec 64
  rsi : BitVec 64
  rdx : BitVec 64
  rax : BitVec 64
deriving DecidableEq, Repr

inductive StopKind where
  | entry
  | exit
  | signal
deriving DecidableEq, Repr

/-- A stop of the tracee, with the registers that it shows. -/
structure Stop where
  kind : StopKind
  registers : Registers
deriving DecidableEq, Repr

/-- The registers have the number of `read` or `write`. -/
def Shows (r : Registers) : Prop :=
  r.origRax = 0 ∨ r.origRax = 1

instance (r : Registers) : Decidable (Shows r) :=
  inferInstanceAs (Decidable (_ ∨ _))

/-- The registers `r'` have the call number and the arguments of `r`. -/
def SameCall (r r' : Registers) : Prop :=
  r'.origRax = r.origRax ∧ r'.rdi = r.rdi ∧ r'.rsi = r.rsi ∧ r'.rdx = r.rdx

/-- The registers at the entry of the call that the tracee is in after a stop. -/
def pendingAfter (pending : Option Registers) (s : Stop) : Option Registers :=
  match s.kind with
  | .entry => some s.registers
  | .exit => none
  | .signal => pending

/-- The tracee may stop like this: an entry outside a call, the exit of a call, where a `read`
or `write` still shows its number and its arguments, or a signal, where the registers show
anything. -/
def MayStop (pending : Option Registers) (s : Stop) : Prop :=
  match s.kind, pending with
  | .entry, none => True
  | .exit, some r => Shows r → SameCall r s.registers
  | .signal, _ => True
  | _, _ => False

/-- Entries and exits alternate, with signals anywhere between them. -/
def Alternates : Option Registers → List Stop → Prop
  | _, [] => True
  | pending, s :: stops => MayStop pending s ∧ Alternates (pendingAfter pending s) stops

/-- The stops of a tracee after the one at `execve`, up to its exit. -/
structure Stops where
  stops : List Stop
  alternates : Alternates none stops

/-- The tracee as `ptrace` and `waitpid` see it, with the stops that are to come. -/
inductive Tracee where
  | running (stops : List Stop)
  | stopped (registers : Registers) (stops : List Stop)
  | gone
deriving DecidableEq, Repr

/-- `ptrace(PTRACE_SYSCALL, pid, 0, 0)`; it fails unless the tracee is stopped. -/
def ptraceSyscall : Tracee → Bool × Tracee
  | .stopped _ stops => (true, .running stops)
  | tracee => (false, tracee)

/-- `waitpid(pid, 0, 0)` -/
def waitpid : Tracee → Tracee
  | .running (s :: stops) => .stopped s.registers stops
  | .running [] => .gone
  | tracee => tracee

/-- `ptrace(PTRACE_GETREGS, pid, 0, &registers)`; it leaves `registers` alone if it fails. -/
def ptraceGetregs (tracee : Tracee) (registers : Registers) : Registers :=
  match tracee with
  | .stopped r _ => r
  | _ => registers

/-! ## The tracer -/

/-- `%p` -/
def pointerText (p : BitVec 64) : String :=
  if p = 0 then "(nil)" else "0x" ++ String.ofList (Nat.toDigits 16 p.toNat)

/-- `fprintf(stderr, "read(%d, %p, %llu)", ...)`, and the same for `write`. -/
def callText (name : String) (r : Registers) : String :=
  name ++ "(" ++ toString (r.rdi.setWidth 32).toInt ++ ", " ++ pointerText r.rsi ++ ", " ++
    toString r.rdx.toNat ++ ")"

/-- `fprintf(stderr, " = %llu\n", registers.rax)` -/
def resultText (rax : BitVec 64) : String :=
  " = " ++ toString rax.toNat ++ "\n"

/-- The first stop of a pair: what is on `stderr` after it, and `printResult`. -/
def printCall (registers : Registers) (stderr : String) : String × Bool :=
  if registers.origRax = 0 then (stderr ++ callText "read" registers, true)
  else if registers.origRax = 1 then (stderr ++ callText "write" registers, true)
  else (stderr, false)

/-- The second stop of a pair. -/
def printRest (rax : BitVec 64) : String × Bool → String
  | (stderr, printResult) => if printResult then stderr ++ resultText rax else stderr

structure TracerState where
  tracee : Tracee
  stderr : String

/-- One iteration. The variable `registers` is not initialised: `indeterminate` is what it
holds where the first `PTRACE_GETREGS` fails. That is the case in one iteration at most,
since the next one ends the loop. -/
def traceStep (indeterminate : Registers) (s : TracerState) : TracerState ⊕ String :=
  let (resumed, tracee) := ptraceSyscall s.tracee
  if resumed = false then .inr s.stderr
  else
    let tracee := waitpid tracee
    let registers := ptraceGetregs tracee indeterminate
    let printed := printCall registers s.stderr
    let tracee := waitpid (ptraceSyscall tracee).2
    let registers := ptraceGetregs tracee registers
    .inl ⟨tracee, printRest registers.rax printed⟩

/-- `main` of the parent for a tracee with these stops: what it prints. -/
def tracer (indeterminate : Registers) (stops : List Stop) : Option String :=
  Loop.run (traceStep indeterminate) (stops.length + 2) ⟨waitpid (.running stops), ""⟩

/-! ## The lines to be printed -/

inductive Name where
  | read
  | write
deriving DecidableEq, Repr

/-- A completed call with its arguments and its result. -/
structure Call where
  name : Name
  fd : BitVec 32
  buffer : BitVec 64
  count : BitVec 64
  result : BitVec 64
deriving DecidableEq, Repr

def Name.text : Name → String
  | .read => "read"
  | .write => "write"

def Call.line (c : Call) : String :=
  c.name.text ++ "(" ++ toString c.fd.toInt ++ ", " ++ pointerText c.buffer ++ ", " ++
    toString c.count.toNat ++ ") = " ++ toString c.result.toNat ++ "\n"

/-- The lines of calls. -/
def report : List Call → String
  | [] => ""
  | c :: calls => c.line ++ report calls

/-- The `read` or `write` with these registers, and a result. -/
def callOf (r : Registers) (result : BitVec 64) : Option Call :=
  if r.origRax = 0 then some ⟨.read, r.rdi.setWidth 32, r.rsi, r.rdx, result⟩
  else if r.origRax = 1 then some ⟨.write, r.rdi.setWidth 32, r.rsi, r.rdx, result⟩
  else none

/-- The `read` or `write` that is completed at a stop. -/
def completes (pending : Option Registers) (s : Stop) : List Call :=
  match s.kind with
  | .exit => (pending.bind fun r => callOf r s.registers.rax).toList
  | _ => []

/-- The reads and writes that are completed, in order. -/
def completed : Option Registers → List Stop → List Call
  | _, [] => []
  | pending, s :: stops => completes pending s ++ completed (pendingAfter pending s) stops

/-! ## What the loop prints -/

/-- The calls that the tracer makes out of the stops, two at a time. -/
def paired (indeterminate : Registers) : List Stop → List Call
  | [] => (callOf indeterminate indeterminate.rax).toList
  | [s] => (callOf s.registers s.registers.rax).toList
  | s :: t :: stops =>
    (callOf s.registers t.registers.rax).toList ++ paired indeterminate stops

theorem report_append (a b : List Call) : report (a ++ b) = report a ++ report b := by
  induction a with
  | nil => simp [report]
  | cons c a ih => simp [report, ih, String.append_assoc]

/-- The two `fprintf` of an iteration print one line. -/
theorem printRest_printCall (r : Registers) (rax : BitVec 64) (stderr : String) :
    printRest rax (printCall r stderr) = stderr ++ report (callOf r rax).toList := by
  have hclose : ∀ rest : String, ")" ++ (" = " ++ rest) = ") = " ++ rest := by
    intro rest
    rw [← String.append_assoc]
    rfl
  unfold printCall callOf
  split
  · simp [printRest, report, Call.line, callText, resultText, Name.text, String.append_assoc, hclose]
  · split
    · simp [printRest, report, Call.line, callText, resultText, Name.text, String.append_assoc, hclose]
    · simp [printRest, report]

section Loop

variable (indeterminate r : Registers) (stderr : String)

theorem traceStep_gone : traceStep indeterminate ⟨.gone, stderr⟩ = .inr stderr := rfl

theorem traceStep_nil :
    traceStep indeterminate ⟨.stopped r [], stderr⟩ =
      .inl ⟨.gone, stderr ++ report (callOf indeterminate indeterminate.rax).toList⟩ := by
  rw [← printRest_printCall]
  rfl

theorem traceStep_one (s : Stop) :
    traceStep indeterminate ⟨.stopped r [s], stderr⟩ =
      .inl ⟨.gone, stderr ++ report (callOf s.registers s.registers.rax).toList⟩ := by
  rw [← printRest_printCall]
  rfl

theorem traceStep_two (s t : Stop) (stops : List Stop) :
    traceStep indeterminate ⟨.stopped r (s :: t :: stops), stderr⟩ =
      .inl ⟨.stopped t.registers stops,
        stderr ++ report (callOf s.registers t.registers.rax).toList⟩ := by
  rw [← printRest_printCall]
  rfl

/-- From a stopped tracee the loop ends, with a line for each pair of stops. -/
theorem run_traceStep (stops : List Stop) {n : ℕ} (hn : stops.length + 1 < n) :
    Loop.run (traceStep indeterminate) n ⟨.stopped r stops, stderr⟩ =
      some (stderr ++ report (paired indeterminate stops)) := by
  fun_induction paired indeterminate stops generalizing n r stderr with
  | case1 =>
    obtain ⟨k, rfl⟩ : ∃ k, n = k + 2 := ⟨n - 2, by simp at hn; omega⟩
    rw [Loop.run_succ_inl (traceStep_nil indeterminate r stderr), Loop.run_succ_inr (traceStep_gone _ _)]
  | case2 s =>
    obtain ⟨k, rfl⟩ : ∃ k, n = k + 2 := ⟨n - 2, by simp at hn; omega⟩
    rw [Loop.run_succ_inl (traceStep_one indeterminate r stderr s), Loop.run_succ_inr (traceStep_gone _ _)]
  | case3 s t stops ih =>
    obtain ⟨k, rfl⟩ : ∃ k, n = k + 1 := ⟨n - 1, by omega⟩
    rw [Loop.run_succ_inl (traceStep_two indeterminate r stderr s t stops)]
    rw [ih t.registers _ (by simp only [List.length_cons] at hn; omega)]
    rw [report_append, String.append_assoc]

end Loop

/-- The tracer ends when the tracee does, and prints the calls that it makes out of the
stops after the first one. -/
theorem tracer_eq (indeterminate : Registers) (exec : Stop) (stops : List Stop) :
    tracer indeterminate (exec :: stops) = some (report (paired indeterminate stops)) := by
  have hfuel : stops.length + 1 < (exec :: stops).length + 2 := by
    simp only [List.length_cons]
    omega
  have h := run_traceStep indeterminate exec.registers "" stops hfuel
  rw [String.empty_append] at h
  exact h

end SysProg.Syscalls
