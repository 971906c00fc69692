import SysProg.Shell.Actions

/-!
# Command lines and what they run

`yyparse` stops at the end of a line or at a token that cannot continue a sentence, and
`main` runs what has been parsed so far in both cases; the next round goes on behind that
token. So a line is run piece by piece.

* `runPieces` — what the pieces of a line run;
* `main_runs` — what `main` runs for all lines;
* `Clean`, `Harmless` — lines run once or, if they are no sentences, not at all; and the
  inputs for which this is so;
* `clean_iff` — they are these inputs.
-/

namespace SysProg.Shell

open Recognizer Loop

/-- A line without the tokens that could not be read, cut where they were. -/
def piecesOf (line : List Token) : List (List Token) :=
  pieces advance .start .start [] line

/-- What pieces run, and whether the last of it is `exit`. -/
def runPieces : List (List Token) → List Execution × Bool
  | [] => ([], false)
  | piece :: rest =>
    match pieceExecution piece with
    | none => runPieces rest
    | some e => if e.isExit then ([e], true) else (e :: (runPieces rest).1, (runPieces rest).2)

/-! ## Rounds of `main` -/

/-- The end of a round after `yyparse`. -/
def proceed (n : ℕ) (log : List (ℕ × Execution)) (next : List (ℕ × Execution) → MainState)
    (execution : Option Execution) : MainState ⊕ List (ℕ × Execution) :=
  match execution with
  | none => .inl (next log)
  | some e =>
    if e.isExit then .inr (log ++ [(n, e)]) else .inl (next (log ++ [(n, e)]))

variable {pos : Position} {ts line : List Token} {n : ℕ} {log : List (ℕ × Execution)}
  {ps : List (List Token)}

/-- A round that reads to the end of a line. -/
theorem mainStep_newline (h : reads advance .start ts = some pos) (rest : List (Option Token)) :
    mainStep ⟨n, ts.map some ++ none :: rest, log⟩ =
      proceed n log (fun log => ⟨n + 1, rest, log⟩) (pieceExecution ts) := by
  cases hexecution : execute (reductions pos (build .start ts .cleared)) <;>
    simp [mainStep, proceed, pieceExecution, yyparse_reads h, yyparse, h, hexecution]

/-- A round that reads to a token that cannot be shifted. -/
theorem mainStep_stuck (h : reads advance .start ts = some pos) {t : Token}
    (hstuck : advance pos t = none) (rest : List (Option Token)) :
    mainStep ⟨n, ts.map some ++ some t :: rest, log⟩ =
      proceed n log (fun log => ⟨n, rest, log⟩) (pieceExecution ts) := by
  cases hexecution : execute (reductions pos (build .start ts .cleared)) <;>
    simp [mainStep, proceed, pieceExecution, yyparse_reads h, yyparse, hstuck, h, hexecution]

/-- A round that reads to the end of the input. -/
theorem mainStep_eof (h : reads advance .start ts = some pos) :
    mainStep ⟨n, ts.map some, log⟩ = .inr log := by
  have hparse := yyparse_reads h .cleared []
  rw [List.append_nil] at hparse
  unfold mainStep
  simp only [hparse, yyparse, if_true]

/-- What is left to run after some pieces of line `n`: `main` is at `next`, or it has
ended. -/
def Continues (n : ℕ) (ps : List (List Token)) (log : List (ℕ × Execution))
    (next : List (ℕ × Execution) → MainState) (fuel : ℕ) : Option (List (ℕ × Execution)) :=
  let log := log ++ (runPieces ps).1.map fun e => (n, e)
  if (runPieces ps).2 then some log else run mainStep fuel (next log)

/-- One round runs one piece. -/
theorem run_proceed {piece : List Token} {s : MainState}
    {next next' : List (ℕ × Execution) → MainState} {k : ℕ}
    (hstep : mainStep s = proceed n log next (pieceExecution piece))
    (hnext : ∀ log fuel, run mainStep (k + fuel) (next log) = Continues n ps log next' fuel)
    (fuel : ℕ) :
    run mainStep (k + 1 + fuel) s = Continues n (piece :: ps) log next' fuel := by
  have hfuel : k + 1 + fuel = k + fuel + 1 := by omega
  rw [hfuel]
  unfold proceed at hstep
  cases hexec : pieceExecution piece with
  | none =>
    simp only [hexec] at hstep
    rw [run_succ_inl hstep, hnext]
    simp only [Continues, runPieces, hexec]
  | some e =>
    simp only [hexec] at hstep
    by_cases hexit : e.isExit = true
    · rw [if_pos hexit] at hstep
      rw [run_succ_inr hstep]
      simp only [Continues, runPieces, hexec, hexit, if_true, List.map_cons, List.map_nil]
    · rw [if_neg hexit] at hstep
      rw [run_succ_inl hstep, hnext]
      simp only [Continues, runPieces, hexec, hexit, List.append_assoc, List.singleton_append]
      rfl

theorem piecesOf_reads (h : reads advance .start ts = some pos) : piecesOf ts = [ts] :=
  pieces_of_reads h

theorem piecesOf_stuck (h : reads advance .start ts = some pos) {t : Token}
    (hstuck : advance pos t = none) (us : List Token) :
    piecesOf (ts ++ t :: us) = ts :: piecesOf us :=
  pieces_of_stuck h hstuck

/-- All rounds for a line. -/
theorem run_line (line : List Token) (n : ℕ) (rest : List (Option Token)) :
    ∃ k, ∀ log fuel, run mainStep (k + fuel) ⟨n, line.map some ++ none :: rest, log⟩ =
      Continues n (piecesOf line) log (fun log => ⟨n + 1, rest, log⟩) fuel := by
  induction hlen : line.length using Nat.strong_induction_on generalizing line with
  | h len ih =>
    rcases reads_or_stuck advance .start line with
      ⟨pos, hreads⟩ | ⟨us, t, vs, pos, rfl, hreads, hstuck⟩
    · refine ⟨1, fun log fuel => ?_⟩
      rw [piecesOf_reads hreads]
      refine run_proceed (k := 0) (mainStep_newline hreads rest) ?_ fuel
      intro log fuel
      simp [Continues, runPieces]
    · rcases ih vs.length (by simp [← hlen]; omega) vs rfl with ⟨k, hk⟩
      refine ⟨k + 1, fun log fuel => ?_⟩
      rw [piecesOf_stuck hreads hstuck, List.map_append, List.map_cons, List.append_assoc,
        List.cons_append]
      exact run_proceed (mainStep_stuck hreads hstuck _) hk fuel

/-- All rounds for a last line without a newline, up to the one that finds the end of the
input and runs nothing. -/
theorem run_tail (tail : List Token) (n : ℕ) :
    ∃ k, ∀ log fuel, run mainStep (k + fuel) ⟨n, tail.map some, log⟩ =
      Continues n (piecesOf tail).dropLast log (fun log => ⟨n, [], log⟩) fuel := by
  induction hlen : tail.length using Nat.strong_induction_on generalizing tail with
  | h len ih =>
    rcases reads_or_stuck advance .start tail with
      ⟨pos, hreads⟩ | ⟨us, t, vs, pos, rfl, hreads, hstuck⟩
    · refine ⟨0, fun log fuel => ?_⟩
      have hnil : mainStep ⟨n, [], log⟩ = .inr log := rfl
      rw [piecesOf_reads hreads]
      cases fuel with
      | zero => simp [Continues, runPieces, run]
      | succ =>
        rw [Nat.zero_add, run_succ_inr (mainStep_eof hreads)]
        simp [Continues, runPieces, run_succ_inr hnil]
    · rcases ih vs.length (by simp [← hlen]; omega) vs rfl with ⟨k, hk⟩
      refine ⟨k + 1, fun log fuel => ?_⟩
      have hne : piecesOf vs ≠ [] := pieces_ne_nil
      rw [piecesOf_stuck hreads hstuck, List.dropLast_cons_of_ne_nil hne, List.map_append,
        List.map_cons]
      exact run_proceed (mainStep_stuck hreads hstuck _) hk fuel

/-! ## All lines -/

/-- The result of `yyparse`, which `main` does not look at: 0 for the sentences. -/
theorem yyparse_result (line : List Token) (rest : List (Option Token)) :
    (yyparse .start .cleared (line.map some ++ none :: rest)).result = 0 ↔ Sentence line := by
  rw [sentence_iff]
  rcases reads_or_stuck advance .start line with
    ⟨pos, hreads⟩ | ⟨us, t, vs, pos, rfl, hreads, hstuck⟩
  · rw [yyparse_reads hreads, yyparse, hreads]
    cases haccepting : pos.accepting <;> simp [haccepting]
  · have hnone : reads advance .start (us ++ t :: vs) = none := by
      simp [reads_append, hreads, reads, hstuck]
    rw [List.map_append, List.append_assoc, yyparse_reads hreads, hnone]
    simp [yyparse, hstuck]

/-- What `main` runs for lines that are numbered from `n` on. -/
def logOf : ℕ → List (List Token) → List Token → List (ℕ × Execution)
  | n, [], tail => (runPieces (piecesOf tail).dropLast).1.map fun e => (n, e)
  | n, line :: lines, tail =>
    ((runPieces (piecesOf line)).1.map fun e => (n, e)) ++
      if (runPieces (piecesOf line)).2 then [] else logOf (n + 1) lines tail

theorem inputOf_cons (line : List Token) (lines : List (List Token)) (tail : List Token) :
    inputOf (line :: lines) tail = line.map some ++ none :: inputOf lines tail := by
  simp [inputOf]

/-- `main` ends, and has run the pieces of the lines. -/
theorem main_runs (lines : List (List Token)) (tail : List Token) (n : ℕ) :
    ∃ k, ∀ log fuel, k ≤ fuel → run mainStep fuel ⟨n, inputOf lines tail, log⟩ =
      some (log ++ logOf n lines tail) := by
  induction lines generalizing n with
  | nil =>
    rcases run_tail tail n with ⟨k, hk⟩
    refine ⟨k + 1, fun log fuel hfuel => ?_⟩
    have hnil : ∀ log, mainStep ⟨n, [], log⟩ = .inr log := fun _ => rfl
    have hsplit : ∃ m, fuel = k + (m + 1) := ⟨fuel - (k + 1), by omega⟩
    rcases hsplit with ⟨m, rfl⟩
    have hrun := hk log (m + 1)
    rw [Continues, run_succ_inr (hnil _), ite_self] at hrun
    exact hrun
  | cons line lines ih =>
    rcases run_line line n (inputOf lines tail) with ⟨k, hk⟩
    rcases ih (n + 1) with ⟨m, hm⟩
    refine ⟨k + m, fun log fuel hfuel => ?_⟩
    -- first the rounds for this line, then those for the others
    have hsplit : fuel = k + (fuel - k) := by omega
    rw [inputOf_cons, hsplit, hk, logOf, Continues]
    split
    · rw [List.append_nil]
    · rw [hm _ _ (by omega), List.append_assoc]

/-! ## Pieces -/

theorem piecesOf_sentence (h : Sentence line) : piecesOf line = [line] := by
  rcases sentence_iff.mp h with ⟨pos, hreads, -⟩
  exact piecesOf_reads hreads

/-- Pieces run nothing when they are silent. -/
theorem runPieces_eq_nil (hreads : ∀ p ∈ ps, ∃ pos, reads advance .start p = some pos) :
    (runPieces ps).1 = [] ↔ ∀ p ∈ ps, Silent p := by
  induction ps with
  | nil => simp [runPieces]
  | cons p ps ih =>
    rcases hreads p List.mem_cons_self with ⟨pos, hpos⟩
    have hruns := pieceExecution_runs hpos
    have ih' := ih fun q hq => hreads q (List.mem_cons_of_mem p hq)
    rw [List.forall_mem_cons, runPieces]
    cases hexec : pieceExecution p with
    | none =>
      rw [hexec] at hruns
      cases hruns with
      | silent hsilent _ => simp [hsilent, ih']
    -- a piece that runs something is not silent
    | some e =>
      rw [hexec] at hruns
      have hnot : ¬ Silent p := by
        cases hruns <;> assumption
      simp only
      split <;> simp [hnot]

theorem runPieces_snd_of_nil (h : (runPieces ps).1 = []) :
    (runPieces ps).2 = false := by
  induction ps with
  | nil => rfl
  | cons p ps ih =>
    rw [runPieces] at h ⊢
    cases hexec : pieceExecution p with
    | none =>
      simp only [hexec] at h ⊢
      exact ih h
    | some =>
      simp only [hexec] at h
      split at h <;> exact absurd h (by simp)

/-- A line that is one piece. -/
theorem runPieces_singleton {pos : Position} (h : reads advance .start line = some pos) :
    (runPieces [line]).1.length ≤ 1 ∧ ((runPieces [line]).2 = true ↔ ExitLine line) := by
  have hruns := pieceExecution_runs h
  simp only [runPieces]
  cases hexec : pieceExecution line with
  | none =>
    rw [hexec] at hruns
    cases hruns with
    | silent _ hnot => simp [hnot]
  | some =>
    rw [hexec] at hruns
    cases hruns with
    | exits _ hexit he => simp [he, hexit]
    | returns _ hnot he => simp [he, hnot]

/-! ## Clean inputs -/

/-- What the log holds for line `n`. -/
def executionsIn (log : List (ℕ × Execution)) (n : ℕ) : List (ℕ × Execution) :=
  log.filter fun x => x.1 = n

/-- Every line, numbered from `n` on, runs at most one thing, and nothing if it is not a
sentence of the grammar. -/
def Clean (n : ℕ) (lines : List (List Token)) (tail : List Token)
    (log : List (ℕ × Execution)) : Prop :=
  ∀ i line, (lines ++ [tail])[i]? = some line →
    (executionsIn log (n + i)).length ≤ 1 ∧
    (¬ Sentence line → executionsIn log (n + i) = [])

/-- Up to the first line on which the shell exits, every line is a sentence or all of its
pieces are silent. The last piece of a line without a newline is never run. -/
def Harmless : List (List Token) → List Token → Prop
  | [], tail => ∀ p ∈ (piecesOf tail).dropLast, Silent p
  | line :: lines, tail =>
    (Sentence line ∨ ∀ p ∈ piecesOf line, Silent p) ∧ (ExitLine line ∨ Harmless lines tail)

theorem piecesOf_readable {line p : List Token} (h : p ∈ piecesOf line) :
    ∃ pos, reads advance .start p = some pos :=
  reads_of_mem_pieces h

/-- What one line runs is clean. -/
theorem runPieces_clean_iff (line : List Token) :
    ((runPieces (piecesOf line)).1.length ≤ 1 ∧
      (¬ Sentence line → (runPieces (piecesOf line)).1 = [])) ↔
    (Sentence line ∨ ∀ p ∈ piecesOf line, Silent p) := by
  have hnil : (runPieces (piecesOf line)).1 = [] ↔ ∀ p ∈ piecesOf line, Silent p :=
    runPieces_eq_nil fun p hp => piecesOf_readable hp
  by_cases hsentence : Sentence line
  · rcases sentence_iff.mp hsentence with ⟨pos, hreads, -⟩
    rw [piecesOf_sentence hsentence]
    exact ⟨fun _ => .inl hsentence,
      fun _ => ⟨(runPieces_singleton hreads).1, fun hnot => absurd hsentence hnot⟩⟩
  · rw [← hnil]
    refine ⟨fun h => .inr (h.2 hsentence), fun h => ?_⟩
    have hrun := h.resolve_left hsentence
    exact ⟨by rw [hrun]; exact Nat.zero_le 1, fun _ => hrun⟩

/-- The shell exits on a clean line just when it is one with `exit`. -/
theorem runPieces_exits_iff (h : Sentence line ∨ ∀ p ∈ piecesOf line, Silent p) :
    (runPieces (piecesOf line)).2 = true ↔ ExitLine line := by
  by_cases hsentence : Sentence line
  · rcases sentence_iff.mp hsentence with ⟨pos, hreads, -⟩
    rw [piecesOf_sentence hsentence]
    exact (runPieces_singleton hreads).2
  · have hsilent := h.resolve_left hsentence
    have hnil := (runPieces_eq_nil fun p hp => piecesOf_readable hp).mpr hsilent
    rw [runPieces_snd_of_nil hnil]
    refine ⟨fun h => absurd h (by simp), fun hexit => absurd ?_ hsentence⟩
    rcases hexit with rfl | ⟨s, rfl⟩
    · exact .exit
    · exact .exitArg s

theorem executionsIn_map (es : List Execution) (n : ℕ) :
    executionsIn (es.map fun e => (n, e)) n = es.map fun e => (n, e) := by
  refine List.filter_eq_self.mpr fun x hx => ?_
  rcases List.mem_map.mp hx with ⟨e, -, rfl⟩
  simp

theorem executionsIn_map_of_ne (es : List Execution) {n m : ℕ} (h : n ≠ m) :
    executionsIn (es.map fun e => (n, e)) m = [] := by
  refine List.filter_eq_nil_iff.mpr fun x hx => ?_
  rcases List.mem_map.mp hx with ⟨e, -, rfl⟩
  simpa using h

theorem executionsIn_append (log log' : List (ℕ × Execution)) (n : ℕ) :
    executionsIn (log ++ log') n = executionsIn log n ++ executionsIn log' n :=
  List.filter_append _ _

/-- Later lines have larger numbers. -/
theorem executionsIn_logOf_of_lt {lines : List (List Token)} {tail : List Token} {n m : ℕ}
    (h : m < n) : executionsIn (logOf n lines tail) m = [] := by
  induction lines generalizing n with
  | nil => exact executionsIn_map_of_ne _ (by omega)
  | cons line lines ih =>
    rw [logOf, executionsIn_append, executionsIn_map_of_ne _ (by omega), List.nil_append]
    split
    · rfl
    · exact ih (by omega)

/-- The first line of the input. -/
theorem executionsIn_logOf_self (line : List Token) (lines : List (List Token))
    (tail : List Token) (n : ℕ) :
    executionsIn (logOf n (line :: lines) tail) n =
      (runPieces (piecesOf line)).1.map fun e => (n, e) := by
  rw [logOf, executionsIn_append, executionsIn_map]
  have hrest : executionsIn (if (runPieces (piecesOf line)).2 then []
      else logOf (n + 1) lines tail) n = [] := by
    split
    · rfl
    · exact executionsIn_logOf_of_lt (Nat.lt_succ_self n)
  rw [hrest, List.append_nil]

/-- The other lines. -/
theorem executionsIn_logOf_of_gt (line : List Token) (lines : List (List Token))
    (tail : List Token) {n m : ℕ} (h : n < m) :
    executionsIn (logOf n (line :: lines) tail) m =
      if (runPieces (piecesOf line)).2 then [] else executionsIn (logOf (n + 1) lines tail) m := by
  rw [logOf, executionsIn_append, executionsIn_map_of_ne _ (by omega), List.nil_append]
  split <;> rfl

theorem clean_nil_iff (tail : List Token) (n : ℕ) :
    Clean n [] tail (logOf n [] tail) ↔ ∀ p ∈ (piecesOf tail).dropLast, Silent p := by
  have hnil : (runPieces (piecesOf tail).dropLast).1 = [] ↔
      ∀ p ∈ (piecesOf tail).dropLast, Silent p :=
    runPieces_eq_nil fun p hp => piecesOf_readable (List.mem_of_mem_dropLast hp)
  have hlog : executionsIn (logOf n [] tail) n =
      (runPieces (piecesOf tail).dropLast).1.map fun e => (n, e) := executionsIn_map _ n
  constructor
  · intro hclean
    by_cases hsentence : Sentence tail
    · rw [piecesOf_sentence hsentence]
      exact fun p hp => absurd hp (by simp)
    · have hnone := (hclean 0 tail rfl).2 hsentence
      rw [Nat.add_zero, hlog, List.map_eq_nil_iff] at hnone
      exact hnil.mp hnone
  · intro hsilent i line hline
    -- the tail is the only line, and runs nothing
    have hnone := hnil.mpr hsilent
    cases i with
    | zero =>
      rw [Nat.add_zero, hlog, hnone]
      exact ⟨Nat.zero_le 1, fun _ => rfl⟩
    | succ => exact absurd hline (by simp)

theorem clean_cons_iff (line : List Token) (lines : List (List Token)) (tail : List Token) (n : ℕ) :
    Clean n (line :: lines) tail (logOf n (line :: lines) tail) ↔
    ((runPieces (piecesOf line)).1.length ≤ 1 ∧
      (¬ Sentence line → (runPieces (piecesOf line)).1 = [])) ∧
    ((runPieces (piecesOf line)).2 = true ∨
      Clean (n + 1) lines tail (logOf (n + 1) lines tail)) := by
  have hself := executionsIn_logOf_self line lines tail n
  -- after an exit no line is executed
  have hnext : ∀ i, executionsIn (logOf n (line :: lines) tail) (n + (i + 1)) =
      if (runPieces (piecesOf line)).2 then []
      else executionsIn (logOf (n + 1) lines tail) (n + 1 + i) := by
    intro i
    rw [executionsIn_logOf_of_gt line lines tail (by omega), Nat.add_right_comm n 1 i]
    rfl
  constructor
  · intro hclean
    refine ⟨?_, ?_⟩
    · have hfirst := hclean 0 line rfl
      rw [Nat.add_zero, hself, List.length_map, List.map_eq_nil_iff] at hfirst
      exact hfirst
    · by_cases hexit : (runPieces (piecesOf line)).2 = true
      · exact .inl hexit
      · refine .inr fun i l hl => ?_
        have hrest := hclean (i + 1) l hl
        rw [hnext, if_neg hexit] at hrest
        exact hrest
  · rintro ⟨hfirst, hrest⟩ i l hl
    cases i with
    | zero =>
      rcases Option.some.inj hl with rfl
      rw [Nat.add_zero, hself, List.length_map, List.map_eq_nil_iff]
      exact hfirst
    | succ i =>
      rw [hnext]
      rcases hrest with hexit | hclean
      · rw [if_pos hexit]
        exact ⟨Nat.zero_le 1, fun _ => rfl⟩
      · split
        · exact ⟨Nat.zero_le 1, fun _ => rfl⟩
        · exact hclean i l hl

theorem logOf_clean_iff (lines : List (List Token)) (tail : List Token) (n : ℕ) :
    Clean n lines tail (logOf n lines tail) ↔ Harmless lines tail := by
  induction lines generalizing n with
  | nil => exact clean_nil_iff tail n
  | cons line lines ih =>
    rw [clean_cons_iff, runPieces_clean_iff, ih, Harmless]
    exact and_congr_right fun hline => or_congr (runPieces_exits_iff hline) Iff.rfl

/-- `main` runs at most one thing a line, and nothing for lines that are not sentences, just
for the harmless inputs. -/
theorem clean_iff (lines : List (List Token)) (tail : List Token) :
    ∃ log, (∃ k, ∀ fuel, k ≤ fuel →
      run mainStep fuel ⟨0, inputOf lines tail, []⟩ = some log) ∧
      (Clean 0 lines tail log ↔ Harmless lines tail) := by
  rcases main_runs lines tail 0 with ⟨k, hk⟩
  refine ⟨logOf 0 lines tail, ⟨k, fun fuel hfuel => ?_⟩, logOf_clean_iff lines tail 0⟩
  rw [hk [] fuel hfuel, List.nil_append]

/-- `echo a | | b` is no sentence, and runs `echo a` and then `b`. -/
theorem double_pipe_runs :
    ¬ Sentence [.string "echo", .string "a", .pipe, .pipe, .string "b"] ∧
    run mainStep 4 ⟨0, inputOf [[.string "echo", .string "a", .pipe, .pipe, .string "b"]] [],
      []⟩ = some [(0, .pipeline ⟨⟨["echo", "a"], none, none⟩, [], false⟩),
        (0, .pipeline ⟨⟨["b"], none, none⟩, [], false⟩)] ∧
    ¬ Clean 0 [[.string "echo", .string "a", .pipe, .pipe, .string "b"]] []
      [(0, .pipeline ⟨⟨["echo", "a"], none, none⟩, [], false⟩),
        (0, .pipeline ⟨⟨["b"], none, none⟩, [], false⟩)] := by
  refine ⟨?_, by decide +kernel, ?_⟩
  · intro h
    rcases sentence_iff.mp h with ⟨pos, hreads, -⟩
    exact absurd hreads (by simp [reads, advance])
  · intro hclean
    exact absurd (hclean 0 _ rfl).1 (by decide)

end SysProg.Shell
