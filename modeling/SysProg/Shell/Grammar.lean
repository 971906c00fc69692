import SysProg.Lib.Recognizer

/-!
# The grammar of command lines, `task3-processes/parse.y`

* `Sentence` — the grammar, one constructor for each rule;
* `Position`, `advance` — the states of an LALR parser for it and the tokens it shifts;
* `sentence_iff` — what the parser accepts are the sentences;
* `viable_iff` — it goes on as long as some sentence begins like its input.

The parser generated by bison takes the default reduction of a state whatever the next
token is, so a state from which only reductions lead is not a position of its own.
-/

namespace SysProg.Shell

open Recognizer

variable {ts : List Token}

/-- The tokens of `parse.y`; the end of a line is not among them. -/
inductive Token where
  | exit
  | wait
  | kill
  | pipe
  | inputRedir
  | outputRedir
  | string (s : String)
  | background
deriving DecidableEq, Repr

/-! ## Grammar -/

/-- `command` -/
inductive IsCommand : List Token → Prop where
  | string (s : String) : IsCommand [.string s]
  | append {ts : List Token} (h : IsCommand ts) (s : String) : IsCommand (ts ++ [.string s])

/-- `input_redir` -/
inductive IsInputRedir : List Token → Prop where
  | file (s : String) : IsInputRedir [.inputRedir, .string s]
  | empty : IsInputRedir []

/-- `output_redir` -/
inductive IsOutputRedir : List Token → Prop where
  | file (s : String) : IsOutputRedir [.outputRedir, .string s]
  | empty : IsOutputRedir []

/-- `redir` -/
inductive IsRedir : List Token → Prop where
  | mk {is os : List Token} (hin : IsInputRedir is) (hout : IsOutputRedir os) :
      IsRedir (is ++ os)

/-- `simple` -/
inductive IsSimple : List Token → Prop where
  | mk {cs rs : List Token} (hcommand : IsCommand cs) (hredir : IsRedir rs) : IsSimple (cs ++ rs)

/-- `pipeline` -/
inductive IsPipeline : List Token → Prop where
  | pipe {ps ss : List Token} (hpipeline : IsPipeline ps) (hsimple : IsSimple ss) :
      IsPipeline (ps ++ .pipe :: ss)
  | simple {ss : List Token} (hsimple : IsSimple ss) : IsPipeline ss

/-- `background` -/
inductive IsBackground : List Token → Prop where
  | background : IsBackground [.background]
  | empty : IsBackground []

/-- `cmd_line` -/
inductive Sentence : List Token → Prop where
  | empty : Sentence []
  | exit : Sentence [.exit]
  | exitArg (s : String) : Sentence [.exit, .string s]
  | wait : Sentence [.wait]
  | waitArg (s : String) : Sentence [.wait, .string s]
  | killArg (s : String) : Sentence [.kill, .string s]
  | pipeline {ps bs : List Token} (hpipeline : IsPipeline ps) (hbackground : IsBackground bs) :
      Sentence (ps ++ bs)

/-! ## Parser -/

/-- Where the parser is: at the start, behind a builtin without its argument, behind a
complete line, behind the words of a command, `<`, `< file`, `>`, `> file`, or `|`. -/
inductive Position where
  | start
  | exit
  | wait
  | kill
  | done
  | command
  | inputRedir
  | input
  | outputRedir
  | pipeline
  | pipe
deriving DecidableEq, Repr

/-- The position behind a token that can be shifted. -/
def advance : Position → Token → Option Position
  | .start, .exit => some .exit
  | .start, .wait => some .wait
  | .start, .kill => some .kill
  | .exit, .string _ | .wait, .string _ | .kill, .string _ => some .done
  | .start, .string _ | .command, .string _ | .pipe, .string _ => some .command
  | .command, .inputRedir => some .inputRedir
  | .inputRedir, .string _ => some .input
  | .command, .outputRedir | .input, .outputRedir => some .outputRedir
  | .outputRedir, .string _ => some .pipeline
  | .command, .pipe | .input, .pipe | .pipeline, .pipe => some .pipe
  | .command, .background | .input, .background | .pipeline, .background => some .done
  | _, _ => none

/-- The line may end here. -/
def Position.accepting : Position → Bool
  | .start | .exit | .wait | .done | .command | .input | .pipeline => true
  | .kill | .inputRedir | .outputRedir | .pipe => false

/-! ## Sentences are accepted -/

/-- A pipeline may end here. -/
def Position.complete (pos : Position) : Prop :=
  pos = .command ∨ pos = .input ∨ pos = .pipeline

theorem IsCommand.reads {ts : List Token} (h : IsCommand ts) {pos : Position}
    (hpos : pos = .start ∨ pos = .pipe) : reads advance pos ts = some .command := by
  induction h with
  | string => rcases hpos with rfl | rfl <;> rfl
  | append _ s ih => exact reads_concat.mpr ⟨.command, ih, rfl⟩

theorem IsRedir.reads {ts : List Token} (h : IsRedir ts) :
    ∃ pos, pos.complete ∧ reads advance .command ts = some pos := by
  rcases h with ⟨hin, hout⟩
  cases hin <;> cases hout
  · exact ⟨.pipeline, .inr (.inr rfl), rfl⟩
  · exact ⟨.input, .inr (.inl rfl), rfl⟩
  · exact ⟨.pipeline, .inr (.inr rfl), rfl⟩
  · exact ⟨.command, .inl rfl, rfl⟩

theorem IsSimple.reads {ts : List Token} (h : IsSimple ts) {pos : Position}
    (hpos : pos = .start ∨ pos = .pipe) :
    ∃ pos', pos'.complete ∧ Recognizer.reads advance pos ts = some pos' := by
  rcases h with ⟨hcommand, hredir⟩
  rcases hredir.reads with ⟨pos', hcomplete, hreads⟩
  refine ⟨pos', hcomplete, ?_⟩
  rw [reads_append, hcommand.reads hpos, Option.bind_some, hreads]

theorem Position.complete.pipe {pos : Position} (h : pos.complete) :
    advance pos .pipe = some .pipe := by
  rcases h with rfl | rfl | rfl <;> rfl

theorem Position.complete.background {pos : Position} (h : pos.complete) :
    advance pos .background = some .done := by
  rcases h with rfl | rfl | rfl <;> rfl

theorem IsPipeline.reads {ts : List Token} (h : IsPipeline ts) :
    ∃ pos, pos.complete ∧ Recognizer.reads advance .start ts = some pos := by
  induction h with
  | @pipe ps ss _ hsimple ih =>
    rcases ih with ⟨pos, hcomplete, hreads⟩
    rcases hsimple.reads (.inr rfl) with ⟨pos', hcomplete', hreads'⟩
    refine ⟨pos', hcomplete', ?_⟩
    rw [reads_append, hreads, Option.bind_some, Recognizer.reads, hcomplete.pipe,
      Option.bind_some, hreads']
  | simple hsimple => exact hsimple.reads (.inl rfl)

theorem Sentence.reads {ts : List Token} (h : Sentence ts) :
    ∃ pos, pos.accepting = true ∧ Recognizer.reads advance .start ts = some pos := by
  cases h with
  | empty => exact ⟨.start, rfl, rfl⟩
  | exit => exact ⟨.exit, rfl, rfl⟩
  | exitArg => exact ⟨.done, rfl, rfl⟩
  | wait => exact ⟨.wait, rfl, rfl⟩
  | waitArg | killArg => exact ⟨.done, rfl, rfl⟩
  | pipeline hpipeline hbackground =>
    rcases hpipeline.reads with ⟨pos, hcomplete, hreads⟩
    cases hbackground with
    | background => exact ⟨.done, rfl, reads_concat.mpr ⟨pos, hreads, hcomplete.background⟩⟩
    | empty =>
      rw [List.append_nil]
      refine ⟨pos, ?_, hreads⟩
      rcases hcomplete with rfl | rfl | rfl <;> rfl

/-! ## What is accepted is a sentence -/

/-- The beginning of a line up to the last command. -/
def IsOpening (ts : List Token) : Prop :=
  ts = [] ∨ ∃ ps, IsPipeline ps ∧ ts = ps ++ [.pipe]

/-- What the parser has read at each position. -/
def Shape : Position → List Token → Prop
  | .start, ts => ts = []
  | .exit, ts => ts = [.exit]
  | .wait, ts => ts = [.wait]
  | .kill, ts => ts = [.kill]
  | .done, ts => (∃ b s, (b = .exit ∨ b = .wait ∨ b = .kill) ∧ ts = [b, .string s]) ∨
      ∃ ps, IsPipeline ps ∧ ts = ps ++ [.background]
  | .command, ts => ∃ os cs, IsOpening os ∧ IsCommand cs ∧ ts = os ++ cs
  | .inputRedir, ts => ∃ os cs, IsOpening os ∧ IsCommand cs ∧ ts = os ++ cs ++ [.inputRedir]
  | .input, ts => ∃ os cs s, IsOpening os ∧ IsCommand cs ∧
      ts = os ++ cs ++ [.inputRedir, .string s]
  | .outputRedir, ts => ∃ os cs is, IsOpening os ∧ IsCommand cs ∧ IsInputRedir is ∧
      ts = os ++ cs ++ is ++ [.outputRedir]
  | .pipeline, ts => IsPipeline ts
  | .pipe, ts => ∃ ps, IsPipeline ps ∧ ts = ps ++ [.pipe]

theorem IsOpening.append {os ss : List Token} (h : IsOpening os) (hsimple : IsSimple ss) :
    IsPipeline (os ++ ss) := by
  rcases h with rfl | ⟨ps, hpipeline, rfl⟩
  · exact .simple hsimple
  · rw [List.append_assoc]
    exact .pipe hpipeline hsimple

/-- Where a pipeline may end, one has been read. -/
theorem Shape.isPipeline {pos : Position} (h : Shape pos ts)
    (hcomplete : pos.complete) : IsPipeline ts := by
  rcases hcomplete with rfl | rfl | rfl
  · rcases h with ⟨os, cs, hopening, hcommand, rfl⟩
    have hsimple := IsSimple.mk hcommand (.mk .empty .empty)
    rw [List.append_nil, List.append_nil] at hsimple
    exact hopening.append hsimple
  · rcases h with ⟨os, cs, s, hopening, hcommand, rfl⟩
    have hsimple := IsSimple.mk hcommand (.mk (.file s) .empty)
    rw [List.append_nil] at hsimple
    rw [List.append_assoc]
    exact hopening.append hsimple
  · exact h

/-- The lines that consist of a builtin and its argument. -/
theorem shape_builtin {b : Token} (hb : b = .exit ∨ b = .wait ∨ b = .kill) (s : String) :
    Shape .done ([b] ++ [.string s]) :=
  .inl ⟨b, s, hb, rfl⟩

theorem shape_word {os : List Token} (h : IsOpening os) (s : String) :
    Shape .command (os ++ [.string s]) :=
  ⟨os, [.string s], h, .string s, rfl⟩

/-- One token: the cases follow the arms of `advance`. -/
theorem advance_shape {pos pos' : Position} {t : Token} (h : Shape pos ts)
    (hadvance : advance pos t = some pos') : Shape pos' (ts ++ [t]) := by
  have hpipe : pos.complete → Shape .pipe (ts ++ [.pipe]) := fun hcomplete =>
    ⟨ts, h.isPipeline hcomplete, rfl⟩
  have hbackground : pos.complete → Shape .done (ts ++ [.background]) := fun hcomplete =>
    .inr ⟨ts, h.isPipeline hcomplete, rfl⟩
  cases pos <;> cases t <;> cases hadvance
  case start.exit | start.wait | start.kill => rw [show ts = [] from h]; rfl
  case start.string s => exact shape_word (.inl h) s
  case exit.string s =>
    rw [show ts = [.exit] from h]
    exact shape_builtin (.inl rfl) s
  case wait.string s =>
    rw [show ts = [.wait] from h]
    exact shape_builtin (.inr (.inl rfl)) s
  case kill.string s =>
    rw [show ts = [.kill] from h]
    exact shape_builtin (.inr (.inr rfl)) s
  case command.pipe => exact hpipe (.inl rfl)
  case input.pipe => exact hpipe (.inr (.inl rfl))
  case pipeline.pipe => exact hpipe (.inr (.inr rfl))
  case command.background => exact hbackground (.inl rfl)
  case input.background => exact hbackground (.inr (.inl rfl))
  case pipeline.background => exact hbackground (.inr (.inr rfl))
  -- the words and redirections of one command
  case command.string s =>
    rcases h with ⟨os, cs, hopening, hcommand, rfl⟩
    exact ⟨os, cs ++ [.string s], hopening, hcommand.append s, List.append_assoc _ _ _⟩
  case command.inputRedir =>
    rcases h with ⟨os, cs, hopening, hcommand, rfl⟩
    exact ⟨os, cs, hopening, hcommand, rfl⟩
  case command.outputRedir =>
    rcases h with ⟨os, cs, hopening, hcommand, rfl⟩
    exact ⟨os, cs, [], hopening, hcommand, .empty, by rw [List.append_nil]⟩
  case inputRedir.string s =>
    rcases h with ⟨os, cs, hopening, hcommand, rfl⟩
    exact ⟨os, cs, s, hopening, hcommand, List.append_assoc _ _ _⟩
  case input.outputRedir =>
    rcases h with ⟨os, cs, s, hopening, hcommand, rfl⟩
    exact ⟨os, cs, _, hopening, hcommand, .file s, rfl⟩
  case outputRedir.string s =>
    rcases h with ⟨os, cs, is, hopening, hcommand, hin, rfl⟩
    have hsimple := IsSimple.mk hcommand (.mk hin (.file s))
    have hassoc : os ++ cs ++ is ++ [.outputRedir] ++ [.string s] =
        os ++ (cs ++ (is ++ [.outputRedir, .string s])) := by simp
    rw [hassoc]
    exact hopening.append hsimple
  case pipe.string s => exact shape_word (.inr h) s

theorem reads_shape {pos : Position} (h : reads advance .start ts = some pos) : Shape pos ts := by
  induction ts using List.reverseRecOn generalizing pos with
  | nil =>
    rcases Option.some.inj h with rfl
    rfl
  | append_singleton ts t ih =>
    rcases reads_concat.mp h with ⟨pos₁, hreads, hadvance⟩
    exact advance_shape (ih hreads) hadvance

theorem Shape.sentence {pos : Position} {ts : List Token} (h : Shape pos ts)
    (haccepting : pos.accepting = true) : Sentence ts := by
  have hpipeline : pos.complete → Sentence ts := fun hcomplete => by
    have hsentence := Sentence.pipeline (h.isPipeline hcomplete) .empty
    rwa [List.append_nil] at hsentence
  cases pos with
  | start => exact (show ts = [] from h) ▸ .empty
  | exit => exact (show ts = [.exit] from h) ▸ .exit
  | wait => exact (show ts = [.wait] from h) ▸ .wait
  | done =>
    rcases h with ⟨b, s, rfl | rfl | rfl, rfl⟩ | ⟨ps, hps, rfl⟩
    · exact .exitArg s
    · exact .waitArg s
    · exact .killArg s
    · exact .pipeline hps .background
  | command => exact hpipeline (.inl rfl)
  | input => exact hpipeline (.inr (.inl rfl))
  | pipeline => exact hpipeline (.inr (.inr rfl))
  | kill | inputRedir | outputRedir | pipe => exact absurd haccepting (by decide)

/-- The parser accepts the sentences of the grammar. -/
theorem sentence_iff {ts : List Token} :
    Sentence ts ↔ ∃ pos, reads advance .start ts = some pos ∧ pos.accepting = true := by
  constructor
  · intro h
    rcases h.reads with ⟨pos, haccepting, hreads⟩
    exact ⟨pos, hreads, haccepting⟩
  · rintro ⟨pos, hreads, haccepting⟩
    exact (reads_shape hreads).sentence haccepting

/-- From every position some tokens, or none, lead to the end of a line. -/
theorem exists_accepting (pos : Position) :
    ∃ ts pos', reads advance pos ts = some pos' ∧ pos'.accepting = true := by
  cases pos with
  | start | exit | wait | done | command | input | pipeline => exact ⟨[], _, rfl, rfl⟩
  | kill | inputRedir | outputRedir | pipe => exact ⟨[.string ""], _, rfl, rfl⟩

/-- The parser has not stopped just when some sentence begins like what it has read. -/
theorem viable_iff {ts : List Token} :
    (∃ us, Sentence (ts ++ us)) ↔ ∃ pos, reads advance .start ts = some pos := by
  constructor
  · rintro ⟨us, hsentence⟩
    rcases sentence_iff.mp hsentence with ⟨pos, hreads, -⟩
    rcases reads_prefix hreads with ⟨pos₁, hprefix, -⟩
    exact ⟨pos₁, hprefix⟩
  · rintro ⟨pos, hreads⟩
    rcases exists_accepting pos with ⟨us, pos', hreads', haccepting⟩
    refine ⟨us, sentence_iff.mpr ⟨pos', ?_, haccepting⟩⟩
    rw [reads_append, hreads, Option.bind_some, hreads']

end SysProg.Shell
