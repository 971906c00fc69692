import SysProg.Shell.Actions
import SysProg.Shell.Structs

/-!
# Parsing what was written

A pipeline is written as its commands with pipes between them. Parsing builds it again.

* `Command.tokens`, `render` — how a pipeline is written;
* `Written` — the globals hold some complete commands;
* `written_simple`, `written_pipeline` — one command, and all of them;
* `parse_render_iff` — the structs that the parser leaves.
-/

namespace SysProg.Shell

open LinkedCells Recognizer

/-! ## Writing -/

/-- A redirection, if there is one. -/
def redirTokens (operator : Token) : Option String → List Token
  | none => []
  | some file => [operator, .string file]

/-- The arguments of a command and its redirections. -/
def Command.tokens (c : Command) : List Token :=
  c.argv.map .string ++ redirTokens .inputRedir c.inputRedir ++
    redirTokens .outputRedir c.outputRedir

/-- A pipeline as it is written. -/
def render (cs : List Command) (background : Bool) : List Token :=
  [.pipe].intercalate (cs.map Command.tokens) ++ if background then [.background] else []

/-! ## One command -/

/-- The globals hold these commands and nothing else, and none of them is current. -/
structure Written (g : Globals) (cs : List Command) : Prop where
  commands : g.commands = cs
  current : g.current = false
  builtin : g.currentBuiltin = none

/-- A command has been begun behind these commands. -/
structure Begun (g : Globals) (cs : List Command) (argv : List String) : Prop where
  earlier : g.earlier = cs
  last : g.last = ⟨argv, none, none⟩
  current : g.current = true
  builtin : g.currentBuiltin = none

variable {g : Globals} {cs : List Command} {c : Command} {argv : List String} {pos pos' : Position}
  {ts : List Token}

/-- Actions of tokens that can be read one after the other. -/
theorem build_append (h : reads advance pos ts = some pos') (us : List Token) (g : Globals) :
    build pos (ts ++ us) g = build pos' us (build pos ts g) := by
  induction ts generalizing pos g with
  | nil =>
    rcases Option.some.inj h with rfl
    rfl
  | cons t ts ih =>
    rw [reads, Option.bind_eq_some_iff] at h
    rcases h with ⟨pos₁, hadvance, hreads⟩
    simp only [List.cons_append, build, hadvance]
    exact ih hreads _

/-- More arguments. -/
theorem Begun.words (h : Begun g cs argv) (ss : List String) :
    reads advance .command (ss.map .string) = some .command ∧
      Begun (build .command (ss.map .string) g) cs (argv ++ ss) := by
  induction ss generalizing g argv with
  | nil => exact ⟨rfl, by simpa [build] using h⟩
  | cons s ss ih =>
    have hstep : Begun (g.appendArgv s) cs (argv ++ [s]) := by
      refine ⟨?_, ?_, current_appendArgv g s, ?_⟩ <;>
        simp [Globals.appendArgv, h.current, h.earlier, h.last, h.builtin]
    rcases ih hstep with ⟨hreads, hbegun⟩
    rw [List.append_assoc] at hbegun
    exact ⟨hreads, hbegun⟩

/-- The redirections, and the reductions that complete the command. -/
theorem Begun.redirs (h : Begun g cs c.argv) :
    ∃ pos, pos.complete ∧
      reads advance .command (redirTokens .inputRedir c.inputRedir ++
        redirTokens .outputRedir c.outputRedir) = some pos ∧
      Written (reducePipeline pos (build .command (redirTokens .inputRedir c.inputRedir ++
        redirTokens .outputRedir c.outputRedir) g)) (cs ++ [c]) := by
  rcases c with ⟨argv, output, input⟩
  -- an output redirection completes the command, without one it is reduced at the end
  cases input <;> cases output
  on_goal 1 => refine ⟨.command, .inl rfl, rfl, ?_, rfl, h.builtin⟩
  on_goal 2 => refine ⟨.pipeline, .inr (.inr rfl), rfl, ?_, rfl, h.builtin⟩
  on_goal 3 => refine ⟨.input, .inr (.inl rfl), rfl, ?_, rfl, h.builtin⟩
  on_goal 4 => refine ⟨.pipeline, .inr (.inr rfl), rfl, ?_, rfl, h.builtin⟩
  all_goals
    simp [redirTokens, build, advance, act, reducePipeline, Globals.commands,
      Globals.setInputRedir, Globals.setOutputRedir, Globals.endSimple, h.earlier, h.last]

/-- A command from its first word on. -/
theorem written_simple {s : String} {ss : List String} (hargv : c.argv = s :: ss)
    (hadvance : advance pos (.string s) = some .command)
    (hfirst : Begun (act pos (.string s) g) cs [s]) :
    ∃ pos', pos'.complete ∧ reads advance pos c.tokens = some pos' ∧
      Written (reducePipeline pos' (build pos c.tokens g)) (cs ++ [c]) := by
  rcases hfirst.words ss with ⟨hwords, hbegun⟩
  have hargv' : [s] ++ ss = c.argv := hargv.symm
  rw [hargv'] at hbegun
  rcases hbegun.redirs with ⟨pos', hcomplete, hreads, hwritten⟩
  have htokens : c.tokens = .string s :: (ss.map .string ++
      (redirTokens .inputRedir c.inputRedir ++ redirTokens .outputRedir c.outputRedir)) := by
    simp [Command.tokens, hargv]
  refine ⟨pos', hcomplete, ?_, ?_⟩
  · rw [htokens, reads, hadvance, Option.bind_some, reads_append, hwords, Option.bind_some, hreads]
  · rw [htokens, build]
    simp only [hadvance]
    rw [build_append hwords]
    exact hwritten

theorem written_first (hargv : c.argv ≠ []) :
    ∃ pos, pos.complete ∧ reads advance .start c.tokens = some pos ∧
      Written (reducePipeline pos (build .start c.tokens .cleared)) [c] := by
  rcases List.exists_cons_of_ne_nil hargv with ⟨s, ss, hargv⟩
  have hbegun : Begun (act .start (.string s) .cleared) [] [s] := ⟨rfl, rfl, rfl, rfl⟩
  exact written_simple hargv rfl hbegun

theorem Written.next (h : Written g cs) (hargv : c.argv ≠ []) :
    ∃ pos, pos.complete ∧ reads advance .pipe c.tokens = some pos ∧
      Written (reducePipeline pos (build .pipe c.tokens g)) (cs ++ [c]) := by
  rcases List.exists_cons_of_ne_nil hargv with ⟨s, ss, hargv⟩
  refine written_simple hargv rfl ?_
  have hact : act .pipe (.string s) g = { g with
      earlier := g.earlier ++ [g.last], last := ⟨[s], none, none⟩, current := true } := by
    simp [act, Globals.appendArgv, h.current]
  rw [hact]
  exact ⟨h.commands, rfl, rfl, h.builtin⟩

/-! ## All commands -/

/-- More commands, each behind a pipe. -/
theorem Written.more (hpos : pos.complete) (h : Written (reducePipeline pos g) cs)
    {more : List Command} (hmore : ∀ c ∈ more, c.argv ≠ []) :
    ∃ pos', pos'.complete ∧
      reads advance pos (more.flatMap fun c => .pipe :: c.tokens) = some pos' ∧
      Written (reducePipeline pos' (build pos (more.flatMap fun c => .pipe :: c.tokens) g))
        (cs ++ more) := by
  induction more generalizing pos g cs with
  | nil => exact ⟨pos, hpos, rfl, by simpa [build] using h⟩
  | cons c more ih =>
    rw [List.forall_mem_cons] at hmore
    have hpipe := hpos.pipe
    have hact : act pos .pipe g = reducePipeline pos g := by
      rcases hpos with rfl | rfl | rfl <;> rfl
    rcases h.next hmore.1 with ⟨pos₁, hpos₁, hreads₁, hwritten₁⟩
    rcases ih hpos₁ hwritten₁ hmore.2 with ⟨pos', hpos', hreads, hwritten⟩
    refine ⟨pos', hpos', ?_, ?_⟩
    · rw [List.flatMap_cons, List.cons_append, reads, hpipe, Option.bind_some, reads_append, hreads₁,
        Option.bind_some, hreads]
    · rw [List.flatMap_cons, List.cons_append, build]
      simp only [hpipe]
      rw [build_append hreads₁, hact]
      rw [List.append_assoc] at hwritten
      exact hwritten

theorem intercalate_cons (c : Command) (cs : List Command) :
    [Token.pipe].intercalate ((c :: cs).map Command.tokens) =
      c.tokens ++ cs.flatMap fun c => .pipe :: c.tokens := by
  induction cs generalizing c with
  | nil => simp [List.intercalate]
  | cons d cs ih =>
    rw [List.flatMap_cons, List.cons_append, ← ih d]
    simp [List.intercalate]

/-- All commands of a pipeline. -/
theorem written_pipeline (hcs : cs ≠ []) (hargv : ∀ c ∈ cs, c.argv ≠ []) :
    ∃ pos, pos.complete ∧
      reads advance .start ([Token.pipe].intercalate (cs.map Command.tokens)) = some pos ∧
      Written (reducePipeline pos
        (build .start ([Token.pipe].intercalate (cs.map Command.tokens)) .cleared)) cs := by
  rcases List.exists_cons_of_ne_nil hcs with ⟨c, more, rfl⟩
  rw [List.forall_mem_cons] at hargv
  rcases written_first hargv.1 with ⟨pos₁, hpos₁, hreads₁, hwritten₁⟩
  rcases hwritten₁.more hpos₁ hargv.2 with ⟨pos, hpos, hreads, hwritten⟩
  refine ⟨pos, hpos, ?_, ?_⟩
  · rw [intercalate_cons, reads_append, hreads₁, Option.bind_some, hreads]
  · rw [intercalate_cons, build_append hreads₁]
    exact hwritten

/-- `yyparse` on a pipeline up to the end of the line or of the input. -/
theorem yyparse_render (hcs : cs ≠ []) (hargv : ∀ c ∈ cs, c.argv ≠ []) (background : Bool)
    {rest : List (Option Token)} (hrest : rest = [] ∨ ∃ more, rest = none :: more) :
    (yyparse .start .cleared ((render cs background).map some ++ rest)).result = 0 ∧
    Written (yyparse .start .cleared ((render cs background).map some ++ rest)).globals cs ∧
    (yyparse .start .cleared ((render cs background).map some ++ rest)).globals.background =
      background := by
  rcases written_pipeline hcs hargv with ⟨pos, hpos, hreads, hwritten⟩
  cases background with
  | false =>
    -- the end of the input reduces the pipeline
    have hend : reductions pos (build .start
        ([Token.pipe].intercalate (cs.map Command.tokens)) .cleared) =
        (reducePipeline pos (build .start
          ([Token.pipe].intercalate (cs.map Command.tokens)) .cleared)).setBackground false := by
      rcases hpos with rfl | rfl | rfl <;> rfl
    have haccepting : pos.accepting = true := by
      rcases hpos with rfl | rfl | rfl <;> rfl
    have hparse := yyparse_reads hreads .cleared rest
    simp only [render, Bool.false_eq_true, if_false, List.append_nil]
    rw [hparse]
    rcases hrest with rfl | ⟨more, rfl⟩
    · simp only [yyparse, haccepting, if_true, hend]
      exact ⟨trivial, ⟨hwritten.commands, hwritten.current, hwritten.builtin⟩, rfl⟩
    · simp only [yyparse, haccepting, if_true, hend]
      exact ⟨trivial, ⟨hwritten.commands, hwritten.current, hwritten.builtin⟩, rfl⟩
  | true =>
    -- the ampersand does, and the end of the input has nothing left to reduce
    have hact : act pos .background (build .start
        ([Token.pipe].intercalate (cs.map Command.tokens)) .cleared) =
        (reducePipeline pos (build .start
          ([Token.pipe].intercalate (cs.map Command.tokens)) .cleared)).setBackground true := by
      rcases hpos with rfl | rfl | rfl <;> rfl
    have hreads' : reads advance .start (render cs true) = some .done :=
      reads_concat.mpr ⟨pos, hreads, hpos.background⟩
    have hparse := yyparse_reads hreads' .cleared rest
    have hbuild : build .start (render cs true) .cleared =
        (reducePipeline pos (build .start
          ([Token.pipe].intercalate (cs.map Command.tokens)) .cleared)).setBackground true := by
      rw [← hact]
      exact build_concat hreads hpos.background .cleared
    rw [hparse, hbuild]
    rcases hrest with rfl | ⟨more, rfl⟩
    · exact ⟨rfl, ⟨hwritten.commands, hwritten.current, hwritten.builtin⟩, rfl⟩
    · exact ⟨rfl, ⟨hwritten.commands, hwritten.current, hwritten.builtin⟩, rfl⟩

/-! ## The structs -/

/-- Parsing a pipeline that was written leaves a chain of structs from `first_command` on, one
for each command, that hold these commands, just when no command has eight arguments or more. -/
theorem parse_render_iff (hcs : cs ≠ []) (hargv : ∀ c ∈ cs, c.argv ≠ []) (background : Bool)
    {rest : List (Option Token)} (hrest : rest = [] ∨ ∃ more, rest = none :: more) :
    (∃ st path, parse .start .cleared ((render cs background).map some ++ rest) = some (0, st) ∧
      LinkedCells.Chain st.commands firstCommand path ∧ path.length = cs.length ∧
      List.Forall₂ Holds (values st.commands path) cs ∧
      st.background = background ∧ st.currentBuiltin = none) ↔
    ∀ c ∈ cs, c.argv.length < 8 := by
  rcases yyparse_render hcs hargv background hrest with ⟨hresult, hwritten, hbackground⟩
  have hpos : InCommand .start .cleared := fun _ => rfl
  have hover : Overfull (yyparse .start .cleared
      ((render cs background).map some ++ rest)).globals ↔ ¬ ∀ c ∈ cs, c.argv.length < 8 := by
    rw [Overfull, hwritten.commands]
    push Not
    rfl
  rcases parse_agrees cleared_agrees hpos ((render cs background).map some ++ rest) with
    ⟨st, pre, x, hparse, hagrees⟩ | ⟨hnone, hfull⟩
  · rw [hresult] at hparse
    rcases hagrees.chain.last with ⟨-, d, hd, -⟩
    have hstored : List.Forall₂ Stored (values st.commands (pre ++ [x])) cs := by
      rw [values_append, values_cons hd, values_nil, ← hwritten.commands, Globals.commands]
      exact List.rel_append hagrees.earlier (.cons (hagrees.last d hd) .nil)
    refine iff_of_true ⟨st, pre ++ [x], hparse, hagrees.chain, ?_, hstored.imp fun _ _ h => h.toHolds,
      hagrees.background.trans hbackground, hagrees.currentBuiltin.trans hwritten.builtin⟩ ?_
    · rw [← hagrees.chain.length_values, hstored.length_eq]
    · exact not_not.mp fun hfew => hagrees.not_overfull (hover.mpr hfew)
  · -- the eighth argument of a command ends it
    refine iff_of_false ?_ (hover.mp hfull)
    rintro ⟨st, path, hparse, -⟩
    rw [hnone] at hparse
    cases hparse

/-- `ls -la | wc -l > /tmp/lines &` -/
theorem parse_render_lines :
    render [⟨["ls", "-la"], none, none⟩, ⟨["wc", "-l"], some "/tmp/lines", none⟩] true =
      [.string "ls", .string "-la", .pipe, .string "wc", .string "-l", .outputRedir,
        .string "/tmp/lines", .background] ∧
    ∃ st path, parse .start .cleared
        ((render [⟨["ls", "-la"], none, none⟩, ⟨["wc", "-l"], some "/tmp/lines", none⟩] true).map
          some ++ [none]) = some (0, st) ∧
      LinkedCells.Chain st.commands firstCommand path ∧ path.length = 2 ∧
      List.Forall₂ Holds (values st.commands path)
        [⟨["ls", "-la"], none, none⟩, ⟨["wc", "-l"], some "/tmp/lines", none⟩] ∧
      st.background = true ∧ st.currentBuiltin = none := by
  refine ⟨by decide +kernel, ?_⟩
  exact (parse_render_iff (by simp) (by simp) true (.inr ⟨[], rfl⟩)).mpr (by simp)

/-- `a b c d e f g h`: the null behind the eighth argument is written outside of the array. -/
theorem parse_eight_words :
    render [⟨["a", "b", "c", "d", "e", "f", "g", "h"], none, none⟩] false =
      [.string "a", .string "b", .string "c", .string "d", .string "e", .string "f", .string "g",
        .string "h"] ∧
    parse .start .cleared
      ((render [⟨["a", "b", "c", "d", "e", "f", "g", "h"], none, none⟩] false).map some ++ [none]) =
        none :=
  ⟨by decide +kernel, rfl⟩

end SysProg.Shell
