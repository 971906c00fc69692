import SysProg.Shell.Main

/-!
# What the parser leaves to run

The globals after some tokens, for every position of the parser. A piece of a line runs
something unless it is empty, a lone `kill`, or a pipeline in which an output redirection
is followed by another command.

* `build` — the globals after some tokens;
* `Ambiguous`, `Silent` — the pieces that run nothing;
* `Built` — what the globals hold at each position;
* `pieceExecution_runs` — a piece runs nothing just when it is silent.
-/

namespace SysProg.Shell

open Recognizer

variable {ts : List Token} {pos : Position} {g : Globals} {t : Token}

/-! ## Actions of several tokens -/

/-- The globals after the actions of some tokens. -/
def build : Position → List Token → Globals → Globals
  | _, [], g => g
  | pos, t :: ts, g =>
    match advance pos t with
    | some pos' => build pos' ts (act pos t g)
    | none => g

theorem build_concat {pos pos₁ pos' : Position}
    (h : reads advance pos ts = some pos₁) (ht : advance pos₁ t = some pos') (g : Globals) :
    build pos (ts ++ [t]) g = act pos₁ t (build pos ts g) := by
  induction ts generalizing pos g with
  | nil =>
    rcases Option.some.inj h with rfl
    simp [build, ht]
  | cons t' ts ih =>
    rw [reads, Option.bind_eq_some_iff] at h
    rcases h with ⟨pos₂, hadvance, hreads⟩
    simp only [List.cons_append, build, hadvance]
    exact ih hreads _

theorem yyparse_reads {pos pos' : Position}
    (h : reads advance pos ts = some pos') (g : Globals) (rest : List (Option Token)) :
    yyparse pos g (ts.map some ++ rest) = yyparse pos' (build pos ts g) rest := by
  induction ts generalizing pos g with
  | nil =>
    rcases Option.some.inj h with rfl
    rfl
  | cons t ts ih =>
    rw [reads, Option.bind_eq_some_iff] at h
    rcases h with ⟨pos₁, hadvance, hreads⟩
    simp only [List.map_cons, List.cons_append, yyparse, build, hadvance]
    exact ih hreads _

/-- What `main` runs when `yyparse` stops behind these tokens. -/
def pieceExecution (ts : List Token) : Option Execution :=
  (reads advance .start ts).bind fun pos => execute (reductions pos (build .start ts .cleared))

/-! ## Silent pieces -/

/-- An output redirection is followed by another command. -/
def Ambiguous (ts : List Token) : Prop :=
  ∃ a b, [.outputRedir, .string a, .pipe, .string b] <:+: ts

/-- The pieces that run nothing. -/
def Silent (ts : List Token) : Prop :=
  ts = [] ∨ ts = [.kill] ∨ Ambiguous ts

theorem Ambiguous.length {ts : List Token} (h : Ambiguous ts) : 4 ≤ ts.length := by
  rcases h with ⟨a, b, hinfix⟩
  exact hinfix.length_le

/-- Only the first word behind a pipe makes a pipeline ambiguous. -/
theorem ambiguous_concat :
    Ambiguous (ts ++ [t]) ↔ Ambiguous ts ∨
      ∃ us a b, ts = us ++ [.outputRedir, .string a, .pipe] ∧ t = .string b := by
  constructor
  · rintro ⟨a, b, hinfix⟩
    rcases List.infix_concat_iff.mp hinfix with hsuffix | hinfix
    · rcases hsuffix with ⟨us, hus⟩
      have hsplit : us ++ [.outputRedir, .string a, .pipe] ++ [.string b] = ts ++ [t] := by
        rw [← hus, List.append_assoc]
        rfl
      rcases List.append_inj' hsplit rfl with ⟨hts, ht⟩
      exact .inr ⟨us, a, b, hts.symm, (List.singleton_inj.mp ht).symm⟩
    · exact .inl ⟨a, b, hinfix⟩
  · rintro (⟨a, b, hinfix⟩ | ⟨us, a, b, rfl, rfl⟩)
    · exact ⟨a, b, hinfix.trans (List.prefix_append _ _).isInfix⟩
    · refine ⟨a, b, us, [], ?_⟩
      simp

/-- A token other than the first word behind a pipe. -/
theorem ambiguous_concat_of_ne
    (h : reads advance .start ts = some pos) (hpos : pos ≠ .pipe ∨ ∀ s, t ≠ .string s) :
    Ambiguous (ts ++ [t]) ↔ Ambiguous ts := by
  rw [ambiguous_concat]
  refine ⟨fun hor => hor.resolve_right ?_, .inl⟩
  rintro ⟨us, a, b, rfl, rfl⟩
  rcases hpos with hpos | hpos
  · -- behind a pipe the parser is at `pipe`
    have hassoc : us ++ [.outputRedir, .string a, .pipe] =
        (us ++ [.outputRedir, .string a]) ++ [.pipe] := by simp
    rw [hassoc] at h
    rcases reads_concat.mp h with ⟨pos₁, -, hadvance⟩
    cases pos₁ <;> cases hadvance <;> exact hpos rfl
  · exact hpos b rfl

/-- `> file` is what brings the parser to `pipeline`. -/
theorem reads_pipeline_iff (h : reads advance .start ts = some pos) :
    pos = .pipeline ↔ ∃ us a, ts = us ++ [.outputRedir, .string a] := by
  constructor
  · rintro rfl
    rcases List.eq_nil_or_concat ts with rfl | ⟨ts₁, t₁, rfl⟩
    · exact absurd h (by simp [reads])
    · rw [List.concat_eq_append] at h
      rcases reads_concat.mp h with ⟨pos₁, h₁, hadvance₁⟩
      cases pos₁ <;> cases t₁ <;> cases hadvance₁
      rename_i a
      -- one token before, it was at `outputRedir`
      rcases List.eq_nil_or_concat ts₁ with rfl | ⟨ts₂, t₂, rfl⟩
      · exact absurd h₁ (by simp [reads])
      · rw [List.concat_eq_append] at h₁
        rcases reads_concat.mp h₁ with ⟨pos₂, -, hadvance₂⟩
        cases pos₂ <;> cases t₂ <;> cases hadvance₂ <;>
          exact ⟨ts₂, a, by simp⟩
  · rintro ⟨us, a, rfl⟩
    have hassoc : us ++ [.outputRedir, .string a] = (us ++ [.outputRedir]) ++ [.string a] := by
      simp
    rw [hassoc] at h
    rcases reads_concat.mp h with ⟨pos₁, h₁, hadvance₁⟩
    rcases reads_concat.mp h₁ with ⟨pos₂, -, hadvance₂⟩
    cases pos₂ <;> cases hadvance₂ <;> cases hadvance₁ <;> rfl

/-! ## The globals at each position -/

/-- A pipeline is being built: it has words, and an earlier command is redirected just when
the tokens are ambiguous. -/
structure PipelineBuilt (ts : List Token) (g : Globals) : Prop where
  builtin : g.currentBuiltin = none
  words : ∀ c, g.commands.head? = some c → c.argv ≠ []
  ambiguous : (∃ c ∈ g.earlier, c.outputRedir ≠ none) ↔ Ambiguous ts

/-- What the globals hold at each position. -/
def Built : Position → List Token → Globals → Prop
  | .start, ts, g => ts = [] ∧ g = .cleared
  | .exit, ts, g => ts = [.exit] ∧ g = .cleared
  | .wait, ts, g => ts = [.wait] ∧ g = .cleared
  | .kill, ts, g => ts = [.kill] ∧ g = .cleared
  | .done, ts, g =>
    (∃ s, ts = [.exit, .string s] ∧ g.currentBuiltin = some .exit) ∨
    (∃ s, ts = [.wait, .string s] ∧ g.currentBuiltin = some .wait) ∨
    (∃ s, ts = [.kill, .string s] ∧ g.currentBuiltin = some .kill) ∨
    PipelineBuilt ts g
  | .pipeline, ts, g => PipelineBuilt ts g ∧ g.current = false ∧ g.last.outputRedir ≠ none
  | .pipe, ts, g => PipelineBuilt ts g ∧ g.current = false ∧
    (g.last.outputRedir ≠ none ↔ ∃ us a, ts = us ++ [.outputRedir, .string a, .pipe])
  | .command, ts, g | .inputRedir, ts, g | .input, ts, g | .outputRedir, ts, g =>
    PipelineBuilt ts g ∧ g.current = true ∧ g.last.outputRedir = none

/-- Actions that only change the last command, and leave it its words. -/
theorem PipelineBuilt.concat {g g' : Globals}
    (h : PipelineBuilt ts g) (hreads : reads advance .start ts = some pos)
    (hpos : pos ≠ .pipe ∨ ∀ s, t ≠ .string s) (hbuiltin : g'.currentBuiltin = g.currentBuiltin)
    (hearlier : g'.earlier = g.earlier) (hargv : g.last.argv <+: g'.last.argv) :
    PipelineBuilt (ts ++ [t]) g' := by
  refine ⟨hbuiltin.trans h.builtin, ?_, ?_⟩
  · intro c hc
    have hwords := h.words
    unfold Globals.commands at hc hwords
    rw [hearlier] at hc
    cases hlist : g.earlier with
    | nil =>
      rw [hlist] at hc hwords
      rcases Option.some.inj hc with rfl
      intro hnil
      rw [hnil, List.prefix_nil] at hargv
      exact hwords g.last rfl hargv
    | cons =>
      rw [hlist] at hc hwords
      exact hwords c hc
  · rw [hearlier, ambiguous_concat_of_ne hreads hpos]
    exact h.ambiguous

/-- The first word of a pipeline. -/
theorem built_first (s : String) : Built .command [.string s] (Globals.cleared.appendArgv s) := by
  refine ⟨⟨rfl, ?_, ?_⟩, rfl, rfl⟩
  · intro c hc
    rcases Option.some.inj hc with rfl
    exact List.cons_ne_nil _ _
  · refine ⟨?_, fun h => absurd h.length (by simp)⟩
    rintro ⟨c, hc, -⟩
    exact absurd hc (List.not_mem_nil)

/-- The first word behind a pipe. -/
theorem built_next (h : Built .pipe ts g) (s : String) :
    Built .command (ts ++ [.string s]) (g.appendArgv s) := by
  rcases h with ⟨hbuilt, hcurrent, hlast⟩
  have hnew : g.appendArgv s = { g with
      earlier := g.earlier ++ [g.last], last := ⟨[s], none, none⟩, current := true } := by
    simp [Globals.appendArgv, hcurrent]
  rw [hnew]
  refine ⟨⟨hbuilt.builtin, ?_, ?_⟩, rfl, rfl⟩
  · intro c hc
    refine hbuilt.words c ?_
    simp only [Globals.commands, List.append_assoc] at hc ⊢
    cases hlist : g.earlier with
    | nil | cons =>
      rw [hlist] at hc
      exact hc
  · -- the command before the pipe joins the earlier ones
    simp only [List.mem_append, List.mem_singleton, or_and_right, exists_or, exists_eq_left]
    rw [ambiguous_concat, hbuilt.ambiguous, hlast]
    constructor
    · rintro (h | ⟨us, a, rfl⟩)
      · exact .inl h
      · exact .inr ⟨us, a, s, rfl, rfl⟩
    · rintro (h | ⟨us, a, b, rfl, -⟩)
      · exact .inl h
      · exact .inr ⟨us, a, rfl⟩

/-- A pipe behind a command without output redirection. -/
theorem built_pipe {g g' : Globals}
    (hbuilt : PipelineBuilt ts g) (hreads : reads advance .start ts = some pos)
    (hpos : pos ≠ .pipeline) (hbuiltin : g'.currentBuiltin = g.currentBuiltin)
    (hearlier : g'.earlier = g.earlier) (hargv : g'.last.argv = g.last.argv)
    (hcurrent : g'.current = false) (hlast : g'.last.outputRedir = none) :
    Built .pipe (ts ++ [.pipe]) g' := by
  refine ⟨hbuilt.concat hreads (.inr (by simp)) hbuiltin hearlier (hargv ▸ List.prefix_rfl),
    hcurrent, ?_⟩
  refine ⟨fun h => absurd hlast h, ?_⟩
  rintro ⟨us, a, hsplit⟩
  have hts : us ++ [.outputRedir, .string a] ++ [.pipe] = ts ++ [.pipe] := by
    rw [hsplit, List.append_assoc]
    rfl
  have heq := List.append_cancel_right hts
  exact absurd ((reads_pipeline_iff hreads).mpr ⟨us, a, heq.symm⟩) hpos

/-- One token: the cases follow the arms of `advance` and `act`. -/
theorem act_built {pos pos' : Position}
    (h : Built pos ts g) (hreads : reads advance .start ts = some pos)
    (hadvance : advance pos t = some pos') : Built pos' (ts ++ [t]) (act pos t g) := by
  cases pos <;> cases t <;> cases hadvance
  case start.exit | start.wait | start.kill =>
    rcases h with ⟨rfl, rfl⟩
    exact ⟨rfl, rfl⟩
  case start.string s =>
    rcases h with ⟨rfl, rfl⟩
    exact built_first s
  case exit.string s =>
    rcases h with ⟨rfl, rfl⟩
    exact .inl ⟨s, rfl, rfl⟩
  case wait.string s =>
    rcases h with ⟨rfl, rfl⟩
    exact .inr (.inl ⟨s, rfl, rfl⟩)
  case kill.string s =>
    rcases h with ⟨rfl, rfl⟩
    exact .inr (.inr (.inl ⟨s, rfl, rfl⟩))
  -- one more argument of the current command
  case command.string s =>
    rcases h with ⟨hbuilt, hcurrent, hlast⟩
    have hnew : g.appendArgv s =
        { g with last := { g.last with argv := g.last.argv ++ [s] } } := by
      simp [Globals.appendArgv, hcurrent]
    show Built .command _ (g.appendArgv s)
    rw [hnew]
    exact ⟨hbuilt.concat hreads (.inl (by decide)) rfl rfl (List.prefix_append _ _), hcurrent,
      hlast⟩
  -- a redirection leaves the words alone
  case command.inputRedir | input.outputRedir | command.outputRedir | inputRedir.string s =>
    rcases h with ⟨hbuilt, hcurrent, hlast⟩
    exact ⟨hbuilt.concat hreads (.inl (by decide)) rfl rfl List.prefix_rfl, hcurrent, hlast⟩
  case outputRedir.string s =>
    rcases h with ⟨hbuilt, hcurrent, hlast⟩
    exact ⟨hbuilt.concat hreads (.inl (by decide)) rfl rfl List.prefix_rfl, rfl,
      Option.some_ne_none s⟩
  case command.pipe | input.pipe =>
    exact built_pipe h.1 hreads (by decide) rfl rfl rfl rfl rfl
  -- after an output redirection the command is complete before the bar
  case pipeline.pipe =>
    rcases h with ⟨hbuilt, hcurrent, hlast⟩
    refine ⟨hbuilt.concat hreads (.inl (by decide)) rfl rfl List.prefix_rfl, hcurrent, ?_⟩
    refine ⟨fun _ => ?_, fun _ => hlast⟩
    rcases (reads_pipeline_iff hreads).mp rfl with ⟨us, a, rfl⟩
    exact ⟨us, a, by simp⟩
  case command.background | input.background | pipeline.background =>
    exact .inr (.inr (.inr
      (h.1.concat hreads (.inl (by decide)) rfl rfl List.prefix_rfl)))
  case pipe.string s => exact built_next h s

theorem reads_built
    (h : reads advance .start ts = some pos) : Built pos ts (build .start ts .cleared) := by
  induction ts using List.reverseRecOn generalizing pos with
  | nil =>
    rcases Option.some.inj h with rfl
    exact ⟨rfl, rfl⟩
  | append_singleton ts t ih =>
    rcases reads_concat.mp h with ⟨pos₁, hreads, hadvance⟩
    rw [build_concat hreads hadvance]
    exact act_built (ih hreads) hreads hadvance

/-! ## What is run -/

theorem commands_pipeline (g : Globals) : g.pipeline.commands = g.commands := by
  unfold Globals.pipeline Globals.commands Pipeline.commands
  cases g.earlier <;> rfl

theorem checkConsistency_concat (cs : List Command) (last : Command) :
    checkConsistency (cs ++ [last]) = true ↔ ∀ c ∈ cs, c.outputRedir = none := by
  induction cs with
  | nil => simp [checkConsistency]
  | cons c cs ih =>
    have hcons : checkConsistency (c :: (cs ++ [last])) =
        (c.outputRedir.isNone && checkConsistency (cs ++ [last])) := by
      cases cs <;> rfl
    rw [List.cons_append, hcons, Bool.and_eq_true, ih, Option.isNone_iff_eq_none,
      List.forall_mem_cons]

/-- Reductions do not touch what matters for running a pipeline. -/
theorem PipelineBuilt.reduced (h : PipelineBuilt ts g) (hexit : pos ≠ .exit) (hwait : pos ≠ .wait) :
    PipelineBuilt ts (reductions pos g) := by
  -- the commands before the last one, and its words
  have hkeep : ∀ g' : Globals, g'.currentBuiltin = g.currentBuiltin → g'.earlier = g.earlier →
      g'.last.argv = g.last.argv → PipelineBuilt ts g' := by
    intro g' hbuiltin hearlier hargv
    refine ⟨hbuiltin.trans h.builtin, ?_, hearlier ▸ h.ambiguous⟩
    intro c hc
    have hwords := h.words
    unfold Globals.commands at hc hwords
    rw [hearlier] at hc
    cases hlist : g.earlier with
    | nil =>
      rw [hlist] at hc hwords
      rcases Option.some.inj hc with rfl
      exact hargv ▸ hwords g.last rfl
    | cons =>
      rw [hlist] at hc hwords
      exact hwords c hc
  cases pos with
  | exit => exact absurd rfl hexit
  | wait => exact absurd rfl hwait
  | start | kill | done | command | inputRedir | input | outputRedir | pipeline | pipe =>
    exact hkeep _ rfl rfl rfl

theorem PipelineBuilt.checkConsistency
    (h : PipelineBuilt ts g) : checkConsistency g.pipeline.commands = true ↔ ¬ Ambiguous ts := by
  rw [commands_pipeline, Globals.commands, checkConsistency_concat, ← h.ambiguous]
  simp

/-- An ambiguous pipeline is not run. -/
theorem PipelineBuilt.execute_of_ambiguous
    (h : PipelineBuilt ts g) (hambiguous : Ambiguous ts) : execute g = none := by
  unfold execute
  simp only [h.builtin]
  exact if_neg fun hand => h.checkConsistency.mp hand.1 hambiguous

/-- All others are. -/
theorem PipelineBuilt.execute_of_not_ambiguous (h : PipelineBuilt ts g) (hnot : ¬ Ambiguous ts) :
    execute g = some (.pipeline g.pipeline) := by
  have hwords : g.pipeline.firstCommand.argv ≠ [] := by
    refine h.words _ ?_
    rw [← commands_pipeline]
    rfl
  unfold execute
  simp only [h.builtin]
  exact if_pos ⟨h.checkConsistency.mpr hnot, hwords⟩

/-- The lines on which the shell exits. -/
def ExitLine (ts : List Token) : Prop :=
  ts = [.exit] ∨ ∃ s, ts = [.exit, .string s]

/-- What a piece runs: nothing if it is silent, `exit` if it is an exit line, and otherwise
something from which the shell returns. -/
inductive Runs (ts : List Token) : Option Execution → Prop where
  | silent (hsilent : Silent ts) (hnot : ¬ ExitLine ts) : Runs ts none
  | exits {e : Execution} (hnot : ¬ Silent ts) (hexit : ExitLine ts) (he : e.isExit = true) :
      Runs ts (some e)
  | returns {e : Execution} (hnot : ¬ Silent ts) (hnot' : ¬ ExitLine ts)
      (he : e.isExit = false) : Runs ts (some e)

/-- The tokens of a pipeline are not those of a builtin. -/
theorem PipelineBuilt.runs {pos : Position} {ts : List Token}
    (h : PipelineBuilt ts (build .start ts .cleared)) (hexit : pos ≠ .exit) (hwait : pos ≠ .wait) :
    Runs ts (execute (reductions pos (build .start ts .cleared))) := by
  have hnil : ts ≠ [] := by
    rintro rfl
    exact h.words _ rfl rfl
  have hkill : ts ≠ [.kill] := by
    rintro rfl
    exact h.words _ rfl rfl
  have hline : ¬ ExitLine ts := by
    rintro (rfl | ⟨s, rfl⟩)
    · exact h.words _ rfl rfl
    · exact absurd h.builtin (Option.some_ne_none _)
  have hred := h.reduced hexit hwait
  by_cases hambiguous : Ambiguous ts
  · rw [hred.execute_of_ambiguous hambiguous]
    exact .silent (.inr (.inr hambiguous)) hline
  · rw [hred.execute_of_not_ambiguous hambiguous]
    refine .returns ?_ hline rfl
    rintro (hsilent | hsilent | hsilent)
    · exact hnil hsilent
    · exact hkill hsilent
    · exact hambiguous hsilent

/-- A line that is too short to be ambiguous. -/
theorem not_silent_of_short (hlen : ts.length < 4) (hnil : ts ≠ [])
    (hkill : ts ≠ [.kill]) : ¬ Silent ts := by
  rintro (hsilent | hsilent | hsilent)
  · exact hnil hsilent
  · exact hkill hsilent
  · exact absurd hsilent.length (Nat.not_le.mpr hlen)

theorem pieceExecution_runs (h : reads advance .start ts = some pos) : Runs ts (pieceExecution ts) := by
  have hbuilt := reads_built h
  rw [pieceExecution, h, Option.bind_some]
  cases pos with
  | start =>
    rcases hbuilt with ⟨rfl, -⟩
    exact .silent (.inl rfl) (by simp [ExitLine])
  | kill =>
    rcases hbuilt with ⟨rfl, -⟩
    exact .silent (.inr (.inl rfl)) (by simp [ExitLine])
  | exit =>
    rcases hbuilt with ⟨rfl, -⟩
    exact .exits (not_silent_of_short (by decide) (by decide) (by decide)) (.inl rfl) rfl
  | wait =>
    rcases hbuilt with ⟨rfl, -⟩
    exact .returns (not_silent_of_short (by decide) (by decide) (by decide))
      (by simp [ExitLine]) rfl
  -- a builtin with its argument, or a pipeline in the background
  | done =>
    rcases hbuilt with ⟨s, rfl, -⟩ | ⟨s, rfl, -⟩ | ⟨s, rfl, -⟩ | hbuilt
    · exact .exits (not_silent_of_short (by simp) (by simp) (by simp)) (.inr ⟨s, rfl⟩) rfl
    · exact .returns (not_silent_of_short (by simp) (by simp) (by simp)) (by simp [ExitLine]) rfl
    · exact .returns (not_silent_of_short (by simp) (by simp) (by simp)) (by simp [ExitLine]) rfl
    · exact hbuilt.runs (by decide) (by decide)
  | command | inputRedir | input | outputRedir | pipeline | pipe =>
    exact hbuilt.1.runs (by decide) (by decide)

end SysProg.Shell
