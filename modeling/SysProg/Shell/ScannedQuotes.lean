import SysProg.Shell.Scanner

/-!
# Quoted arguments

* `Arg`, `line` — arguments in quotes, joined by single spaces;
* `texts` — the texts of the tokens that they become: neighbours in single quotes are one;
* `yylex_line` — what the scanner returns for them;
* `quoted_iff` — it returns one token for each argument, with its text, if and only if no two
  neighbours are in single quotes. The class between the quotes leaves out only the double
  quote, for both kinds of quotes, so that the longest match goes over single quotes.
-/

namespace SysProg.Shell

inductive Quote where
  | single
  | double
deriving DecidableEq, Repr

def Quote.char : Quote → Char
  | .single => singleQuote
  | .double => doubleQuote

/-- An argument and the quotes that it is written in. -/
structure Arg where
  quote : Quote
  text : List Char
  nonempty : text ≠ []
  noSingle : singleQuote ∉ text
  noDouble : doubleQuote ∉ text
  noNewline : '\n' ∉ text

def Arg.quoted (a : Arg) : List Char :=
  a.quote.char :: (a.text ++ [a.quote.char])

/-- The arguments with a single space between them. -/
def line : List Arg → List Char
  | [] => []
  | [a] => a.quoted
  | a :: b :: args => a.quoted ++ ' ' :: line (b :: args)

/-- Both are in single quotes. -/
def BothSingle (a b : Arg) : Prop :=
  a.quote = .single ∧ b.quote = .single

instance (a b : Arg) : Decidable (BothSingle a b) :=
  inferInstanceAs (Decidable (_ ∧ _))

/-- The texts of the tokens. A text in single quotes goes on over the quotes up to the next
argument in double quotes. -/
def texts : List Arg → List (List Char)
  | [] => []
  | [a] => [a.text]
  | a :: b :: args =>
    match decide (BothSingle a b), texts (b :: args) with
    | true, t :: ts => (a.text ++ [singleQuote, ' ', singleQuote] ++ t) :: ts
    | _, ts => a.text :: ts

/-! ## One token -/

/-- What follows a token: the rest of the arguments, after a space. -/
def afterToken : List Arg → List Char
  | [] => []
  | a :: args => ' ' :: line (a :: args)

theorem line_cons (a : Arg) (args : List Arg) : line (a :: args) = a.quoted ++ afterToken args := by
  cases args with
  | nil => simp [line, afterToken]
  | cons => rfl

theorem Quote.cases (q : Quote) : q.char = singleQuote ∨ q.char = doubleQuote := by
  cases q with
  | single => exact .inl rfl
  | double => exact .inr rfl

theorem line_head (a : Arg) (args : List Arg) : (line (a :: args)).head? = some a.quote.char := by
  rw [line_cons]
  rfl

/-- The space between two arguments is passed over. -/
theorem yylex_afterToken (args : List Arg) : yylex (afterToken args) = yylex (line args) := by
  cases args with
  | nil => rfl
  | cons a args =>
    apply yylex_other
    · constructor
      · decide
      · decide
      · decide
      · decide
      · decide
    · rw [line_head]
      rcases a.quote.cases with h | h
      · rw [h]
        decide
      · rw [h]
        decide

/-- The first token of a line: its text `body`, and the arguments `args'` after it. -/
structure FirstToken (a : Arg) (args args' : List Arg) (body : List Char) : Prop where
  texts_eq : texts (a :: args) = body :: texts args'
  line_eq : line (a :: args) = a.quote.char :: (body ++ a.quote.char :: afterToken args')
  nonempty : body ≠ []
  noDouble : doubleQuote ∉ body
  shorter : args'.length ≤ args.length
  stops : a.quote = .single → ∀ b ∈ args'.head?, b.quote = .double

/-- An argument that is not merged with the next one. -/
theorem firstToken_self (a : Arg) (args : List Arg) (h : ∀ b ∈ args.head?, ¬ BothSingle a b) :
    FirstToken a args args a.text := by
  refine ⟨?_, ?_, a.nonempty, a.noDouble, le_refl _, ?_⟩
  · cases args with
    | nil => rfl
    | cons b args =>
      rw [texts, decide_eq_false (h b rfl)]
  · rw [line_cons, Arg.quoted]
    simp
  · intro ha b hb
    rcases hq : b.quote with _ | _
    · exact absurd ⟨ha, hq⟩ (h b hb)
    · rfl

theorem exists_firstToken (a : Arg) (args : List Arg) :
    ∃ args' body, FirstToken a args args' body := by
  induction args generalizing a with
  | nil =>
    refine ⟨[], a.text, firstToken_self a [] ?_⟩
    intro b hb
    cases hb
  | cons b args ih =>
    by_cases hboth : BothSingle a b
    · -- the token goes on over the next argument
      rcases ih b with ⟨args', body, h⟩
      have hquote : a.quote.char = singleQuote := by
        rw [hboth.1]
        rfl
      have hquote' : b.quote.char = singleQuote := by
        rw [hboth.2]
        rfl
      refine ⟨args', a.text ++ [singleQuote, ' ', singleQuote] ++ body, ?_, ?_, ?_, ?_, ?_, ?_⟩
      · rw [texts, decide_eq_true hboth, h.texts_eq]
      · rw [line_cons, Arg.quoted, afterToken, h.line_eq, hquote, hquote']
        simp
      · simp
      · have hne : doubleQuote ≠ singleQuote := by decide
        have hspace : doubleQuote ≠ ' ' := by decide
        simp [a.noDouble, h.noDouble, hne, hspace]
      · exact h.shorter.trans (Nat.le_succ _)
      · intro _
        exact h.stops hboth.2
    · refine ⟨b :: args, a.text, firstToken_self a (b :: args) ?_⟩
      intro b' hb'
      rcases Option.some.inj hb' with rfl
      exact hboth

/-- The match cannot go on after the first token. -/
theorem FirstToken.ends {a : Arg} {args args' : List Arg} {body : List Char}
    (h : FirstToken a args args' body) (v w : List Char)
    (hrest : afterToken args' = v ++ a.quote.char :: w) :
    ∃ c ∈ a.quote.char :: v, isQuotedChar c = false := by
  rcases hq : a.quote with _ | _
  · -- after single quotes there is a space, and then a double quote
    rw [hq] at hrest
    cases args' with
    | nil => simp [afterToken] at hrest
    | cons b args' =>
      have hb : b.quote.char = doubleQuote := by
        rw [h.stops hq b rfl]
        rfl
      rw [afterToken, line_cons, Arg.quoted, hb] at hrest
      rcases v with _ | ⟨x, _ | ⟨y, v⟩⟩
      · exact absurd (List.cons.inj hrest).1 (by decide)
      · exact absurd (List.cons.inj (List.cons.inj hrest).2).1 (by decide)
      · have hy := (List.cons.inj (List.cons.inj hrest).2).1
        refine ⟨y, by simp, ?_⟩
        rw [← hy]
        decide
  · exact ⟨doubleQuote, List.mem_cons_self, by decide⟩

/-- The scanner returns one token for each of the texts. -/
theorem yylex_line (args : List Arg) :
    yylex (line args) = (texts args).map fun t => some (.string (cString t)) := by
  induction hn : args.length using Nat.strong_induction_on generalizing args with
  | _ n ih =>
    cases args with
    | nil => rfl
    | cons a args =>
      rcases exists_firstToken a args with ⟨args', body, h⟩
      have hbody : ∀ c ∈ body, isQuotedChar c = true := by
        intro c hc
        apply decide_eq_true
        rintro rfl
        exact h.noDouble hc
      -- a token takes at least one argument
      have hlt : args'.length < n := by
        have := h.shorter
        rw [List.length_cons] at hn
        omega
      rw [h.line_eq, yylex_quoted a.quote.cases h.nonempty hbody h.ends, yylex_afterToken,
        ih _ hlt args' rfl, h.texts_eq]
      rfl

/-! ## One token for each argument -/

/-- No two neighbours are in single quotes. -/
def Separated (args : List Arg) : Prop :=
  args.IsChain fun a b => ¬ BothSingle a b

theorem texts_of_separated {args : List Arg} (h : Separated args) : texts args = args.map Arg.text := by
  induction args with
  | nil => rfl
  | cons a args ih =>
    cases args with
    | nil => rfl
    | cons =>
      rcases List.isChain_cons_cons.mp h with ⟨hboth, hrest⟩
      rw [texts, decide_eq_false hboth, ih hrest]
      rfl

theorem texts_length_le (args : List Arg) : (texts args).length ≤ args.length := by
  induction args with
  | nil => exact le_refl _
  | cons a args ih =>
    cases args with
    | nil => exact le_refl _
    | cons =>
      rw [texts]
      split
      · next hts =>
        rw [hts] at ih
        exact Nat.le_succ_of_le ih
      · exact Nat.succ_le_succ ih

theorem texts_ne_nil (a : Arg) (args : List Arg) : texts (a :: args) ≠ [] := by
  rcases exists_firstToken a args with ⟨args', body, h⟩
  rw [h.texts_eq]
  exact List.cons_ne_nil _ _

/-- Neighbours in single quotes become one token. -/
theorem texts_length_lt {args : List Arg} (h : ¬ Separated args) :
    (texts args).length < args.length := by
  induction args with
  | nil => exact absurd .nil h
  | cons a args ih =>
    cases args with
    | nil => exact absurd (.singleton a) h
    | cons b args =>
      rcases List.exists_cons_of_ne_nil (texts_ne_nil b args) with ⟨t, ts, hts⟩
      have hle := texts_length_le (b :: args)
      by_cases hboth : BothSingle a b
      · rw [texts, decide_eq_true hboth, hts]
        rw [hts] at hle
        exact Nat.lt_succ_of_le hle
      · have hrest : ¬ Separated (b :: args) := by
          intro hrest
          exact h (List.isChain_cons_cons.mpr ⟨hboth, hrest⟩)
        rw [texts, decide_eq_false hboth]
        exact Nat.succ_lt_succ (ih hrest)

theorem cString_eq_iff (text : List Char) : cString text = String.ofList text ↔ '\x00' ∉ text := by
  constructor
  · intro h hmem
    have hlist := congrArg String.toList h
    simp only [cString, String.toList_ofList] at hlist
    have hne := List.takeWhile_eq_self_iff.mp hlist '\x00' hmem
    exact of_decide_eq_true hne rfl
  · exact cString_of_not_mem

/-- The tokens of the arguments. -/
def argTokens (args : List Arg) : List (Option Token) :=
  args.map fun a => some (.string (String.ofList a.text))

/-- The scanner returns one token for each argument, with its text, if and only if no two
neighbours are in single quotes and every text is a C string. -/
theorem quoted_iff (args : List Arg) :
    yylex (line args) = argTokens args ↔ Separated args ∧ ∀ a ∈ args, '\x00' ∉ a.text := by
  rw [yylex_line]
  constructor
  · intro h
    -- two neighbours in single quotes give one token less
    have hs : Separated args := by
      by_contra hs
      have hlt := texts_length_lt hs
      have hlength := congrArg List.length h
      simp only [argTokens, List.length_map] at hlength
      omega
    refine ⟨hs, ?_⟩
    rw [texts_of_separated hs, argTokens, List.map_map] at h
    intro a ha
    have htoken := List.map_inj_left.mp h a ha
    simp only [Function.comp_apply, Option.some.injEq, Token.string.injEq] at htoken
    exact (cString_eq_iff a.text).mp htoken
  · rintro ⟨hs, hnul⟩
    rw [texts_of_separated hs, argTokens, List.map_map]
    apply List.map_congr_left
    intro a ha
    simp only [Function.comp_apply, cString_of_not_mem (hnul a ha)]

/-- The letter `c` in quotes. -/
def letter (quote : Quote) (c : Char) (h : c ≠ singleQuote ∧ c ≠ doubleQuote ∧ c ≠ '\n') : Arg where
  quote := quote
  text := [c]
  nonempty := List.cons_ne_nil c []
  noSingle := by simpa using h.1.symm
  noDouble := by simpa using h.2.1.symm
  noNewline := by simpa using h.2.2.symm

/-- With double quotes between them, arguments in single quotes are kept apart. -/
theorem quoted_mixed :
    yylex (line [letter .single 'a' (by decide), letter .double 'b' (by decide),
      letter .single 'c' (by decide)]) = [some (.string "a"), some (.string "b"), some (.string "c")] := by
  apply (quoted_iff _).mpr
  constructor
  · simp [Separated, BothSingle, letter]
  · simp [letter]

/-- Two arguments in single quotes are one token, with the quotes between them in its text. -/
theorem quotes_merged :
    yylex (line [letter .single 'a' (by decide), letter .single 'b' (by decide)]) =
        [some (.string (String.ofList ['a', singleQuote, ' ', singleQuote, 'b']))] ∧
      yylex (line [letter .single 'a' (by decide), letter .single 'b' (by decide)]) ≠
        argTokens [letter .single 'a' (by decide), letter .single 'b' (by decide)] := by
  decide +kernel

end SysProg.Shell
