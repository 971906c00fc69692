import SysProg.Lib.Lexer
import SysProg.Shell.Grammar

/-!
# The scanner, `task3-processes/scan.l`

* `rules` — the rules in their order; flex takes the longest match, the first rule of several,
  and passes over a character that no rule matches;
* `yylex` — the values that the scanner returns for an input, one call after the other;
* `Kind` — the rules before the last are keywords, single characters, words and quoted strings;
* `BeginsWith.yylex_word`, `yylex_operator`, `yylex_newline`, `yylex_other`, `yylex_semicolon`,
  `yylex_quoted` — what it does with the beginning of an input.

The pattern of the last rule is `.;`: it matches a semicolon with the character before it.
-/

namespace SysProg.Shell

open Lexer

def singleQuote : Char := '\x27'
def doubleQuote : Char := '\x22'

/-- `CHAR` -/
def isChar (c : Char) : Bool :=
  ('0' ≤ c && c ≤ '9') || ('a' ≤ c && c ≤ 'z') || ('A' ≤ c && c ≤ 'Z') ||
    ['_', '/', '-', '*', '.', '='].contains c

/-- `QUOTED_CHAR` -/
def isQuotedChar (c : Char) : Bool :=
  c ≠ doubleQuote

/-- What a `char *` to these characters stands for. -/
def cString (text : List Char) : String :=
  String.ofList (text.takeWhile (· ≠ '\x00'))

/-- The string is `yytext + 1`, with 0 written over its character `yyleng - 2`. -/
def stripQuotes (yytext : List Char) : String :=
  cString ((yytext.drop 1).set (yytext.length - 2) '\x00')

/-! ## The rules -/

/-- `return token;` -/
def returns (pattern : Pattern Char) (token : Option Token) : Rule Char (Option Token) :=
  ⟨pattern, fun _ => some token⟩

def exitRule : Rule Char (Option Token) := returns (.word 'e' ['x', 'i', 't']) (some .exit)
def waitRule : Rule Char (Option Token) := returns (.word 'w' ['a', 'i', 't']) (some .wait)
def killRule : Rule Char (Option Token) := returns (.word 'k' ['i', 'l', 'l']) (some .kill)
def newlineRule : Rule Char (Option Token) := returns (.one (· = '\n')) none
def backgroundRule : Rule Char (Option Token) := returns (.one (· = '&')) (some .background)
def pipeRule : Rule Char (Option Token) := returns (.one (· = '|')) (some .pipe)
def outputRedirRule : Rule Char (Option Token) := returns (.one (· = '>')) (some .outputRedir)
def inputRedirRule : Rule Char (Option Token) := returns (.one (· = '<')) (some .inputRedir)

def wordRule : Rule Char (Option Token) :=
  ⟨.many isChar, fun yytext => some (some (.string (cString yytext)))⟩

def quotedRule (quote : Char) : Rule Char (Option Token) :=
  ⟨.seq (.one (· = quote)) (.seq (.many isQuotedChar) (.one (· = quote))),
    fun yytext => some (some (.string (stripQuotes yytext)))⟩

/-- The rule `.;` without an action. -/
def semicolonRule : Rule Char (Option Token) :=
  ⟨.seq (.one (· ≠ '\n')) (.one (· = ';')), fun _ => none⟩

def rules : List (Rule Char (Option Token)) :=
  [exitRule, waitRule, killRule, newlineRule, backgroundRule, pipeRule, outputRedirRule,
    inputRedirRule, wordRule, quotedRule singleQuote, quotedRule doubleQuote, semicolonRule]

/-- The values that the calls of `yylex` return, up to the end of the input; `none` is the 0
that is returned for a newline. -/
def yylex (input : List Char) : List (Option Token) :=
  scan rules input

/-! ## The text of a token -/

theorem cString_of_not_mem {text : List Char} (h : '\x00' ∉ text) : cString text = String.ofList text := by
  unfold cString
  rw [List.takeWhile_eq_self_iff.mpr]
  intro c hc
  apply decide_eq_true
  rintro rfl
  exact h hc

theorem stripQuotes_eq (quote : Char) (body : List Char) :
    stripQuotes (quote :: (body ++ [quote])) = cString body := by
  have hset : ((quote :: (body ++ [quote])).drop 1).set ((quote :: (body ++ [quote])).length - 2) '\x00' =
      body ++ ['\x00'] := by
    simp
  unfold stripQuotes
  rw [hset]
  unfold cString
  rw [List.takeWhile_append]
  split
  · next hlength =>
    have hall := (List.takeWhile_prefix (l := body) (fun x => decide (x ≠ '\x00'))).eq_of_length hlength
    rw [hall]
    simp
  · rfl

/-! ## One step -/

/-- The token of an operator. -/
def operator (c : Char) : Option Token :=
  if c = '&' then some .background
  else if c = '|' then some .pipe
  else if c = '>' then some .outputRedir
  else if c = '<' then some .inputRedir
  else none

/-- The token of a word. -/
def wordToken (word : List Char) : Token :=
  if word = ['e', 'x', 'i', 't'] then .exit
  else if word = ['w', 'a', 'i', 't'] then .wait
  else if word = ['k', 'i', 'l', 'l'] then .kill
  else .string (String.ofList word)

/-- The rule matches fewer than `n` characters. -/
def Shorter (n : ℕ) (input : List Char) (r : Rule Char (Option Token)) : Prop :=
  ∀ m, longest r.pattern input = some m → m < n

/-- The kinds of rules that stand before the last one. -/
inductive Kind : Rule Char (Option Token) → Prop where
  | keyword (k d : Char) (ks : List Char) (value : Option Token)
      (chars : ∀ c ∈ k :: d :: ks, isChar c = true) : Kind (returns (.word k (d :: ks)) value)
  | single (d : Char) (value : Option Token) (char : d = '\n' ∨ operator d ≠ none) :
      Kind (returns (.one (· = d)) value)
  | word : Kind wordRule
  | quoted (quote : Char) (char : quote = singleQuote ∨ quote = doubleQuote) :
      Kind (quotedRule quote)

section Steps

variable {c quote : Char} {word body rest : List Char} {n : ℕ} {r : Rule Char (Option Token)}
  {t : Token} {value : Option Token}

theorem kind_of_mem (hr : r ∈ rules.dropLast) : Kind r := by
  simp only [rules, List.dropLast_cons_cons, List.dropLast_singleton, List.mem_cons,
    List.not_mem_nil, or_false] at hr
  rcases hr with rfl | rfl | rfl | rfl | rfl | rfl | rfl | rfl | rfl | rfl | rfl
  · exact .keyword 'e' 'x' ['i', 't'] _ (List.all_eq_true.mp rfl)
  · exact .keyword 'w' 'a' ['i', 't'] _ (List.all_eq_true.mp rfl)
  · exact .keyword 'k' 'i' ['l', 'l'] _ (List.all_eq_true.mp rfl)
  · exact .single '\n' _ (.inl rfl)
  · exact .single '&' _ (.inr (by decide))
  · exact .single '|' _ (.inr (by decide))
  · exact .single '>' _ (.inr (by decide))
  · exact .single '<' _ (.inr (by decide))
  · exact .word
  · exact .quoted singleQuote (.inl rfl)
  · exact .quoted doubleQuote (.inr rfl)

theorem rules_eq : rules = rules.dropLast ++ [semicolonRule] := rfl

theorem kind_or_semicolon (hr : r ∈ rules) : Kind r ∨ r = semicolonRule := by
  rw [rules_eq] at hr
  rcases List.mem_append.mp hr with hr | hr
  · exact .inl (kind_of_mem hr)
  · exact .inr (List.mem_singleton.mp hr)

theorem shorter_of_not_starts (h : starts r.pattern c = false) : Shorter n (c :: rest) r := by
  intro m hm
  rw [longest_of_not_starts h] at hm
  cases hm

theorem Shorter.le (h : Shorter n rest r) : ∀ m, longest r.pattern rest = some m → m ≤ n := by
  intro m hm
  exact (h m hm).le

/-- The last rule matches two characters, the second of which is a semicolon. -/
theorem of_longest_semicolon {m : ℕ} (h : longest semicolonRule.pattern (c :: rest) = some m) :
    m = 2 ∧ c ≠ '\n' ∧ rest.head? = some ';' := by
  rcases of_longest_pair h with ⟨rfl, hc, d, hd, hsemicolon⟩
  rcases of_decide_eq_true hsemicolon with rfl
  exact ⟨rfl, of_decide_eq_true hc, hd⟩

/-- A rule is taken if no other rule but the last begins with this character, and the last
matches no more. -/
theorem best_of_starts (k : ℕ)
    (hrules : rules = rules.take k ++ r :: ((rules.drop (k + 1)).dropLast ++ [semicolonRule]))
    (hpre : ∀ r ∈ rules.take k, starts r.pattern c = false)
    (hpost : ∀ r ∈ (rules.drop (k + 1)).dropLast, starts r.pattern c = false)
    (hr : longest r.pattern (c :: rest) = some n)
    (hlast : ∀ m, longest semicolonRule.pattern (c :: rest) = some m → m ≤ n) :
    best rules (c :: rest) = some (n, r) := by
  rw [hrules]
  apply best_of_split hr
  · intro r' hr'
    exact shorter_of_not_starts (hpre r' hr')
  · intro r' hr'
    rcases List.mem_append.mp hr' with hr' | hr'
    · exact (shorter_of_not_starts (hpost r' hr')).le
    · rcases List.mem_singleton.mp hr' with rfl
      exact hlast

/-- A newline or an operator. -/
theorem yylex_one (k : ℕ)
    (hrules : rules = rules.take k ++
      returns (.one (· = c)) value :: ((rules.drop (k + 1)).dropLast ++ [semicolonRule]))
    (hpre : ∀ r ∈ rules.take k, starts r.pattern c = false)
    (hpost : ∀ r ∈ (rules.drop (k + 1)).dropLast, starts r.pattern c = false)
    (hrest : c = '\n' ∨ rest.head? ≠ some ';') : yylex (c :: rest) = value :: yylex rest := by
  have hlongest : longest (returns (.one (· = c)) value).pattern (c :: rest) = some 1 :=
    longest_one (decide_eq_true rfl)
  have hbest : best rules (c :: rest) = some (1, returns (.one (· = c)) value) := by
    apply best_of_starts k hrules hpre hpost hlongest
    intro m hm
    rcases of_longest_semicolon hm with ⟨-, hnl, hsemicolon⟩
    rcases hrest with hrest | hrest
    · exact absurd hrest hnl
    · exact absurd hsemicolon hrest
  unfold yylex
  rw [scan_of_best hbest]
  rfl

theorem yylex_newline (rest : List Char) : yylex ('\n' :: rest) = none :: yylex rest := by
  apply yylex_one 3 rfl
  · decide
  · decide
  · exact .inl rfl

theorem yylex_operator (h : operator c = some t) (hrest : rest.head? ≠ some ';') :
    yylex (c :: rest) = some t :: yylex rest := by
  unfold operator at h
  split_ifs at h with h₁ h₂ h₃ h₄
  · rcases Option.some.inj h with rfl
    rcases h₁ with rfl
    exact yylex_one 4 rfl (by decide) (by decide) (.inr hrest)
  · rcases Option.some.inj h with rfl
    rcases h₂ with rfl
    exact yylex_one 5 rfl (by decide) (by decide) (.inr hrest)
  · rcases Option.some.inj h with rfl
    rcases h₃ with rfl
    exact yylex_one 6 rfl (by decide) (by decide) (.inr hrest)
  · rcases Option.some.inj h with rfl
    rcases h₄ with rfl
    exact yylex_one 7 rfl (by decide) (by decide) (.inr hrest)

/-- No rule but the last begins with this character. -/
structure Plain (c : Char) : Prop where
  char : isChar c = false
  noOperator : operator c = none
  newline : c ≠ '\n'
  single : c ≠ singleQuote
  double : c ≠ doubleQuote

theorem ne_of_isChar {d : Char} (hc : isChar c = true) (hd : isChar d = false) : c ≠ d := by
  rintro rfl
  rw [hc] at hd
  cases hd

theorem operator_of_isChar (h : isChar c = true) : operator c = none := by
  unfold operator
  rw [if_neg (ne_of_isChar h (by decide)), if_neg (ne_of_isChar h (by decide)),
    if_neg (ne_of_isChar h (by decide)), if_neg (ne_of_isChar h (by decide))]

theorem not_isChar_single (hc : c = '\n' ∨ operator c ≠ none) : isChar c = false := by
  rcases hc with rfl | hc
  · decide
  · rcases h : isChar c with _ | _
    · rfl
    · exact absurd (operator_of_isChar h) hc

theorem not_isChar_quote (hc : c = singleQuote ∨ c = doubleQuote) : isChar c = false := by
  rcases hc with rfl | rfl
  · decide
  · decide

theorem Plain.not_starts (hc : Plain c) (hr : Kind r) : starts r.pattern c = false := by
  cases hr with
  | keyword k d ks value chars =>
    exact decide_eq_false (ne_of_isChar (chars k List.mem_cons_self) hc.char).symm
  | single d value char =>
    apply decide_eq_false
    rintro rfl
    rcases char with hnl | hoperator
    · exact hc.newline hnl
    · exact hoperator hc.noOperator
  | word => exact hc.char
  | quoted quote char =>
    apply decide_eq_false
    rintro rfl
    rcases char with hsingle | hdouble
    · exact hc.single hsingle
    · exact hc.double hdouble

/-- A character that begins nothing is passed over. -/
theorem yylex_other (hc : Plain c) (hrest : rest.head? ≠ some ';') : yylex (c :: rest) = yylex rest := by
  have hsemicolon : longest semicolonRule.pattern (c :: rest) = none := by
    rcases hm : longest semicolonRule.pattern (c :: rest) with _ | m
    · rfl
    · exact absurd (of_longest_semicolon hm).2.2 hrest
  have hbest : best rules (c :: rest) = none := by
    apply best_eq_none
    intro r hr
    rcases kind_or_semicolon hr with hr | rfl
    · exact longest_of_not_starts (hc.not_starts hr)
    · exact hsemicolon
  exact scan_of_none hbest

/-- Before a semicolon no rule but the last matches more than one character. -/
theorem Kind.shorter_of_semicolon (hr : Kind r) (hsingle : c ≠ singleQuote) (hdouble : c ≠ doubleQuote) :
    Shorter 2 (c :: ';' :: rest) r := by
  cases hr with
  | keyword k d ks value chars =>
    intro m hm
    rcases of_longest_word hm with ⟨-, tail, htail⟩
    simp only [List.cons_append, List.cons.injEq] at htail
    have hd : isChar d = true := chars d (List.mem_cons_of_mem k List.mem_cons_self)
    exact absurd htail.2.1 (ne_of_isChar hd (by decide))
  | single =>
    intro m hm
    rcases of_longest_one hm with rfl
    exact Nat.lt_succ_self 1
  | word =>
    intro m hm
    have hle := of_longest_many hm
    rw [List.takeWhile_cons] at hle
    -- the semicolon ends the word
    split at hle
    · rw [List.takeWhile_cons_of_neg (by decide)] at hle
      exact Nat.lt_succ_of_le hle
    · exact lt_of_le_of_lt hle Nat.zero_lt_two
  | quoted quote char =>
    apply shorter_of_not_starts
    apply decide_eq_false
    rintro rfl
    rcases char with h | h
    · exact hsingle h
    · exact hdouble h

/-- A semicolon is passed over with the character before it. -/
theorem yylex_semicolon (hnl : c ≠ '\n') (hsingle : c ≠ singleQuote) (hdouble : c ≠ doubleQuote)
    (rest : List Char) : yylex (c :: ';' :: rest) = yylex rest := by
  have hlongest : longest semicolonRule.pattern (c :: ';' :: rest) = some 2 :=
    longest_pair (decide_eq_true hnl) (decide_eq_true rfl)
  have hbest : best rules (c :: ';' :: rest) = some (2, semicolonRule) := by
    rw [rules_eq]
    apply best_of_split hlongest
    · intro r hr
      exact (kind_of_mem hr).shorter_of_semicolon hsingle hdouble
    · intro r hr
      cases hr
  unfold yylex
  rw [scan_of_best hbest]
  rfl

end Steps

/-! ## Words -/

section Words

variable {c k : Char} {ks word rest : List Char} {r : Rule Char (Option Token)}
  {value : Option Token}

/-- The rules of single characters do not begin with a `CHAR`. -/
theorem shorter_single {d : Char} {n : ℕ} (hc : isChar c = true) (hd : isChar d = false) :
    Shorter n (c :: rest) (returns (.one (· = d)) value) :=
  shorter_of_not_starts (decide_eq_false (ne_of_isChar hc hd))

/-- The input begins with a word, and if this is one character, then no semicolon follows. -/
structure BeginsWith (word rest : List Char) : Prop where
  nonempty : word ≠ []
  chars : ∀ c ∈ word, isChar c = true
  ends : ∀ c ∈ rest.head?, isChar c = false
  safe : word.length = 1 → rest.head? ≠ some ';'

section

variable (h : BeginsWith word rest)
include h

theorem BeginsWith.longest_word : longest wordRule.pattern (word ++ rest) = some word.length :=
  longest_many h.nonempty h.chars h.ends

/-- A prefix of the input in which all characters are `CHAR` is a prefix of the word. -/
theorem BeginsWith.prefix_word {u : List Char} (hu : u <+: word ++ rest)
    (hchars : ∀ c ∈ u, isChar c = true) : u <+: word := by
  apply List.prefix_of_prefix_length_le hu (List.prefix_append word rest)
  by_cases hne : u = []
  · rw [hne]
    exact Nat.zero_le _
  · have hm : Matches wordRule.pattern u := ⟨hne, hchars⟩
    exact le_of_longest h.longest_word hu hm

/-- No rule matches more than the word. -/
theorem BeginsWith.longest_le (hr : r ∈ rules) :
    ∀ m, longest r.pattern (word ++ rest) = some m → m ≤ word.length := by
  rcases List.exists_cons_of_ne_nil h.nonempty with ⟨c, w, rfl⟩
  have hc : isChar c = true := h.chars c List.mem_cons_self
  intro m hm
  rcases kind_or_semicolon hr with hr | rfl
  · cases hr with
    | keyword k d ks value chars =>
      rcases of_longest_word hm with ⟨rfl, hpre⟩
      exact (h.prefix_word hpre chars).length_le
    | single d value char => exact (shorter_single hc (not_isChar_single char)).le m hm
    | word =>
      rw [h.longest_word] at hm
      exact (Option.some.inj hm).ge
    | quoted quote char =>
      have hstarts : starts (quotedRule quote).pattern c = false :=
        decide_eq_false (ne_of_isChar hc (not_isChar_quote char))
      exact (shorter_of_not_starts hstarts).le m hm
  · -- the rule `.;` takes two characters
    rcases of_longest_semicolon hm with ⟨rfl, -, hhead⟩
    cases w with
    | nil => exact absurd hhead (h.safe rfl)
    | cons d w =>
      simp only [List.length_cons]
      omega

/-- A keyword that the word is not is shorter than the word. -/
theorem BeginsWith.shorter_keyword (hk : ∀ c ∈ k :: ks, isChar c = true) (hne : word ≠ k :: ks) :
    Shorter word.length (word ++ rest) (returns (.word k ks) value) := by
  intro m hm
  rcases of_longest_word hm with ⟨rfl, hpre⟩
  have hsub := h.prefix_word hpre hk
  refine lt_of_le_of_ne hsub.length_le ?_
  intro heq
  exact hne (hsub.eq_of_length heq).symm

/-- The first rule that matches the whole word is taken. -/
theorem BeginsWith.yylex_of_rule {pre post : List (Rule Char (Option Token))}
    (hrules : rules = pre ++ r :: post) (hr : longest r.pattern (word ++ rest) = some word.length)
    (hpre : ∀ r' ∈ pre, Shorter word.length (word ++ rest) r') :
    yylex (word ++ rest) = (r.action word).toList ++ yylex rest := by
  have hbest : best rules (word ++ rest) = some (word.length, r) := by
    rw [hrules]
    apply best_of_split hr hpre
    intro r' hr'
    apply h.longest_le
    rw [hrules]
    exact List.mem_append_right pre (List.mem_cons_of_mem r hr')
  unfold yylex
  rw [scan_of_best hbest, List.take_left, List.drop_left]

/-- A word is one token. -/
theorem BeginsWith.yylex_word : yylex (word ++ rest) = some (wordToken word) :: yylex rest := by
  have hexit : ∀ c ∈ ['e', 'x', 'i', 't'], isChar c = true := List.all_eq_true.mp rfl
  have hwait : ∀ c ∈ ['w', 'a', 'i', 't'], isChar c = true := List.all_eq_true.mp rfl
  have hkill : ∀ c ∈ ['k', 'i', 'l', 'l'], isChar c = true := List.all_eq_true.mp rfl
  -- a keyword takes its own rule, which stands before the rule for words
  unfold wordToken
  split_ifs with h₁ h₂ h₃
  · have hrules : rules = [] ++ exitRule :: rules.drop 1 := rfl
    subst h₁
    apply h.yylex_of_rule hrules
    · exact Lexer.longest_word (List.prefix_append _ rest)
    · intro r hr
      cases hr
  · have hrules : rules = [exitRule] ++ waitRule :: rules.drop 2 := rfl
    subst h₂
    apply h.yylex_of_rule hrules
    · exact Lexer.longest_word (List.prefix_append _ rest)
    · intro r hr
      rcases List.mem_singleton.mp hr with rfl
      exact h.shorter_keyword hexit h₁
  · have hrules : rules = [exitRule, waitRule] ++ killRule :: rules.drop 3 := rfl
    subst h₃
    apply h.yylex_of_rule hrules
    · exact Lexer.longest_word (List.prefix_append _ rest)
    · intro r hr
      simp only [List.mem_cons, List.not_mem_nil, or_false] at hr
      rcases hr with rfl | rfl
      · exact h.shorter_keyword hexit h₁
      · exact h.shorter_keyword hwait h₂
  · have hrules : rules = rules.take 8 ++ wordRule :: rules.drop 9 := rfl
    -- `yytext` is copied as a C string, and a word has no null byte
    have htext : cString word = String.ofList word := by
      apply cString_of_not_mem
      intro hmem
      have := h.chars _ hmem
      revert this
      decide
    rw [h.yylex_of_rule hrules h.longest_word ?_, ← htext]
    · rfl
    · rcases List.exists_cons_of_ne_nil h.nonempty with ⟨c, w, rfl⟩
      have hc : isChar c = true := h.chars c List.mem_cons_self
      intro r hr
      simp only [rules, List.take_succ_cons, List.take_zero, List.mem_cons, List.not_mem_nil,
        or_false] at hr
      rcases hr with rfl | rfl | rfl | rfl | rfl | rfl | rfl | rfl
      · exact h.shorter_keyword hexit h₁
      · exact h.shorter_keyword hwait h₂
      · exact h.shorter_keyword hkill h₃
      -- the other rules before it match one character that is not part of a word
      all_goals exact shorter_single hc (by decide)

end

end Words

/-! ## Quoted strings -/

/-- A quoted string is one token. It ends at the last quote that can be reached without a
double quote in between. -/
theorem yylex_quoted {quote : Char} {body rest : List Char}
    (hquote : quote = singleQuote ∨ quote = doubleQuote) (hne : body ≠ [])
    (hbody : ∀ c ∈ body, isQuotedChar c = true)
    (hrest : ∀ v w, rest = v ++ quote :: w → ∃ c ∈ quote :: v, isQuotedChar c = false) :
    yylex (quote :: (body ++ quote :: rest)) = some (.string (cString body)) :: yylex rest := by
  have hlongest : longest (quotedRule quote).pattern (quote :: (body ++ quote :: rest)) =
      some (body.length + 2) := longest_delimited hne hbody hrest
  -- the rule `.;` may match the quote, but not more
  have hsemicolon : ∀ m, longest semicolonRule.pattern (quote :: (body ++ quote :: rest)) = some m →
      m ≤ body.length + 2 := by
    intro m hm
    rcases of_longest_semicolon hm with ⟨rfl, -, -⟩
    exact Nat.le_add_left 2 body.length
  have hbest : best rules (quote :: (body ++ quote :: rest)) =
      some (body.length + 2, quotedRule quote) := by
    rcases hquote with rfl | rfl
    · exact best_of_starts 9 rfl (by decide) (by decide) hlongest hsemicolon
    · exact best_of_starts 10 rfl (by decide) (by decide) hlongest hsemicolon
  have hsplit : quote :: (body ++ quote :: rest) = (quote :: (body ++ [quote])) ++ rest := by
    simp
  have hlength : body.length + 2 = (quote :: (body ++ [quote])).length := by
    simp
  unfold yylex
  rw [scan_of_best hbest, hsplit, hlength, List.take_left, List.drop_left, ← stripQuotes_eq quote]
  rfl

end SysProg.Shell
