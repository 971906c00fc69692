import SysProg.Shell.Scanner

/-!
# Words and operators

* `words` — the tokens of the maximal runs of `CHAR` and of the operators in an input;
* `Swallowed` — an operator, or a run of one character, stands before a semicolon;
* `words_iff` — in an input without quotes the scanner returns the tokens of the words and
  operators if and only if nothing is swallowed: the last rule matches a semicolon together
  with the character before it, which is more than the rule of that character matches.
-/

namespace SysProg.Shell

/-! ## The words of an input -/

/-- The token of a run that is complete. -/
def runToken : List Char → List Token
  | [] => []
  | c :: word => [wordToken (c :: word)]

/-- One token for each maximal run of `CHAR`, of which `word` is read already, and one for
each operator. -/
def words (word : List Char) : List Char → List Token
  | [] => runToken word
  | c :: input =>
    if isChar c then words (word ++ [c]) input
    else runToken word ++ (operator c).toList ++ words [] input

variable {c : Char} {word rest input : List Char}

theorem words_cons (h : isChar c = false) (rest : List Char) :
    words [] (c :: rest) = (operator c).toList ++ words [] rest := by
  rw [words, h]
  rfl

theorem words_chars {run : List Char} (h : ∀ c ∈ run, isChar c = true) (word rest : List Char) :
    words word (run ++ rest) = words (word ++ run) rest := by
  induction run generalizing word with
  | nil => simp
  | cons c run ih =>
    have hc : isChar c = true := h c List.mem_cons_self
    have hrun : ∀ d ∈ run, isChar d = true := fun d hd => h d (List.mem_cons_of_mem c hd)
    rw [List.cons_append, words, if_pos hc, ih hrun]
    simp

/-- A run that is followed by another character, or by none, is a word. -/
theorem words_run (hne : word ≠ []) (hword : ∀ c ∈ word, isChar c = true)
    (hrest : ∀ c ∈ rest.head?, isChar c = false) :
    words [] (word ++ rest) = wordToken word :: words [] rest := by
  have htoken : runToken word = [wordToken word] := by
    cases word with
    | nil => exact absurd rfl hne
    | cons => rfl
  rw [words_chars hword, List.nil_append]
  cases rest with
  | nil =>
    rw [words, htoken]
    rfl
  | cons d rest =>
    have hd : isChar d = false := hrest d rfl
    rw [words_cons hd, words, hd, htoken]
    rfl

/-! ## What is swallowed -/

/-- An operator, or a `CHAR` that is a run of its own, stands directly before a semicolon. -/
def Swallowed (input : List Char) : Prop :=
  ∃ pre c post, input = pre ++ c :: ';' :: post ∧
    (operator c ≠ none ∨ isChar c = true ∧ ∀ b, pre.getLast? = some b → isChar b = false)

theorem not_swallowed_nil : ¬ Swallowed [] := by
  rintro ⟨pre, c, post, h, -⟩
  simp at h

/-- What is swallowed in the rest of an input is swallowed in the input, unless the rest begins
in the middle of a run. -/
theorem Swallowed.append {f : List Char} (h : Swallowed rest)
    (hcut : (∀ b, f.getLast? = some b → isChar b = false) ∨ ∀ c ∈ rest.head?, isChar c = false) :
    Swallowed (f ++ rest) := by
  rcases h with ⟨pre, d, post, rfl, hd⟩
  refine ⟨f ++ pre, d, post, by simp, ?_⟩
  rcases hd with hd | ⟨hd, hlast⟩
  · exact .inl hd
  · refine .inr ⟨hd, ?_⟩
    intro b hb
    rw [List.getLast?_append] at hb
    rcases hpre : pre.getLast? with _ | e
    · rw [hpre, Option.none_or] at hb
      rcases hcut with hcut | hcut
      · exact hcut b hb
      · -- the rest begins with the character that is swallowed
        rcases List.getLast?_eq_none_iff.mp hpre with rfl
        rw [hcut d rfl] at hd
        cases hd
    · rw [hpre, Option.some_or] at hb
      exact hlast b (hpre.trans hb)

/-- What is swallowed after the front of an input is swallowed in the rest. -/
theorem swallowed_of_append {f k post : List Char} {d : Char}
    (hd : operator d ≠ none ∨
      isChar d = true ∧ ∀ b, (f ++ k).getLast? = some b → isChar b = false) :
    Swallowed (k ++ d :: ';' :: post) := by
  refine ⟨k, d, post, rfl, ?_⟩
  rcases hd with hd | ⟨hd, hlast⟩
  · exact .inl hd
  · refine .inr ⟨hd, ?_⟩
    intro b hb
    apply hlast
    rw [List.getLast?_append, hb]
    rfl

theorem swallowed_cons (hc : isChar c = false) :
    Swallowed (c :: rest) ↔ (rest.head? = some ';' ∧ operator c ≠ none) ∨ Swallowed rest := by
  constructor
  · rintro ⟨pre, d, post, heq, hd⟩
    -- the first character is swallowed, or a later one
    cases pre with
    | nil =>
      simp only [List.nil_append, List.cons.injEq] at heq
      rcases heq with ⟨rfl, rfl⟩
      rcases hd with hd | ⟨hd, -⟩
      · exact .inl ⟨rfl, hd⟩
      · rw [hc] at hd
        cases hd
    | cons =>
      simp only [List.cons_append, List.cons.injEq] at heq
      rcases heq with ⟨rfl, rfl⟩
      exact .inr (swallowed_of_append (f := [c]) hd)
  · rintro (⟨hhead, hoperator⟩ | h)
    · rcases List.head?_eq_some_iff.mp hhead with ⟨post, rfl⟩
      exact ⟨[], c, post, rfl, .inl hoperator⟩
    · apply h.append (f := [c])
      left
      intro b hb
      rcases Option.some.inj hb with rfl
      exact hc

theorem swallowed_run (hword : ∀ c ∈ word, isChar c = true) (hne : word ≠ [])
    (hrest : ∀ c ∈ rest.head?, isChar c = false) :
    Swallowed (word ++ rest) ↔ (word.length = 1 ∧ rest.head? = some ';') ∨ Swallowed rest := by
  constructor
  · rintro ⟨pre, d, post, heq, hd⟩
    rcases List.append_eq_append_iff.mp heq with ⟨k, rfl, rfl⟩ | ⟨k, rfl, hk⟩
    · exact .inr (swallowed_of_append hd)
    · -- the character before the semicolon is in the word or follows it
      rcases k with _ | ⟨e, _ | ⟨e', k⟩⟩
      · rw [List.nil_append] at hk
        refine .inr ⟨[], d, post, hk.symm, ?_⟩
        rcases hd with hd | ⟨hd, -⟩
        · exact .inl hd
        · rw [hrest d (by rw [← hk]; rfl)] at hd
          cases hd
      · simp only [List.cons_append, List.nil_append, List.cons.injEq] at hk
        rcases hk with ⟨rfl, rfl⟩
        have hchar : isChar d = true := hword d (by simp)
        rcases hd with hd | ⟨-, hlast⟩
        · exact absurd (operator_of_isChar hchar) hd
        · -- the character before it is in the word, too
          rcases hpre : pre.getLast? with _ | b
          · rcases List.getLast?_eq_none_iff.mp hpre with rfl
            exact .inl ⟨rfl, rfl⟩
          · have hb := hword b (List.mem_append_left _ (List.mem_of_getLast? hpre))
            rw [hlast b hpre] at hb
            cases hb
      · simp only [List.cons_append, List.cons.injEq] at hk
        rcases hk with ⟨-, rfl, -⟩
        exact absurd (hword ';' (by simp)) (by decide)
  · rintro (⟨hlength, hhead⟩ | h)
    · rcases List.head?_eq_some_iff.mp hhead with ⟨post, rfl⟩
      rcases List.length_eq_one_iff.mp hlength with ⟨d, rfl⟩
      refine ⟨[], d, post, rfl, .inr ⟨hword d List.mem_cons_self, ?_⟩⟩
      intro b hb
      cases hb
    · exact h.append (.inr hrest)

/-! ## The scanner -/

/-- The tokens without the newlines. -/
def tokens (input : List Char) : List Token :=
  (yylex input).reduceOption

/-- If nothing is swallowed, the tokens are those of the words and operators, and otherwise
there are fewer. -/
def Accounted (input : List Char) : Prop :=
  (¬ Swallowed input → tokens input = words [] input) ∧
    (Swallowed input → (tokens input).length < (words [] input).length)

theorem Accounted.length_le (h : Accounted input) : (tokens input).length ≤ (words [] input).length := by
  by_cases hs : Swallowed input
  · exact (h.2 hs).le
  · rw [h.1 hs]

/-- The scanner returns the tokens of a part of the input in which nothing is swallowed. -/
theorem Accounted.step {u : List Token} (h : Accounted rest) (htokens : tokens input = u ++ tokens rest)
    (hwords : words [] input = u ++ words [] rest) (hs : Swallowed input ↔ Swallowed rest) :
    Accounted input := by
  constructor
  · intro hnot
    rw [htokens, hwords, h.1 fun hrest => hnot (hs.mpr hrest)]
  · intro hswallowed
    rw [htokens, hwords, List.length_append, List.length_append]
    exact Nat.add_lt_add_left (h.2 (hs.mp hswallowed)) _

/-- The scanner returns nothing for a part of the input that has a token. -/
theorem Accounted.lost {t : Token} (h : Accounted rest) (htokens : tokens input = tokens rest)
    (hwords : words [] input = t :: words [] rest) (hs : Swallowed input) : Accounted input := by
  constructor
  · intro hnot
    exact absurd hs hnot
  · intro _
    rw [htokens, hwords, List.length_cons]
    exact Nat.lt_succ_of_le h.length_le

/-- A word at the beginning of the input. -/
theorem accounted_word (hne : word ≠ []) (hword : ∀ c ∈ word, isChar c = true)
    (hrest : ∀ c ∈ rest.head?, isChar c = false) (h : ∀ r, r <:+ rest → Accounted r) :
    Accounted (word ++ rest) := by
  have hwords := words_run hne hword hrest
  have hswallowed := swallowed_run hword hne hrest
  -- the rule `.;` takes a word of one character with the semicolon
  by_cases hone : word.length = 1 ∧ rest.head? = some ';'
  · rcases List.length_eq_one_iff.mp hone.1 with ⟨c, rfl⟩
    rcases List.head?_eq_some_iff.mp hone.2 with ⟨post, rfl⟩
    have hc : isChar c = true := hword c List.mem_cons_self
    apply (h post ⟨[';'], rfl⟩).lost
    · have hyylex := yylex_semicolon (ne_of_isChar hc (by decide)) (ne_of_isChar hc (by decide))
        (ne_of_isChar hc (by decide)) post
      unfold tokens
      rw [List.singleton_append, hyylex]
    · rw [hwords, words_cons (by decide)]
      rfl
    · exact hswallowed.mpr (.inl hone)
  · have hbegins : BeginsWith word rest := by
      refine ⟨hne, hword, hrest, ?_⟩
      intro hlength hhead
      exact hone ⟨hlength, hhead⟩
    apply (h rest List.suffix_rfl).step (u := [wordToken word])
    · unfold tokens
      rw [hbegins.yylex_word]
      rfl
    · exact hwords
    · rw [hswallowed]
      exact or_iff_right hone

/-- Another character at the beginning of the input. -/
theorem accounted_cons (hc : isChar c = false) (hsingle : c ≠ singleQuote) (hdouble : c ≠ doubleQuote)
    (h : ∀ r, r <:+ rest → Accounted r) : Accounted (c :: rest) := by
  have hwords := words_cons hc rest
  have hswallowed : Swallowed (c :: rest) ↔
      (rest.head? = some ';' ∧ operator c ≠ none) ∨ Swallowed rest := swallowed_cons hc
  by_cases hnl : c = '\n'
  · subst hnl
    apply (h rest List.suffix_rfl).step (u := [])
    · unfold tokens
      rw [yylex_newline]
      rfl
    · exact hwords
    · rw [hswallowed]
      exact or_iff_right fun hop => hop.2 rfl
  by_cases hhead : rest.head? = some ';'
  · rcases List.head?_eq_some_iff.mp hhead with ⟨post, rfl⟩
    have hpost := h post ⟨[';'], rfl⟩
    have htokens : tokens (c :: ';' :: post) = tokens post := by
      unfold tokens
      rw [yylex_semicolon hnl hsingle hdouble]
    have hsemicolon : words [] (';' :: post) = words [] post := words_cons (by decide) post
    rw [hsemicolon] at hwords
    rcases hop : operator c with _ | t
    · -- two characters are passed over that have no token
      rw [hop] at hwords
      apply hpost.step (u := []) htokens hwords
      rw [hswallowed, hop, swallowed_cons (by decide)]
      simp [operator]
    · rw [hop] at hwords
      apply hpost.lost htokens hwords
      rw [hswallowed, hop]
      exact .inl ⟨rfl, Option.some_ne_none t⟩
  · have hrest := h rest List.suffix_rfl
    have hiff : Swallowed (c :: rest) ↔ Swallowed rest := by
      rw [hswallowed]
      exact or_iff_right fun hop => hhead hop.1
    rcases hop : operator c with _ | t
    · rw [hop] at hwords
      apply hrest.step (u := []) ?_ hwords hiff
      unfold tokens
      rw [yylex_other ⟨hc, hop, hnl, hsingle, hdouble⟩ hhead]
      rfl
    · rw [hop] at hwords
      apply hrest.step (u := [t]) ?_ hwords hiff
      unfold tokens
      rw [yylex_operator hop hhead]
      rfl

theorem accounted (hsingle : singleQuote ∉ input) (hdouble : doubleQuote ∉ input) : Accounted input := by
  induction hn : input.length using Nat.strong_induction_on generalizing input with
  | _ n ih =>
    -- the hypothesis, for what is left after the first token
    have hsuffix : ∀ r, r <:+ input → r.length < n → Accounted r := by
      intro r hr hlt
      apply ih r.length hlt _ _ rfl
      · exact fun hmem => hsingle (hr.subset hmem)
      · exact fun hmem => hdouble (hr.subset hmem)
    cases input with
    | nil =>
      constructor
      · intro _
        rfl
      · intro hs
        exact absurd hs not_swallowed_nil
    | cons c rest =>
      rw [List.length_cons] at hn
      by_cases hc : isChar c = true
      · -- the run that begins here
        have hsplit : c :: rest = (c :: rest.takeWhile isChar) ++ rest.dropWhile isChar := by
          rw [List.cons_append, List.takeWhile_append_dropWhile]
        rw [hsplit]
        apply accounted_word (List.cons_ne_nil _ _)
        · intro d hd
          rcases List.mem_cons.mp hd with rfl | hd
          · exact hc
          · exact List.mem_takeWhile_imp hd
        · intro d hd
          have hnot := List.head?_dropWhile_not isChar rest
          rw [hd] at hnot
          exact hnot
        · intro r hr
          have hr' : r <:+ rest := hr.trans (List.dropWhile_suffix isChar)
          apply hsuffix r (hr'.trans (List.suffix_cons c rest))
          have := hr'.length_le
          omega
      · apply accounted_cons (by simpa using hc)
        · rintro rfl
          exact hsingle List.mem_cons_self
        · rintro rfl
          exact hdouble List.mem_cons_self
        · intro r hr
          apply hsuffix r (hr.trans (List.suffix_cons c rest))
          have := hr.length_le
          omega

/-- In an input without quotes the tokens that the scanner returns are those of the words and
operators if and only if no operator and no word of one character stands before a semicolon. -/
theorem words_iff (input : List Char) (hsingle : singleQuote ∉ input) (hdouble : doubleQuote ∉ input) :
    tokens input = words [] input ↔ ¬ Swallowed input := by
  have h := accounted hsingle hdouble
  constructor
  · intro heq hs
    have hlt := h.2 hs
    rw [heq] at hlt
    exact lt_irrefl _ hlt
  · exact h.1

/-- `ls -l|wc;` -/
theorem words_pipeline : ¬ Swallowed ['l', 's', ' ', '-', 'l', '|', 'w', 'c', ';'] := by
  apply (words_iff _ (by decide) (by decide)).mp
  decide +kernel

/-- In `a|;b` the operator is lost, so that `a` and `b` become the words of one command. -/
theorem operator_swallowed :
    tokens ['a', '|', ';', 'b'] = [.string "a", .string "b"] ∧
      tokens ['a', '|', ';', 'b'] ≠ words [] ['a', '|', ';', 'b'] := by
  decide +kernel

end SysProg.Shell
