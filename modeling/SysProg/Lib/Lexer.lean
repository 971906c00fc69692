import Mathlib.Data.List.TakeWhile
import Mathlib.Tactic

/-!
# Scanners with longest match

A scanner is a list of rules, each a pattern with an action. At every position of the input
the rule that matches most is taken, the first one of several; where no rule matches, one
character is passed over.

* `Pattern`, `Matches` — patterns, and the words that they match;
* `lengths`, `longest` — the matching prefixes of an input, and `mem_lengths`, what they are;
* `best`, `best_of_split` — the rule that is taken;
* `scan` — the values that the actions return, and `scan_of_best`, `scan_of_none`, one step of it.
-/

namespace Lexer

/-- Patterns that match no empty word. -/
inductive Pattern (α : Type*) where
  /-- exactly the word `c :: w` -/
  | word (c : α) (w : List α)
  /-- one character of a class -/
  | one (p : α → Bool)
  /-- one or more characters of a class -/
  | many (p : α → Bool)
  | seq (a b : Pattern α)

section Matching

variable {α : Type*} {n : ℕ}

def Matches : Pattern α → List α → Prop
  | .word c w, l => l = c :: w
  | .one p, l => ∃ c, l = [c] ∧ p c = true
  | .many p, l => l ≠ [] ∧ ∀ c ∈ l, p c = true
  | .seq a b, l => ∃ u v, l = u ++ v ∧ Matches a u ∧ Matches b v

/-- The pattern can match a word that begins with this character. -/
def starts [DecidableEq α] : Pattern α → α → Bool
  | .word d _, c => c = d
  | .one p, c => p c
  | .many p, c => p c
  | .seq a _, c => starts a c

theorem le_length_takeWhile {p : α → Bool} {u l : List α} (hu : u <+: l) (hp : ∀ c ∈ u, p c = true) :
    u.length ≤ (l.takeWhile p).length := by
  rcases hu with ⟨v, rfl⟩
  rw [List.takeWhile_append_of_pos hp, List.length_append]
  exact Nat.le_add_right _ _

variable [DecidableEq α]

theorem Matches.starts {P : Pattern α} {u : List α} (h : Matches P u) :
    ∃ c v, u = c :: v ∧ starts P c = true := by
  induction P generalizing u with
  | word c w =>
    rcases h with rfl
    exact ⟨c, w, rfl, decide_eq_true rfl⟩
  | one =>
    rcases h with ⟨c, rfl, hc⟩
    exact ⟨c, [], rfl, hc⟩
  | many =>
    rcases h with ⟨hne, hp⟩
    cases u with
    | nil => exact absurd rfl hne
    | cons c v => exact ⟨c, v, rfl, hp c List.mem_cons_self⟩
  | seq a b iha _ =>
    rcases h with ⟨u, v, rfl, hu, -⟩
    rcases iha hu with ⟨c, w, rfl, hc⟩
    exact ⟨c, w ++ v, rfl, hc⟩

/-- The lengths of the prefixes of the input that match. -/
def lengths : Pattern α → List α → List ℕ
  | .word c w, l => if l.take (w.length + 1) = c :: w then [w.length + 1] else []
  | .one _, [] => []
  | .one p, c :: _ => if p c then [1] else []
  | .many p, l => (List.range (l.takeWhile p).length).map (· + 1)
  | .seq a b, l => (lengths a l).flatMap fun n => (lengths b (l.drop n)).map (n + ·)

/-- A run of a class can be matched up to each of its characters. -/
theorem mem_lengths_many {p : α → Bool} {l : List α} :
    n ∈ lengths (.many p) l ↔ ∃ u, u <+: l ∧ u.length = n ∧ Matches (.many p) u := by
  simp only [lengths, Matches, List.mem_map, List.mem_range]
  constructor
  · rintro ⟨k, hk, rfl⟩
    refine ⟨(l.takeWhile p).take (k + 1), ?_, ?_, ?_, ?_⟩
    · exact (List.take_prefix _ _).trans (List.takeWhile_prefix p)
    · rw [List.length_take]
      omega
    · intro hnil
      have := congrArg List.length hnil
      rw [List.length_take, List.length_nil] at this
      omega
    · intro c hc
      exact List.mem_takeWhile_imp (List.mem_of_mem_take hc)
  · rintro ⟨u, hu, rfl, hne, hp⟩
    have hpos := List.length_pos_of_ne_nil hne
    have hle := le_length_takeWhile hu hp
    exact ⟨u.length - 1, by omega, by omega⟩

theorem mem_lengths (P : Pattern α) {l : List α} :
    n ∈ lengths P l ↔ ∃ u, u <+: l ∧ u.length = n ∧ Matches P u := by
  induction P generalizing l n with
  | word c w =>
    simp only [lengths, Matches]
    constructor
    · intro h
      split at h
      · next heq =>
        rcases List.mem_singleton.mp h with rfl
        exact ⟨c :: w, heq ▸ List.take_prefix _ l, rfl, rfl⟩
      · cases h
    · rintro ⟨u, ⟨v, rfl⟩, rfl, rfl⟩
      simp
  | one =>
    simp only [Matches]
    constructor
    · intro h
      cases l with
      | nil => cases h
      | cons c l =>
        simp only [lengths] at h
        split at h
        · next hc =>
          rcases List.mem_singleton.mp h with rfl
          exact ⟨[c], ⟨l, rfl⟩, rfl, c, rfl, hc⟩
        · cases h
    · rintro ⟨u, ⟨v, rfl⟩, rfl, c, rfl, hc⟩
      simp [lengths, hc]
  | many => exact mem_lengths_many
  | seq a b iha ihb =>
    simp only [lengths, Matches, List.mem_flatMap, List.mem_map]
    constructor
    · -- the second pattern starts where the match of the first one ends
      rintro ⟨i, hi, j, hj, rfl⟩
      rcases iha.mp hi with ⟨u, ⟨r, rfl⟩, rfl, hu⟩
      rcases ihb.mp hj with ⟨v, hv, rfl, hv'⟩
      rw [List.drop_left] at hv
      rcases hv with ⟨r', rfl⟩
      exact ⟨u ++ v, ⟨r', by simp⟩, by simp, u, v, rfl, hu, hv'⟩
    · rintro ⟨w, ⟨r, rfl⟩, rfl, u, v, rfl, hu, hv⟩
      refine ⟨u.length, iha.mpr ⟨u, ⟨v ++ r, by simp⟩, rfl, hu⟩, v.length, ihb.mpr ?_, by simp⟩
      rw [List.append_assoc, List.drop_left]
      exact ⟨v, ⟨r, rfl⟩, rfl, hv⟩

def longest (P : Pattern α) (l : List α) : Option ℕ :=
  (lengths P l).max?

variable {P : Pattern α} {l : List α}

theorem longest_eq_some {u : List α} (hu : u <+: l) (hm : Matches P u)
    (hmax : ∀ v, v <+: l → Matches P v → v.length ≤ u.length) : longest P l = some u.length := by
  refine List.max?_eq_some_iff.mpr ⟨(mem_lengths P).mpr ⟨u, hu, rfl, hm⟩, ?_⟩
  intro n hn
  rcases (mem_lengths P).mp hn with ⟨v, hv, rfl, hm'⟩
  exact hmax v hv hm'

theorem longest_eq_none (h : ∀ v, v <+: l → ¬ Matches P v) : longest P l = none := by
  refine List.max?_eq_none_iff.mpr (List.eq_nil_iff_forall_not_mem.mpr ?_)
  intro n hn
  rcases (mem_lengths P).mp hn with ⟨v, hv, -, hm⟩
  exact h v hv hm

theorem le_of_longest {u : List α} (h : longest P l = some n) (hu : u <+: l) (hm : Matches P u) :
    u.length ≤ n :=
  (List.max?_eq_some_iff.mp h).2 _ ((mem_lengths P).mpr ⟨u, hu, rfl, hm⟩)

theorem exists_of_longest (h : longest P l = some n) :
    ∃ u, u <+: l ∧ u.length = n ∧ Matches P u :=
  (mem_lengths P).mp (List.max?_mem h)

theorem longest_pos (h : longest P l = some n) : 0 < n := by
  rcases exists_of_longest h with ⟨u, -, rfl, hm⟩
  rcases hm.starts with ⟨c, v, rfl, -⟩
  exact Nat.succ_pos _

/-! ## Single patterns -/

variable {c d : α} {p q : α → Bool}

theorem longest_of_not_starts (h : starts P c = false) : longest P (c :: l) = none := by
  apply longest_eq_none
  rintro v ⟨r, hv⟩ hm
  rcases hm.starts with ⟨d, w, rfl, hd⟩
  rcases List.cons.inj hv with ⟨rfl, -⟩
  rw [h] at hd
  cases hd

theorem longest_word {w : List α} (h : c :: w <+: l) : longest (.word c w) l = some (w.length + 1) := by
  have hm : Matches (.word c w) (c :: w) := rfl
  apply longest_eq_some h hm
  rintro v - rfl
  exact le_refl _

theorem of_longest_word {w : List α} (h : longest (.word c w) l = some n) :
    n = w.length + 1 ∧ c :: w <+: l := by
  rcases exists_of_longest h with ⟨u, hu, rfl, rfl⟩
  exact ⟨rfl, hu⟩

theorem longest_one (h : p c = true) : longest (.one p) (c :: l) = some 1 := by
  have hm : Matches (.one p) [c] := ⟨c, rfl, h⟩
  apply longest_eq_some ⟨l, rfl⟩ hm
  rintro v - ⟨d, rfl, -⟩
  exact le_refl _

theorem of_longest_one (h : longest (.one p) l = some n) : n = 1 := by
  rcases exists_of_longest h with ⟨u, -, rfl, a, rfl, -⟩
  rfl

/-- The longest match of a class is the run that begins here. -/
theorem longest_many {u r : List α} (hne : u ≠ []) (hp : ∀ c ∈ u, p c = true)
    (hr : ∀ c ∈ r.head?, p c = false) : longest (.many p) (u ++ r) = some u.length := by
  have hm : Matches (.many p) u := ⟨hne, hp⟩
  apply longest_eq_some ⟨r, rfl⟩ hm
  rintro v hv ⟨-, hp'⟩
  have hle := le_length_takeWhile hv hp'
  rw [List.takeWhile_append_of_pos hp] at hle
  cases r with
  | nil => simpa using hle
  | cons d r =>
    rw [List.takeWhile_cons_of_neg (by simp [hr d rfl])] at hle
    simpa using hle

theorem of_longest_many (h : longest (.many p) l = some n) : n ≤ (l.takeWhile p).length := by
  rcases exists_of_longest h with ⟨u, hu, rfl, -, hp⟩
  exact le_length_takeWhile hu hp

theorem longest_pair (hc : p c = true) (hd : q d = true) :
    longest (.seq (.one p) (.one q)) (c :: d :: l) = some 2 := by
  have hm : Matches (.seq (.one p) (.one q)) [c, d] := ⟨[c], [d], rfl, ⟨c, rfl, hc⟩, ⟨d, rfl, hd⟩⟩
  apply longest_eq_some ⟨l, rfl⟩ hm
  rintro v - ⟨u, w, rfl, ⟨a, rfl, -⟩, ⟨b, rfl, -⟩⟩
  exact le_refl _

/-- Two classes match two characters. -/
theorem of_longest_pair (h : longest (.seq (.one p) (.one q)) (c :: l) = some n) :
    n = 2 ∧ p c = true ∧ ∃ d ∈ l.head?, q d = true := by
  rcases exists_of_longest h with ⟨v, ⟨r, hv⟩, rfl, u, w, rfl, ⟨a, rfl, ha⟩, ⟨b, rfl, hb⟩⟩
  rcases List.cons.inj hv with ⟨rfl, rfl⟩
  exact ⟨rfl, ha, b, rfl, hb⟩

/-- A text between two delimiters. The match goes on to the last delimiter that can be
reached over characters of the class. -/
theorem longest_delimited {body r : List α} (hne : body ≠ []) (hp : ∀ c ∈ body, p c = true)
    (hr : ∀ v w, r = v ++ d :: w → ∃ c ∈ d :: v, p c = false) :
    longest (.seq (.one (· = d)) (.seq (.many p) (.one (· = d)))) (d :: (body ++ d :: r)) =
      some (body.length + 2) := by
  have hlength : body.length + 2 = (d :: (body ++ [d])).length := by simp
  rw [hlength]
  apply longest_eq_some
  · exact ⟨r, by simp⟩
  · exact ⟨[d], body ++ [d], rfl, ⟨d, rfl, by simp⟩, body, [d], rfl, ⟨hne, hp⟩, ⟨d, rfl, by simp⟩⟩
  · rintro v ⟨w, hv⟩ ⟨v₁, v₂, rfl, ⟨a, rfl, ha⟩, u, v₃, rfl, ⟨-, hu⟩, ⟨b, rfl, hb⟩⟩
    have hb : b = d := of_decide_eq_true hb
    subst hb
    simp only [List.nil_append, List.cons_append, List.append_assoc, List.cons.injEq] at hv
    -- a longer match goes over the closing delimiter
    have hle : u.length ≤ body.length := by
      rcases List.append_eq_append_iff.mp hv.2 with ⟨k, rfl, -⟩ | ⟨k, rfl, hrest⟩
      · simp
      · cases k with
        | nil => simp
        | cons e v =>
          rcases List.cons.inj hrest with ⟨rfl, htail⟩
          rcases hr v w htail with ⟨c, hc, hfalse⟩
          rw [hu c (List.mem_append_right body hc)] at hfalse
          cases hfalse
    simpa using hle

end Matching

/-! ## Rules -/

/-- A pattern with its action, which may return a value for the text that is matched. -/
structure Rule (α τ : Type*) where
  pattern : Pattern α
  action : List α → Option τ

section Scan

variable {α τ : Type*} [DecidableEq α]

/-- The rule with the longest match, the first one of several, and its length. -/
def best : List (Rule α τ) → List α → Option (ℕ × Rule α τ)
  | [], _ => none
  | r :: rules, l =>
    match longest r.pattern l, best rules l with
    | none, other => other
    | some n, none => some (n, r)
    | some n, some (m, r') => if m ≤ n then some (n, r) else some (m, r')

/-- The values that the actions return, up to the end of the input or until the fuel is
used up. -/
def scanFuel (rules : List (Rule α τ)) : ℕ → List α → List τ
  | 0, _ => []
  | _, [] => []
  | fuel + 1, c :: l =>
    match best rules (c :: l) with
    | none => scanFuel rules fuel l
    | some (n, r) =>
      (r.action ((c :: l).take n)).toList ++ scanFuel rules fuel ((c :: l).drop n)

/-- The values that the actions return, up to the end of the input. -/
def scan (rules : List (Rule α τ)) (l : List α) : List τ :=
  scanFuel rules l.length l

variable {rules pre post : List (Rule α τ)} {r : Rule α τ} {l : List α} {n : ℕ}

theorem best_eq_none (h : ∀ r ∈ rules, longest r.pattern l = none) : best rules l = none := by
  induction rules with
  | nil => rfl
  | cons r rules ih =>
    have hr := h r List.mem_cons_self
    simp [best, hr, ih fun r' hr' => h r' (List.mem_cons_of_mem r hr')]

/-- What is taken is a match of a rule. -/
theorem longest_of_best (h : best rules l = some (n, r)) :
    r ∈ rules ∧ longest r.pattern l = some n := by
  induction rules generalizing n r with
  | nil => cases h
  | cons r₀ rules ih =>
    rw [best] at h
    split at h
    · rcases ih h with ⟨hmem, hlongest⟩
      exact ⟨List.mem_cons_of_mem r₀ hmem, hlongest⟩
    · rcases Option.some.inj h with ⟨rfl, rfl⟩
      exact ⟨List.mem_cons_self, ‹_›⟩
    · next hother =>
      rcases ite_eq_iff.mp h with ⟨-, ⟨⟩⟩ | ⟨-, ⟨⟩⟩
      · exact ⟨List.mem_cons_self, ‹_›⟩
      · rcases ih hother with ⟨hmem, hlongest⟩
        exact ⟨List.mem_cons_of_mem r₀ hmem, hlongest⟩

/-- A rule is taken if it matches more than those before it and no less than those after. -/
theorem best_of_split (hr : longest r.pattern l = some n)
    (hpre : ∀ r' ∈ pre, ∀ m, longest r'.pattern l = some m → m < n)
    (hpost : ∀ r' ∈ post, ∀ m, longest r'.pattern l = some m → m ≤ n) :
    best (pre ++ r :: post) l = some (n, r) := by
  induction pre with
  | nil =>
    rw [List.nil_append, best, hr]
    rcases hother : best post l with _ | ⟨m, r'⟩
    · rfl
    · rcases longest_of_best hother with ⟨hmem, hlongest⟩
      exact if_pos (hpost r' hmem m hlongest)
  | cons r₀ pre ih =>
    rw [List.cons_append, best, ih fun r' hr' => hpre r' (List.mem_cons_of_mem r₀ hr')]
    rcases hfirst : longest r₀.pattern l with _ | m
    · rfl
    · have hlt := hpre r₀ List.mem_cons_self m hfirst
      exact if_neg (by omega)

theorem scanFuel_nil (fuel : ℕ) : scanFuel rules fuel [] = [] := by
  cases fuel with
  | zero => rfl
  | succ => rfl

/-- As much fuel as there are characters is enough. -/
theorem scanFuel_eq {fuel : ℕ} (h : l.length ≤ fuel) : scanFuel rules fuel l = scan rules l := by
  unfold scan
  induction fuel using Nat.strong_induction_on generalizing l with
  | _ fuel ih =>
    cases l with
    | nil => rw [scanFuel_nil, scanFuel_nil]
    | cons c l =>
      cases fuel with
      | zero => simp at h
      | succ fuel =>
        have hl : l.length ≤ fuel := by simpa using h
        rw [List.length_cons, scanFuel, scanFuel]
        -- a match has at least one character
        rcases hbest : best rules (c :: l) with _ | ⟨n, r⟩
        · exact ih fuel (by omega) hl
        · have hpos := longest_pos (longest_of_best hbest).2
          have hrest : ((c :: l).drop n).length ≤ l.length := by
            rw [List.length_drop, List.length_cons]
            omega
          have hself := ih fuel (Nat.lt_succ_self fuel) (hrest.trans hl)
          have hother := ih l.length (by omega) hrest
          simp only [hself, hother]

/-- No rule matches: one character is passed over. -/
theorem scan_of_none {c : α} (h : best rules (c :: l) = none) : scan rules (c :: l) = scan rules l := by
  unfold scan
  rw [List.length_cons, scanFuel, h]

/-- A rule is taken: its action comes first. -/
theorem scan_of_best (h : best rules l = some (n, r)) :
    scan rules l = (r.action (l.take n)).toList ++ scan rules (l.drop n) := by
  have hpos := longest_pos (longest_of_best h).2
  cases l with
  | nil =>
    rcases exists_of_longest (longest_of_best h).2 with ⟨u, hu, rfl, -⟩
    rcases List.prefix_nil.mp hu with rfl
    exact absurd hpos (lt_irrefl 0)
  | cons c l =>
    have hrest : ((c :: l).drop n).length ≤ l.length := by
      rw [List.length_drop, List.length_cons]
      omega
    rw [← scanFuel_eq hrest]
    unfold scan
    rw [List.length_cons, scanFuel, h]

end Scan

end Lexer
