import Mathlib.Tactic

/-!
# Recognizers that start over

A recognizer moves from state to state as it reads tokens. When it cannot read a token it
drops it and starts over behind it, which cuts its input into pieces.

* `reads` — the state after some tokens;
* `pieces` — the input without the tokens that could not be read, cut where they were;
* `reads_or_stuck`, `pieces_of_reads`, `pieces_of_stuck` — one piece at a time.
-/

namespace Recognizer

universe u v

variable {Q : Type u} {T : Type v} (move : Q → T → Option Q)

/-- The state after reading all tokens. -/
def reads : Q → List T → Option Q
  | q, [] => some q
  | q, t :: ts => (move q t).bind fun q' => reads q' ts

/-- What is read from state `q` on, behind what has been `read` already, with a new start
in `start` behind every token that cannot be read. -/
def pieces (start : Q) : Q → List T → List T → List (List T)
  | _, read, [] => [read]
  | q, read, t :: ts =>
    match move q t with
    | some q' => pieces start q' (read ++ [t]) ts
    | none => read :: pieces start start [] ts

variable {move} {start q q' : Q} {t : T} {ts us read : List T}

theorem reads_append (q : Q) (ts us : List T) :
    reads move q (ts ++ us) = (reads move q ts).bind fun q' => reads move q' us := by
  induction ts generalizing q with
  | nil => rfl
  | cons t ts ih =>
    rw [List.cons_append, reads, reads]
    cases move q t with
    | none => rfl
    | some q' => exact ih q'

theorem reads_concat : reads move q (ts ++ [t]) = some q' ↔
    ∃ q₁, reads move q ts = some q₁ ∧ move q₁ t = some q' := by
  have hone : ∀ q₁, reads move q₁ [t] = move q₁ t := by
    intro q₁
    simp [reads]
  rw [reads_append, Option.bind_eq_some_iff]
  simp only [hone]

theorem reads_prefix (h : reads move q (ts ++ us) = some q') :
    ∃ q₁, reads move q ts = some q₁ ∧ reads move q₁ us = some q' := by
  rw [reads_append, Option.bind_eq_some_iff] at h
  exact h

/-- Either all tokens can be read or there is a first one that cannot. -/
theorem reads_or_stuck (move : Q → T → Option Q) (q : Q) (ts : List T) :
    (∃ q', reads move q ts = some q') ∨
    ∃ u t v q', ts = u ++ t :: v ∧ reads move q u = some q' ∧ move q' t = none := by
  induction ts generalizing q with
  | nil => exact .inl ⟨q, rfl⟩
  | cons t ts ih =>
    cases hmove : move q t with
    | none => exact .inr ⟨[], t, ts, q, rfl, rfl, hmove⟩
    | some q₁ =>
      rcases ih q₁ with ⟨q', hreads⟩ | ⟨u, t', v, q', rfl, hreads, hstuck⟩
      · exact .inl ⟨q', by rw [reads, hmove, Option.bind_some, hreads]⟩
      · exact .inr ⟨t :: u, t', v, q', rfl, by rw [reads, hmove, Option.bind_some, hreads],
          hstuck⟩

theorem pieces_of_reads (h : reads move q ts = some q') :
    pieces move start q read ts = [read ++ ts] := by
  induction ts generalizing q read with
  | nil => rw [pieces, List.append_nil]
  | cons t ts ih =>
    rw [reads, Option.bind_eq_some_iff] at h
    rcases h with ⟨q₁, hmove, hreads⟩
    simp only [pieces, hmove]
    rw [ih hreads, List.append_assoc, List.singleton_append]

theorem pieces_of_stuck (h : reads move q ts = some q') (hstuck : move q' t = none) :
    pieces move start q read (ts ++ t :: us) =
      (read ++ ts) :: pieces move start start [] us := by
  induction ts generalizing q read with
  | nil =>
    rcases Option.some.inj h with rfl
    simp only [List.nil_append, pieces, hstuck, List.append_nil]
  | cons t' ts ih =>
    rw [reads, Option.bind_eq_some_iff] at h
    rcases h with ⟨q₁, hmove, hreads⟩
    simp only [List.cons_append, pieces, hmove]
    rw [ih hreads, List.append_assoc, List.singleton_append]

theorem pieces_ne_nil : pieces move start q read ts ≠ [] := by
  induction ts generalizing q read with
  | nil => exact List.cons_ne_nil _ _
  | cons t ts ih =>
    rw [pieces]
    split
    · exact ih
    · exact List.cons_ne_nil _ _

/-- Every piece can be read from the start. -/
theorem reads_of_mem_pieces {piece : List T} (h : piece ∈ pieces move start start [] ts) :
    ∃ q, reads move start piece = some q := by
  induction hn : ts.length using Nat.strong_induction_on generalizing ts with
  | h n ih =>
    rcases reads_or_stuck move start ts with
      ⟨q, hreads⟩ | ⟨u, t, v, q, rfl, hreads, hstuck⟩
    · rw [pieces_of_reads hreads, List.nil_append, List.mem_singleton] at h
      exact ⟨q, h ▸ hreads⟩
    · rw [pieces_of_stuck hreads hstuck, List.nil_append, List.mem_cons] at h
      rcases h with rfl | h
      · exact ⟨q, hreads⟩
      · refine ih v.length ?_ h rfl
        rw [← hn, List.length_append, List.length_cons]
        omega

end Recognizer
