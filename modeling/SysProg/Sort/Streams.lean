import Mathlib.Tactic
import Mathlib.Data.List.TakeWhile
import SysProg.Lib.Bytes

/-!
# Lines and streams

`std::getline` on a byte stream, and how the lines of a byte string come out of it
one by one. Input and temporary files of the sort program are both read this way.
-/

namespace SysProg.Sort

variable {seg : Line}

/-- A line, without its newline. -/
abbrev Line := List UInt8

/-- The byte `'\n'`. -/
def newline : UInt8 := 10

/-- The state of an input stream: the bytes still to be read, and whether `good()`
holds (neither end of file nor a failure has been seen). -/
structure Stream where
  rest : List UInt8
  good : Bool
deriving DecidableEq, Repr

/-- `std::getline(stream, line)`: the new value of `line` and the stream. Reading
up to the end of the bytes sets `eofbit`, with or without a newline seen. A stream
that is not good is left alone and so is the line. -/
def getline (s : Stream) (line : Line) : Line × Stream :=
  if s.good then
    match s.rest.dropWhile (· ≠ newline) with
    | [] => (s.rest.takeWhile (· ≠ newline), { rest := [], good := false })
    | _ :: rest => (s.rest.takeWhile (· ≠ newline), { rest := rest, good := true })
  else (line, s)

/-- The bytes of newline-terminated lines. -/
def encode (lines : List Line) : List UInt8 :=
  lines.flatMap fun line => line ++ [newline]

/-- The newline-terminated segments of a byte string, and the segment after the
last newline. -/
def segments : List UInt8 → List Line × Line
  | [] => ([], [])
  | b :: bytes =>
      match segments bytes with
      | (lines, last) =>
          if b = newline then ([] :: lines, last)
          else match lines with
            | [] => ([], b :: last)
            | line :: lines => ((b :: line) :: lines, last)

/-- The lines of the input: the segments ended by a newline plus a non-empty
unterminated last segment. -/
def inputLines (bytes : List UInt8) : List Line :=
  (segments bytes).1 ++ if (segments bytes).2 = [] then [] else [(segments bytes).2]

@[simp] theorem encode_nil : encode [] = [] := rfl

@[simp] theorem encode_cons (line : Line) (lines : List Line) :
    encode (line :: lines) = line ++ newline :: encode lines := by
  simp [encode]

/-! ## Reading lines -/

theorem segments_of_not_mem (h : newline ∉ seg) : segments seg = ([], seg) := by
  induction seg with
  | nil => rfl
  | cons b seg ih =>
    have hb : b ≠ newline := fun hb => h (by simp [hb])
    rw [segments, ih fun hm => h (List.mem_cons_of_mem _ hm)]
    simp [hb]

theorem segments_append (h : newline ∉ seg) (rest : List UInt8) :
    segments (seg ++ newline :: rest) = (seg :: (segments rest).1, (segments rest).2) := by
  induction seg with
  | nil => simp [segments]
  | cons b seg ih =>
    have hb : b ≠ newline := fun hb => h (by simp [hb])
    rw [List.cons_append, segments, ih fun hm => h (List.mem_cons_of_mem _ hm)]
    simp [hb]

@[simp] theorem inputLines_append (h : newline ∉ seg) (rest : List UInt8) :
    inputLines (seg ++ newline :: rest) = seg :: inputLines rest := by
  simp [inputLines, segments_append h]

@[simp] theorem inputLines_of_not_mem (h : newline ∉ seg) :
    inputLines seg = if seg = [] then [] else [seg] := by
  simp [inputLines, segments_of_not_mem h]

/-- A byte string has no newline, or a first one. -/
theorem exists_first_newline (bytes : List UInt8) :
    newline ∉ bytes ∨ ∃ seg rest, newline ∉ seg ∧ bytes = seg ++ newline :: rest := by
  induction bytes with
  | nil => exact .inl (by simp)
  | cons b bytes ih =>
    by_cases hb : b = newline
    · exact .inr ⟨[], bytes, by simp, by simp [hb]⟩
    · rcases ih with h | ⟨seg, rest, hseg, rfl⟩
      · exact .inl (by simp [h, Ne.symm hb])
      · exact .inr ⟨b :: seg, rest, by simp [hseg, Ne.symm hb], by simp⟩

theorem ne_newline_of_not_mem (h : newline ∉ seg) :
    ∀ b ∈ seg, decide (b ≠ newline) = true := by
  intro b hb
  simpa using fun hbn : b = newline => h (hbn ▸ hb)

/-- A `getline` that finds a newline. -/
theorem getline_line (h : newline ∉ seg) (rest : List UInt8) (line : Line) :
    getline { rest := seg ++ newline :: rest, good := true } line =
      (seg, { rest := rest, good := true }) := by
  have hall := ne_newline_of_not_mem h
  have hdrop : (seg ++ newline :: rest).dropWhile (· ≠ newline) = newline :: rest := by
    rw [List.dropWhile_append_of_pos hall]; simp
  have htake : (seg ++ newline :: rest).takeWhile (· ≠ newline) = seg := by
    rw [List.takeWhile_append_of_pos hall]; simp
  simp only [getline, if_true, hdrop, htake]

/-- A `getline` that runs into the end. -/
theorem getline_last (h : newline ∉ seg) (line : Line) :
    getline { rest := seg, good := true } line = (seg, { rest := [], good := false }) := by
  have hall := ne_newline_of_not_mem h
  have hdrop : seg.dropWhile (· ≠ newline) = [] := List.dropWhile_eq_nil_iff.mpr hall
  have htake : seg.takeWhile (· ≠ newline) = seg := List.takeWhile_eq_self_iff.mpr hall
  simp only [getline, if_true, hdrop, htake]

/-- What a `getline` on a good stream reads: a line and its newline, or the
unterminated rest. -/
theorem getline_cases {s : Stream} (hs : s.good = true) (line : Line) :
    (∃ seg rest, newline ∉ seg ∧ s.rest = seg ++ newline :: rest ∧
      getline s line = (seg, { rest := rest, good := true })) ∨
    (newline ∉ s.rest ∧ getline s line = (s.rest, { rest := [], good := false })) := by
  rcases s with ⟨bytes, good⟩
  subst hs
  rcases exists_first_newline bytes with h | ⟨seg, rest, hseg, rfl⟩
  · exact .inr ⟨h, getline_last h line⟩
  · exact .inl ⟨seg, rest, hseg, rfl, getline_line hseg rest line⟩

/-- The work left on a stream, for the termination of the loops that read it. -/
def Stream.measure (s : Stream) : ℕ :=
  s.rest.length + if s.good then 1 else 0

theorem getline_measure {s : Stream} (hs : s.good = true) (line : Line) :
    (getline s line).2.measure < s.measure := by
  rcases getline_cases hs line with ⟨seg, rest, _, heq, hget⟩ | ⟨_, hget⟩
  · simp only [hget, Stream.measure, hs, heq, List.length_append, List.length_cons]
    omega
  · simp only [hget, Stream.measure, hs]
    simp

end SysProg.Sort
