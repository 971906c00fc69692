import Mathlib.Tactic

/-!
# Tagged wire format

Messages as sequences of numbered fields. A number is a base-128 varint: seven bits a
byte, the least significant group first, the high bit set when another byte follows. A
field is a tag, which holds its number and its wire type, and then a varint or a
length and that many bytes.

* `Varint.encode`, `Varint.decode` — one number, `Varint.decode_encode` reads it back;
* `encodeFields`, `parseFields` — a sequence of fields;
* `parse_encode` — parsing reads back every encoded sequence.
-/

namespace WireFormat

/-! ## Varints -/

namespace Varint

/-- The shortest encoding of `n`. -/
def encode (n : ℕ) : List UInt8 :=
  if n < 128 then [UInt8.ofNat n]
  else UInt8.ofNat (n % 128 + 128) :: encode (n / 128)
termination_by n

/-- The number at the head of the bytes, and the rest of them. -/
def decode : List UInt8 → Option (ℕ × List UInt8)
  | [] => none
  | b :: bytes =>
    if b.toNat < 128 then some (b.toNat, bytes)
    else (decode bytes).map fun x => (b.toNat - 128 + 128 * x.1, x.2)

theorem encode_length_pos (n : ℕ) : 0 < (encode n).length := by
  rw [encode]
  split <;> simp

theorem encode_of_lt {n : ℕ} (hn : n < 128) : encode n = [UInt8.ofNat n] := by
  rw [encode, if_pos hn]

/-- A byte for every seven bits. -/
theorem encode_length_le {n k : ℕ} (hk : 0 < k) (hn : n < 128 ^ k) : (encode n).length ≤ k := by
  induction k generalizing n with
  | zero => exact absurd hk (Nat.lt_irrefl 0)
  | succ k ih =>
    rw [encode]
    by_cases hlast : n < 128
    · rw [if_pos hlast, List.length_singleton]
      exact Nat.succ_pos k
    · have hpos : 0 < k := by
        by_contra hzero
        rw [Nat.eq_zero_of_not_pos hzero] at hn
        omega
      have hdiv : n / 128 < 128 ^ k := by
        rw [Nat.pow_succ] at hn
        exact Nat.div_lt_of_lt_mul (by omega)
      rw [if_neg hlast, List.length_cons]
      exact Nat.succ_le_succ (ih hpos hdiv)

theorem decode_encode (n : ℕ) (rest : List UInt8) :
    decode (encode n ++ rest) = some (n, rest) := by
  induction n using Nat.strongRecOn with
  | ind n ih =>
    rw [encode]
    by_cases hn : n < 128
    · have hb : (UInt8.ofNat n).toNat = n := by
        rw [UInt8.toNat_ofNat']
        omega
      rw [if_pos hn, List.singleton_append, decode, hb, if_pos hn]
    · have hb : (UInt8.ofNat (n % 128 + 128)).toNat = n % 128 + 128 := by
        rw [UInt8.toNat_ofNat']
        omega
      have hlt : ¬ n % 128 + 128 < 128 := by omega
      rw [if_neg hn, List.cons_append, decode, hb, if_neg hlt, ih (n / 128) (by omega),
        Option.map_some, Nat.add_sub_cancel]
      have hdiv : n % 128 + 128 * (n / 128) = n := Nat.mod_add_div n 128
      rw [hdiv]

end Varint

/-! ## Fields -/

/-- What a field holds: a number (wire type 0) or bytes with their length (wire type 2). -/
inductive Value where
  | varint (n : ℕ)
  | bytes (data : List UInt8)
deriving DecidableEq, Repr

/-- A numbered field. -/
structure TaggedField where
  number : ℕ
  value : Value
deriving DecidableEq, Repr

/-- Tag and content of one field. -/
def TaggedField.encode (f : TaggedField) : List UInt8 :=
  match f.value with
  | .varint n => Varint.encode (8 * f.number) ++ Varint.encode n
  | .bytes data => Varint.encode (8 * f.number + 2) ++ (Varint.encode data.length ++ data)

def encodeFields (fields : List TaggedField) : List UInt8 :=
  fields.flatMap TaggedField.encode

/-- The field at the head of the bytes, and the rest of them. -/
def parseField (input : List UInt8) : Option (TaggedField × List UInt8) := do
  let (tag, input) ← Varint.decode input
  let (n, input) ← Varint.decode input
  if tag % 8 = 0 then
    some (⟨tag / 8, .varint n⟩, input)
  else if tag % 8 = 2 ∧ n ≤ input.length then
    some (⟨tag / 8, .bytes (input.take n)⟩, input.drop n)
  else none

/-- At most `fuel` fields, up to the end of the bytes. -/
def parseUpTo : ℕ → List UInt8 → Option (List TaggedField)
  | _, [] => some []
  | 0, _ :: _ => none
  | fuel + 1, input => do
    let (f, input) ← parseField input
    let fields ← parseUpTo fuel input
    some (f :: fields)

/-- All fields of the bytes: every field takes at least one of them. -/
def parseFields (input : List UInt8) : Option (List TaggedField) :=
  parseUpTo input.length input

/-- The last number that a field carries. -/
def lastVarint (number : ℕ) (fields : List TaggedField) : Option ℕ :=
  (fields.filterMap fun f =>
    match f.value with
    | .varint n => if f.number = number then some n else none
    | .bytes _ => none).getLast?

/-- All byte contents that a field carries, in order. -/
def allBytes (number : ℕ) (fields : List TaggedField) : List (List UInt8) :=
  fields.filterMap fun f =>
    match f.value with
    | .varint _ => none
    | .bytes data => if f.number = number then some data else none

theorem TaggedField.encode_length_pos (f : TaggedField) : 0 < f.encode.length := by
  unfold TaggedField.encode
  cases f.value with
  | varint | bytes =>
    rw [List.length_append]
    exact Nat.add_pos_left (Varint.encode_length_pos _) _

theorem parseField_encode (f : TaggedField) (rest : List UInt8) :
    parseField (f.encode ++ rest) = some (f, rest) := by
  rcases f with ⟨number, value⟩
  cases value with
  | varint n =>
    have htag : 8 * number % 8 = 0 ∧ 8 * number / 8 = number := by omega
    simp [TaggedField.encode, parseField, Varint.decode_encode, htag]
  | bytes data =>
    have htag : ¬ (8 * number + 2) % 8 = 0 ∧ (8 * number + 2) % 8 = 2 ∧
        (8 * number + 2) / 8 = number := by omega
    simp [TaggedField.encode, parseField, Varint.decode_encode, htag]

theorem length_le_encodeFields (fields : List TaggedField) :
    fields.length ≤ (encodeFields fields).length := by
  induction fields with
  | nil => simp
  | cons f fields ih =>
    have hpos := f.encode_length_pos
    simp only [encodeFields, List.flatMap_cons, List.length_append, List.length_cons] at ih ⊢
    omega

theorem parseUpTo_encode (fields : List TaggedField) {fuel : ℕ} (h : fields.length ≤ fuel) :
    parseUpTo fuel (encodeFields fields) = some fields := by
  induction fields generalizing fuel with
  | nil => cases fuel <;> simp [encodeFields, parseUpTo]
  | cons f fields ih =>
    cases fuel with
    | zero => simp at h
    | succ =>
      have hih := ih (Nat.le_of_succ_le_succ h)
      have hcons : encodeFields (f :: fields) = f.encode ++ encodeFields fields := by
        simp [encodeFields]
      -- the encoding is not empty, so the parser reads a field
      have hne : f.encode ++ encodeFields fields ≠ [] := by
        have hpos := f.encode_length_pos
        intro hnil
        rw [(List.append_eq_nil_iff.mp hnil).1] at hpos
        exact absurd hpos (Nat.lt_irrefl 0)
      rw [hcons, parseUpTo.eq_3 _ _ hne, parseField_encode]
      simp [hih]

/-- Parsing reads back every encoded sequence of fields. -/
theorem parse_encode (fields : List TaggedField) :
    parseFields (encodeFields fields) = some fields :=
  parseUpTo_encode fields (length_le_encodeFields fields)

end WireFormat
