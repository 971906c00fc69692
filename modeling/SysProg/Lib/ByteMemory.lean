import Mathlib.Tactic

/-!
# Byte memories and block copies

A memory is a function from addresses to bytes. A `Copy` is what one `memcpy` does; it
is defined only when its two ranges have no byte in common. A `Fill` is what one `memset`
with zero does.

* `Copy.apply`, `applyAll` — the memory after one copy and after a list of them;
* `Copy.apply_copied`, `applyAll_of_not_writes` — what is copied, and what is not touched;
* `Fill.apply` — the memory after a range was set to zero.
-/

namespace ByteMemory

/-- The contents of a memory. -/
abbrev Bytes := ℕ → BitVec 8

/-- A copy of `length` bytes from `source` to `destination`. -/
structure Copy where
  destination : ℕ
  source : ℕ
  length : ℕ
deriving DecidableEq, Repr

namespace Copy

/-- The two ranges have no byte in common. -/
def Disjoint (c : Copy) : Prop :=
  c.destination + c.length ≤ c.source ∨ c.source + c.length ≤ c.destination

/-- The address lies in the range that is written. -/
def Writes (c : Copy) (x : ℕ) : Prop :=
  c.destination ≤ x ∧ x < c.destination + c.length

instance (c : Copy) (x : ℕ) : Decidable (c.Writes x) :=
  inferInstanceAs (Decidable (_ ∧ _))

/-- The memory after the copy. -/
def apply (c : Copy) (m : Bytes) : Bytes := fun x =>
  if c.Writes x then m (c.source + (x - c.destination)) else m x

variable {c : Copy} {m : Bytes} {x i : ℕ}

theorem apply_of_not_writes (h : ¬ c.Writes x) : c.apply m x = m x :=
  if_neg h

theorem apply_copied (h : i < c.length) : c.apply m (c.destination + i) = m (c.source + i) := by
  have hwrites : c.Writes (c.destination + i) := ⟨Nat.le_add_right _ _, Nat.add_lt_add_left h _⟩
  unfold apply
  rw [if_pos hwrites, Nat.add_sub_cancel_left]

end Copy

/-- The memory after some copies, the first one first. -/
def applyAll (copies : List Copy) (m : Bytes) : Bytes :=
  copies.foldl (fun m c => c.apply m) m

theorem applyAll_singleton (c : Copy) (m : Bytes) : applyAll [c] m = c.apply m :=
  rfl

/-- What no copy writes stays as it is. -/
theorem applyAll_of_not_writes {copies : List Copy} {m : Bytes} {x : ℕ}
    (h : ∀ c ∈ copies, ¬ c.Writes x) : applyAll copies m x = m x := by
  unfold applyAll
  induction copies generalizing m with
  | nil => rfl
  | cons c copies ih =>
    rw [List.forall_mem_cons] at h
    rw [List.foldl_cons, ih h.2, Copy.apply_of_not_writes h.1]

/-- The `length` bytes from `destination` on are set to zero. -/
structure Fill where
  destination : ℕ
  length : ℕ
deriving DecidableEq, Repr

namespace Fill

/-- The address lies in the range that is set to zero. -/
def Writes (f : Fill) (x : ℕ) : Prop :=
  f.destination ≤ x ∧ x < f.destination + f.length

instance (f : Fill) (x : ℕ) : Decidable (f.Writes x) :=
  inferInstanceAs (Decidable (_ ∧ _))

/-- The memory after it. -/
def apply (f : Fill) (m : Bytes) : Bytes := fun x =>
  if f.Writes x then 0 else m x

variable {f : Fill} {m : Bytes} {i : ℕ}

theorem apply_filled (h : i < f.length) : f.apply m (f.destination + i) = 0 :=
  if_pos ⟨Nat.le_add_right _ _, Nat.add_lt_add_left h _⟩

end Fill

end ByteMemory
