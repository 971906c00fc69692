import Mathlib.Tactic
import Mathlib.Data.List.Lex

/-!
# Bytes and byte strings

Byte strings are `List UInt8`. The linear order of bytes is the unsigned one, so
the lexicographic order Mathlib gives to lists is the order of `memcmp` followed by
the comparison of lengths. `bigEndian` is the network byte order of a number.
-/

/-- Bytes are ordered as unsigned numbers. -/
instance byteLinearOrder : LinearOrder UInt8 where
  le_refl := UInt8.le_refl
  le_trans _ _ _ := UInt8.le_trans
  le_antisymm _ _ := UInt8.le_antisymm
  le_total := UInt8.le_total
  lt_iff_le_not_ge _ _ := by
    rw [UInt8.not_le]
    exact ⟨fun h => ⟨UInt8.le_of_lt h, h⟩, And.right⟩
  toDecidableLE := inferInstance
  toDecidableEq := inferInstance
  toDecidableLT := inferInstance

namespace Bytes

/-- The `k` lowest bytes of a number, the highest of them first. -/
def bigEndian : ℕ → ℕ → List UInt8
  | 0, _ => []
  | k + 1, n => UInt8.ofNat (n / 256 ^ k) :: bigEndian k n

/-- The number that the bytes make in network byte order. -/
def ofBigEndian (bytes : List UInt8) : ℕ :=
  bytes.foldl (fun n b => 256 * n + b.toNat) 0

@[simp] theorem bigEndian_length (k n : ℕ) : (bigEndian k n).length = k := by
  induction k with
  | zero => rfl
  | succ k ih => rw [bigEndian, List.length_cons, ih]

theorem ofBigEndian_lt (bytes : List UInt8) : ofBigEndian bytes < 256 ^ bytes.length := by
  induction bytes using List.reverseRecOn with
  | nil => exact Nat.one_pos
  | append_singleton bytes b ih =>
    have hb : b.toNat < 256 := b.toNat_lt
    have hlast : ofBigEndian (bytes ++ [b]) = 256 * ofBigEndian bytes + b.toNat := by
      simp [ofBigEndian]
    rw [hlast, List.length_append, List.length_singleton, Nat.pow_succ]
    omega

theorem foldl_bigEndian (k n m : ℕ) :
    (bigEndian k n).foldl (fun n b => 256 * n + b.toNat) m = 256 ^ k * m + n % 256 ^ k := by
  induction k generalizing m with
  | zero => simp [bigEndian, Nat.mod_one]
  | succ k ih =>
    have hdigits : n % 256 ^ (k + 1) = n % 256 ^ k + 256 ^ k * (n / 256 ^ k % 256) := by
      rw [Nat.pow_succ]
      exact Nat.mod_mul
    have hbyte : (UInt8.ofNat (n / 256 ^ k)).toNat = n / 256 ^ k % 256 := UInt8.toNat_ofNat'
    rw [bigEndian, List.foldl_cons, ih, hbyte, hdigits]
    ring

theorem ofBigEndian_bigEndian {k n : ℕ} (hn : n < 256 ^ k) :
    ofBigEndian (bigEndian k n) = n := by
  unfold ofBigEndian
  rw [foldl_bigEndian, Nat.mul_zero, Nat.zero_add, Nat.mod_eq_of_lt hn]

end Bytes
