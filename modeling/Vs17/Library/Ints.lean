import Mathlib.Algebra.Order.Group.Int
import Mathlib.Data.Int.Notation
import Mathlib.Tactic.NormNum

/-! # Signed integers of 32 bits

A conversion to `int` keeps the low 32 bits, an arithmetic result outside the range of `int`
is undefined.
-/

namespace Vs17.Ints

/-- The conversion to `int`. -/
def toInt32 (x : ℤ) : ℤ :=
  x.bmod (2 ^ 32)

/-- The result of an arithmetic operation on `int`. -/
def checked (x : ℤ) : Option ℤ :=
  if -2 ^ 31 ≤ x ∧ x < 2 ^ 31 then some x else none

variable {x : ℤ}

/-- The value converted differs by a multiple of the modulus. -/
theorem exists_toInt32 (x : ℤ) : ∃ k, x = toInt32 x + 2 ^ 32 * k ∧ -2 ^ 31 ≤ toInt32 x ∧
    toInt32 x < 2 ^ 31 := by
  have hbmod : toInt32 x = if x % 4294967296 < 2147483648 then x % 4294967296
      else x % 4294967296 - 4294967296 := by
    rw [toInt32, Int.bmod_def]
    norm_num
  split_ifs at hbmod
  · exact ⟨x / 4294967296, by omega, by omega, by omega⟩
  · exact ⟨x / 4294967296 + 1, by omega, by omega, by omega⟩

theorem toInt32_eq (hlo : -2 ^ 31 ≤ x) (hhi : x < 2 ^ 31) : toInt32 x = x := by
  obtain ⟨k, hk, hlo', hhi'⟩ := exists_toInt32 x
  omega

theorem toInt32_lt (x : ℤ) : toInt32 x < 2 ^ 31 := by
  obtain ⟨k, hk, hlo, hhi⟩ := exists_toInt32 x
  exact hhi

theorem toInt32_le (h : 0 ≤ x) : toInt32 x ≤ x := by
  obtain ⟨k, hk, hlo, hhi⟩ := exists_toInt32 x
  omega

theorem toInt32_lt_of_le (h : 2 ^ 31 ≤ x) : toInt32 x < x := by
  obtain ⟨k, hk, hlo, hhi⟩ := exists_toInt32 x
  omega

theorem checked_eq (hlo : -2 ^ 31 ≤ x) (hhi : x < 2 ^ 31) : checked x = some x :=
  if_pos ⟨hlo, hhi⟩

theorem checked_eq_none (h : 2 ^ 31 ≤ x) : checked x = none :=
  if_neg (by omega)

theorem of_checked {y : ℤ} (h : checked x = some y) : y = x ∧ -2 ^ 31 ≤ x ∧ x < 2 ^ 31 := by
  unfold checked at h
  split_ifs at h with hrange
  exact ⟨(Option.some.inj h).symm, hrange⟩

theorem checked_natCast (m : ℕ) : checked m = if m < 2 ^ 31 then some (m : ℤ) else none := by
  unfold checked
  split_ifs <;> first | rfl | omega

theorem toInt32_natCast {m : ℕ} (h : m < 2 ^ 31) : toInt32 m = m :=
  toInt32_eq (by omega) (by omega)

end Vs17.Ints
