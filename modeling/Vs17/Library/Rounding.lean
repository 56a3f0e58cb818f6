import Mathlib.Algebra.Order.Floor.Ring
import Mathlib.Data.Int.Log
import Mathlib.Data.Rat.Floor
import Mathlib.Tactic.Linarith
import Mathlib.Tactic.NormNum
import Mathlib.Tactic.Positivity
import Mathlib.Tactic.Ring

/-! # Rounding to floating-point numbers

A rational is rounded to the nearest number of `p + 1` binary digits, and to the even one of two
that are as near. There are no bounds on the exponent.
-/

namespace Vs17.Rounding

section HalfEven

/-- The nearest integer, and of two the even one. -/
def halfEven (q : ℚ) : ℤ :=
  if q - ⌊q⌋ < 1 / 2 ∨ q - ⌊q⌋ = 1 / 2 ∧ Even ⌊q⌋ then ⌊q⌋ else ⌊q⌋ + 1

variable {q r : ℚ} {m : ℤ}

theorem halfEven_le_iff (hm : Even m) : halfEven q ≤ m ↔ q ≤ m + 1 / 2 := by
  have hlo := Int.floor_le q
  have hhi := Int.lt_floor_add_one q
  rw [halfEven]
  rcases lt_trichotomy ⌊q⌋ m with hlt | rfl | hgt
  · have hcast : (⌊q⌋ : ℚ) + 1 ≤ m := mod_cast hlt
    refine iff_of_true ?_ (by linarith)
    split_ifs <;> omega
  · split_ifs with hdown
    · exact iff_of_true le_rfl (by rcases hdown with h | h <;> linarith)
    · have hup : ¬ q ≤ ⌊q⌋ + 1 / 2 := fun hle => hdown <| by
        rcases hle.lt_or_eq with h | h
        · exact .inl (by linarith)
        · exact .inr ⟨by linarith, hm⟩
      exact iff_of_false (by omega) hup
  · have hcast : (m : ℚ) + 1 ≤ ⌊q⌋ := mod_cast hgt
    refine iff_of_false ?_ (by linarith)
    split_ifs <;> omega

theorem halfEven_mono (h : q ≤ r) : halfEven q ≤ halfEven r := by
  have hfloor : ⌊q⌋ ≤ ⌊r⌋ := Int.floor_mono h
  rcases hfloor.lt_or_eq with hlt | heq
  · rw [halfEven, halfEven]
    split_ifs <;> omega
  · -- if the larger one is rounded down, so is the smaller one
    have hdown : (r - ⌊r⌋ < 1 / 2 ∨ r - ⌊r⌋ = 1 / 2 ∧ Even ⌊r⌋) →
        q - ⌊r⌋ < 1 / 2 ∨ q - ⌊r⌋ = 1 / 2 ∧ Even ⌊r⌋ := by
      rintro (hr | ⟨hr, heven⟩)
      · exact .inl (by linarith)
      · rcases h.lt_or_eq with hlt | rfl
        · exact .inl (by linarith)
        · exact .inr ⟨hr, heven⟩
    rw [halfEven, halfEven, heq]
    split_ifs with hq hr hr
    · exact le_rfl
    · exact (Int.lt_succ _).le
    · exact absurd (hdown hr) hq
    · exact le_rfl

@[simp] theorem halfEven_intCast (m : ℤ) : halfEven m = m := by
  simp [halfEven]

theorem le_halfEven (h : (m : ℚ) ≤ q) : m ≤ halfEven q :=
  (halfEven_intCast m).symm.le.trans (halfEven_mono h)

theorem halfEven_le (h : q ≤ (m : ℚ)) : halfEven q ≤ m :=
  (halfEven_mono h).trans (halfEven_intCast m).le

end HalfEven

/-- The last digit of the number counts so much. -/
def ulp (p : ℕ) (q : ℚ) : ℚ := 2 ^ (Int.log 2 |q| - p)

/-- The nearest number of `p + 1` digits. -/
def nearest (p : ℕ) (q : ℚ) : ℚ := halfEven (q / ulp p q) * ulp p q

variable {p : ℕ} {q r : ℚ} {k m : ℤ}

theorem zpow_split (p : ℕ) (k : ℤ) : (2 : ℚ) ^ k = ((2 ^ p : ℤ) : ℚ) * 2 ^ (k - p) := by
  have hp : ((2 ^ p : ℤ) : ℚ) = 2 ^ (p : ℤ) := by norm_cast
  rw [hp, ← zpow_add₀ two_ne_zero]
  congr 1
  ring

theorem zpow_split_succ (p : ℕ) (k : ℤ) :
    (2 : ℚ) ^ (k + 1) = ((2 ^ (p + 1) : ℤ) : ℚ) * 2 ^ (k - p) := by
  rw [zpow_split (p + 1) (k + 1)]
  congr 2
  push_cast
  ring

@[simp] theorem nearest_zero (p : ℕ) : nearest p 0 = 0 := by
  have hzero := halfEven_intCast 0
  rw [Int.cast_zero] at hzero
  rw [nearest, zero_div, hzero, Int.cast_zero, zero_mul]

theorem nearest_eq (h : 2 ^ k ≤ q) (h' : q < 2 ^ (k + 1)) :
    nearest p q = halfEven (q / 2 ^ (k - p)) * 2 ^ (k - p) := by
  have hpos : 0 < q := (zpow_pos two_pos k).trans_le h
  have hlog : Int.log 2 |q| = k := by
    rw [abs_of_pos hpos]
    apply le_antisymm
    · exact Int.lt_add_one_iff.mp ((Int.lt_zpow_iff_log_lt one_lt_two hpos).mp (mod_cast h'))
    · exact (Int.zpow_le_iff_le_log one_lt_two hpos).mp (mod_cast h)
  rw [nearest, ulp, hlog]

/-- A number of `p + 1` digits is not changed. -/
theorem nearest_eq_self (h : 2 ^ k ≤ q) (h' : q < 2 ^ (k + 1)) (hm : q = m * 2 ^ (k - p)) :
    nearest p q = q := by
  have hunit : (2 : ℚ) ^ (k - p) ≠ 0 := zpow_ne_zero _ two_ne_zero
  rw [nearest_eq h h', hm, mul_div_cancel_right₀ _ hunit, halfEven_intCast]

theorem nearest_zpow : nearest p (2 ^ k) = 2 ^ k :=
  nearest_eq_self le_rfl (zpow_lt_zpow_right₀ one_lt_two (Int.lt_succ k)) (zpow_split p k)

/-- The powers of two around a number. -/
theorem exists_zpow (hq : 0 < q) : ∃ k : ℤ, 2 ^ k ≤ q ∧ q < 2 ^ (k + 1) :=
  ⟨Int.log 2 q, mod_cast Int.zpow_log_le_self one_lt_two hq,
    mod_cast Int.lt_zpow_succ_log_self one_lt_two q⟩

theorem zpow_le_nearest (h : 2 ^ k ≤ q) (h' : q < 2 ^ (k + 1)) : 2 ^ k ≤ nearest p q := by
  have hunit : (0 : ℚ) < 2 ^ (k - p) := zpow_pos two_pos _
  have hround : (2 ^ p : ℤ) ≤ halfEven (q / 2 ^ (k - p)) := by
    apply le_halfEven
    rwa [le_div_iff₀ hunit, ← zpow_split]
  rw [nearest_eq h h', zpow_split p k]
  exact mul_le_mul_of_nonneg_right (mod_cast hround) hunit.le

theorem nearest_le_zpow (h : 2 ^ k ≤ q) (h' : q < 2 ^ (k + 1)) : nearest p q ≤ 2 ^ (k + 1) := by
  have hunit : (0 : ℚ) < 2 ^ (k - p) := zpow_pos two_pos _
  have hround : halfEven (q / 2 ^ (k - p)) ≤ (2 ^ (p + 1) : ℤ) := by
    apply halfEven_le
    rw [div_le_iff₀ hunit, ← zpow_split_succ]
    exact h'.le
  rw [nearest_eq h h', zpow_split_succ p k]
  exact mul_le_mul_of_nonneg_right (mod_cast hround) hunit.le

theorem nearest_pos (hq : 0 < q) : 0 < nearest p q := by
  obtain ⟨k, h, h'⟩ := exists_zpow hq
  exact (zpow_pos two_pos k).trans_le (zpow_le_nearest h h')

theorem nearest_mono (hq : 0 ≤ q) (h : q ≤ r) : nearest p q ≤ nearest p r := by
  rcases hq.lt_or_eq with hq | rfl
  · obtain ⟨k, hk, hk'⟩ := exists_zpow hq
    obtain ⟨l, hl, hl'⟩ := exists_zpow (hq.trans_le h)
    have hkl : k < l + 1 := (zpow_lt_zpow_iff_right₀ one_lt_two).mp (hk.trans_lt (h.trans_lt hl'))
    rcases (Int.lt_add_one_iff.mp hkl).lt_or_eq with hlt | rfl
    · calc nearest p q ≤ 2 ^ (k + 1) := nearest_le_zpow hk hk'
        _ ≤ 2 ^ l := zpow_le_zpow_right₀ one_le_two (by omega)
        _ ≤ nearest p r := zpow_le_nearest hl hl'
    · have hunit : (0 : ℚ) < 2 ^ (k - p) := zpow_pos two_pos _
      rw [nearest_eq hk hk', nearest_eq hl hl']
      have hround := halfEven_mono (div_le_div_of_nonneg_right h hunit.le)
      exact mul_le_mul_of_nonneg_right (mod_cast hround) hunit.le
  · rw [nearest_zero]
    rcases h.lt_or_eq with hr | rfl
    · exact (nearest_pos hr).le
    · exact (nearest_zero p).ge

theorem nearest_nonneg (hq : 0 ≤ q) : 0 ≤ nearest p q := by
  have hle := nearest_mono (p := p) le_rfl hq
  rwa [nearest_zero] at hle

theorem nearest_natCast {n : ℕ} (h : n < 2 ^ (p + 1)) : nearest p n = n := by
  rcases Nat.eq_zero_or_pos n with rfl | hn
  · rw [Nat.cast_zero, nearest_zero]
  · obtain ⟨j, rfl⟩ := Nat.exists_eq_add_of_le
      (Nat.lt_succ_iff.mp ((Nat.log_lt_iff_lt_pow one_lt_two hn.ne').mpr h))
    have hle : ((2 ^ Nat.log 2 n : ℕ) : ℚ) ≤ n := Nat.cast_le.mpr (Nat.pow_log_le_self 2 hn.ne')
    have hlt : (n : ℚ) < (2 ^ (Nat.log 2 n + 1) : ℕ) :=
      Nat.cast_lt.mpr (Nat.lt_pow_succ_log_self one_lt_two n)
    refine nearest_eq_self (k := Nat.log 2 n) (m := n * 2 ^ j) (by simpa using hle) ?_ ?_
    · rw [← Nat.cast_succ, zpow_natCast]
      simpa using hlt
    · push_cast
      rw [sub_add_cancel_left, zpow_neg, zpow_natCast, mul_assoc,
        mul_inv_cancel₀ (pow_ne_zero j two_ne_zero), mul_one]

/-- What is rounded to at most an even number of `p + 1` digits. -/
theorem nearest_le_iff (hm : Even m) (hlo : 2 ^ p ≤ m) (hhi : m < 2 ^ (p + 1)) (hq : 0 ≤ q) :
    nearest p q ≤ m * 2 ^ (k - p) ↔ q ≤ (m + 1 / 2) * 2 ^ (k - p) := by
  have hunit : (0 : ℚ) < 2 ^ (k - p) := zpow_pos two_pos _
  have hlow : (2 : ℚ) ^ k ≤ m * 2 ^ (k - p) := by
    rw [zpow_split p k]
    exact mul_le_mul_of_nonneg_right (mod_cast hlo) hunit.le
  have hhigh : (m + 1 : ℚ) * 2 ^ (k - p) ≤ 2 ^ (k + 1) := by
    rw [zpow_split_succ p k]
    exact mul_le_mul_of_nonneg_right (mod_cast hhi) hunit.le
  rcases lt_or_ge q (2 ^ k) with hbelow | hge
  · have hround : nearest p q ≤ 2 ^ k := (nearest_mono hq hbelow.le).trans nearest_zpow.le
    exact iff_of_true (hround.trans hlow) (by linarith)
  · rcases lt_or_ge q (2 ^ (k + 1)) with hlt | habove
    · rw [nearest_eq hge hlt, mul_le_mul_iff_of_pos_right hunit, Int.cast_le, halfEven_le_iff hm,
        div_le_iff₀ hunit]
    · have hround : 2 ^ (k + 1) ≤ nearest p q :=
        nearest_zpow.ge.trans (nearest_mono (zpow_pos two_pos _).le habove)
      exact iff_of_false (by linarith) (by linarith)

end Vs17.Rounding
