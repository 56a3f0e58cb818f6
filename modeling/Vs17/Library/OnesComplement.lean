import Mathlib.Data.Nat.ModEq
import Mathlib.Algebra.BigOperators.Group.List.Basic

/-! # One's complement sums

A one's complement addition puts the carry out of the word back in at its low end. The sum of a
list of words can as well be taken without a bound, with all carries put back at the end.
-/

namespace Vs17.OnesComplement

/-- The carries out of a word of `B` values, put back in. -/
def fold (B s : ℕ) : ℕ := s / B + s % B

/-- The one's complement sum. -/
def sum (B : ℕ) (ws : List ℕ) : ℕ := ws.foldl (fun n w => fold B (n + w)) 0

/-- The number `s` comes down to the word `n` when its carries are put back. -/
structure Reduces (B s n : ℕ) : Prop where
  lt : n < B
  modEq : n ≡ s [MOD B - 1]
  eq_zero_iff : n = 0 ↔ s = 0

variable {B s n m w : ℕ} {ws : List ℕ}

theorem modEq_fold (hB : 0 < B) : fold B s ≡ s [MOD B - 1] := by
  have hone : 1 ≡ B [MOD B - 1] := (Nat.modEq_sub hB).symm
  calc fold B s = 1 * (s / B) + s % B := by rw [fold, one_mul]
    _ ≡ B * (s / B) + s % B [MOD B - 1] := (hone.mul_right _).add_right _
    _ = s := Nat.div_add_mod s B

theorem fold_eq_zero_iff : fold B s = 0 ↔ s = 0 := by
  constructor
  · intro h
    obtain ⟨hdiv, hmod⟩ := Nat.add_eq_zero_iff.mp h
    rw [← Nat.div_add_mod s B, hdiv, hmod, mul_zero]
  · rintro rfl
    simp [fold]

/-- At most one carry comes out of a sum of two words. -/
theorem div_eq_one (hle : B ≤ s) (hlt : s < 2 * B) : s / B = 1 :=
  Nat.div_eq_of_lt_le (by omega) (by omega)

theorem fold_lt (h : s < 2 * B - 1) : fold B s < B := by
  rcases Nat.lt_or_ge s B with hs | hs
  · rwa [fold, Nat.div_eq_of_lt hs, Nat.mod_eq_of_lt hs, zero_add]
  · rw [fold, div_eq_one hs (by omega), Nat.mod_eq_sub_mod hs, Nat.mod_eq_of_lt (by omega)]
    omega

theorem Reduces.unique (hn : Reduces B s n) (hm : Reduces B s m) : n = m := by
  rcases Nat.eq_zero_or_pos s with hs | hs
  · rw [hn.eq_zero_iff.mpr hs, hm.eq_zero_iff.mpr hs]
  · have hnpos : n ≠ 0 := fun h => hs.ne' (hn.eq_zero_iff.mp h)
    have hmpos : m ≠ 0 := fun h => hs.ne' (hm.eq_zero_iff.mp h)
    obtain ⟨n, rfl⟩ := Nat.exists_eq_succ_of_ne_zero hnpos
    obtain ⟨m, rfl⟩ := Nat.exists_eq_succ_of_ne_zero hmpos
    have hnm : n ≡ m [MOD B - 1] := (hn.modEq.trans hm.modEq.symm).add_right_cancel' 1
    rw [hnm.eq_of_lt_of_lt (Nat.lt_sub_of_add_lt hn.lt) (Nat.lt_sub_of_add_lt hm.lt)]

theorem reduces_zero (hB : 0 < B) : Reduces B 0 0 :=
  ⟨hB, rfl, Iff.rfl⟩

theorem Reduces.fold_add (h : Reduces B s n) (hw : w < B) : Reduces B (s + w) (fold B (n + w)) := by
  have hlt := h.lt
  refine ⟨fold_lt (by omega), (modEq_fold (by omega)).trans (h.modEq.add_right w), ?_⟩
  rw [fold_eq_zero_iff, Nat.add_eq_zero_iff, Nat.add_eq_zero_iff, h.eq_zero_iff]

theorem Reduces.foldl (h : Reduces B s n) (hws : ∀ w ∈ ws, w < B) :
    Reduces B (s + ws.sum) (ws.foldl (fun n w => fold B (n + w)) n) := by
  induction ws generalizing s n with
  | nil => exact h
  | cons w ws ih =>
    obtain ⟨hw, hws⟩ := List.forall_mem_cons.mp hws
    rw [List.sum_cons, ← add_assoc]
    exact ih (h.fold_add hw) hws

theorem reduces_sum (hB : 0 < B) (hws : ∀ w ∈ ws, w < B) : Reduces B ws.sum (sum B ws) := by
  have h := (reduces_zero hB).foldl hws
  rwa [zero_add] at h

/-- The carries out of a number of two digits are put back in two rounds. Of the second round only
the word is kept. -/
theorem reduces_fold_mod (hs : s < B * B) :
    Reduces B s ((fold B s + fold B s / B) % B) := by
  have hB : 0 < B := Nat.pos_of_ne_zero fun h => by simp [h] at hs
  have hdiv : s / B < B := Nat.div_lt_of_lt_mul hs
  have hmod : s % B < B := Nat.mod_lt s hB
  have hlt : fold B s < 2 * B - 1 := by
    rw [fold]
    omega
  have hround : (fold B s + fold B s / B) % B = fold B (fold B s) := by
    rcases Nat.lt_or_ge (fold B s) B with ht | ht
    · rw [fold.eq_1 B (fold B s), Nat.div_eq_of_lt ht, add_zero, zero_add]
    · rw [fold.eq_1 B (fold B s), div_eq_one ht (by omega), Nat.mod_eq_sub_mod (by omega),
        Nat.mod_eq_sub_mod ht, Nat.mod_eq_of_lt (by omega), Nat.mod_eq_of_lt (by omega)]
      omega
  rw [hround]
  exact ⟨fold_lt hlt, (modEq_fold hB).trans (modEq_fold hB),
    fold_eq_zero_iff.trans fold_eq_zero_iff⟩

/-- A number and the complement of its word come down to the word of ones. -/
theorem Reduces.complement (hB : 1 < B) (h : Reduces B s n) :
    Reduces B (s + (B - 1 - n)) (B - 1) := by
  have hlt := h.lt
  have hzero := h.eq_zero_iff
  refine ⟨by omega, ?_, by omega⟩
  calc B - 1 = n + (B - 1 - n) := by omega
    _ ≡ s + (B - 1 - n) [MOD B - 1] := h.modEq.add_right _

end Vs17.OnesComplement
