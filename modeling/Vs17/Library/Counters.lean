import Mathlib.Algebra.BigOperators.Group.List.Basic
import Mathlib.Data.UInt
import Mathlib.Tactic.Abel

/-! # Counters of 64 bits

A counter that is read twice has counted the difference of both values, modulo 2^64. For several
counters the difference of the sums is the sum of the differences, and it is exact as long as it
fits, whether the sums themselves do or not.
-/

namespace Vs17.Counters

/-- How much more one counter has grown than another. -/
theorem toNat_sub_sub_sub {a a' b b' : UInt64} (ha : a ≤ a') (hb : b ≤ b')
    (h : b'.toNat - b.toNat ≤ a'.toNat - a.toNat) :
    (a' - b' - (a - b)).toNat = a'.toNat - a.toNat - (b'.toNat - b.toNat) := by
  have hsubA := UInt64.toNat_sub_of_le _ _ ha
  have hsubB := UInt64.toNat_sub_of_le _ _ hb
  have hle : b' - b ≤ a' - a := by rwa [UInt64.le_iff_toNat_le, hsubA, hsubB]
  rw [sub_sub_sub_comm, UInt64.toNat_sub_of_le _ _ hle, hsubA, hsubB]

/-- The difference of two sums over the same counters. -/
theorem sum_map_zip_sub {α G : Type*} [AddCommGroup G] (f : α → G) {a b : List α}
    (h : b.length = a.length) :
    (b.map f).sum - (a.map f).sum = ((a.zip b).map fun p => f p.2 - f p.1).sum := by
  induction a generalizing b with
  | nil =>
    obtain rfl : b = [] := List.eq_nil_of_length_eq_zero h
    simp
  | cons x a ih =>
    cases b with
    | nil => simp at h
    | cons y b =>
      rw [List.zip_cons_cons, List.map_cons, List.map_cons, List.map_cons, List.sum_cons,
        List.sum_cons, List.sum_cons, ← ih (by simpa using h)]
      abel

/-- A sum of words that fits is the sum of their values. -/
theorem toNat_sum {α : Type*} {f : α → UInt64} {g : α → ℕ} {l : List α}
    (hfg : ∀ x ∈ l, (f x).toNat = g x) (hfits : (l.map g).sum < 2 ^ 64) :
    (l.map f).sum.toNat = (l.map g).sum := by
  induction l with
  | nil => rfl
  | cons x l ih =>
    rw [List.map_cons, List.sum_cons] at hfits ⊢
    rw [List.forall_mem_cons] at hfg
    rw [List.map_cons, List.sum_cons, UInt64.toNat_add, hfg.1, ih hfg.2 (by omega)]
    exact Nat.mod_eq_of_lt hfits

end Vs17.Counters
