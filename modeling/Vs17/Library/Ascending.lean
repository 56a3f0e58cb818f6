import Mathlib.Order.Lattice
import Vs17.Library.Arrays

/-! # Ascending arrays

In an ascending array the elements below a bound stand in front, and their number is the index
of the first other one.
-/

namespace Vs17.Ascending

open Arrays

theorem exists_load_of_mem {α : Type} {a : List α} {x : α} (h : x ∈ a) :
    ∃ i, load a i = some x := by
  obtain ⟨n, hn⟩ := List.mem_iff_getElem?.mp h
  exact ⟨n, by rw [load_nat, hn]⟩

variable {α : Type} [LinearOrder α] {a : List α} {i j : ℤ} {x y b : α}

theorem le_of_load (hasc : a.Pairwise (· ≤ ·)) (hi : load a i = some x) (hj : load a j = some y)
    (hij : i ≤ j) : x ≤ y := by
  obtain ⟨hpos, -⟩ := load_bounds hi
  rw [load, if_pos hpos] at hi
  rw [load, if_pos (hpos.trans hij)] at hj
  obtain ⟨hin, rfl⟩ := List.getElem?_eq_some_iff.mp hi
  obtain ⟨hjn, rfl⟩ := List.getElem?_eq_some_iff.mp hj
  rcases hij.lt_or_eq with hlt | rfl
  · exact List.pairwise_iff_getElem.mp hasc _ _ hin hjn (by omega)
  · exact le_rfl

/-- The elements below a bound are those whose index is below their number. -/
theorem lt_iff_of_getElem? {n : ℕ} (hasc : a.Pairwise (· ≤ ·)) (hn : a[n]? = some x) :
    x < b ↔ n < a.countP (· < b) := by
  induction a generalizing n with
  | nil => simp at hn
  | cons c a ih =>
    obtain ⟨hc, hasc⟩ := List.pairwise_cons.mp hasc
    by_cases hcb : c < b
    · rw [List.countP_cons_of_pos (by simpa using hcb)]
      cases n with
      | zero =>
        obtain rfl : c = x := by simpa using hn
        simp [hcb]
      | succ n =>
        rw [List.getElem?_cons_succ] at hn
        rw [ih hasc hn, Nat.succ_lt_succ_iff]
    · have hzero : (c :: a).countP (· < b) = 0 := by
        rw [List.countP_eq_zero]
        intro y hy
        rcases List.mem_cons.mp hy with rfl | hy
        · simpa using hcb
        · simpa using (not_lt.mp hcb).trans (hc y hy)
      have hx := List.countP_eq_zero.mp hzero x (List.mem_of_getElem? hn)
      simpa [hzero] using hx

theorem lt_iff_of_load (hasc : a.Pairwise (· ≤ ·)) (hi : load a i = some x) :
    x < b ↔ i < a.countP (· < b) := by
  obtain ⟨hpos, -⟩ := load_bounds hi
  obtain ⟨n, rfl⟩ := Int.eq_ofNat_of_zero_le hpos
  rw [load_nat] at hi
  rw [lt_iff_of_getElem? hasc hi, Int.ofNat_lt]

end Vs17.Ascending
