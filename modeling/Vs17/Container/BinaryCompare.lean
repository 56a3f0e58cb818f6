import Vs17.Container.BinarySearch

/-! # Counting the smaller elements of a sorted vector

`binaryCompare` looks for the first element above a number, whose index is the count of the
smaller elements if the number itself is not there. The probe reads the element in front of the
middle, which for the middle 0 is outside the vector. It comes to that when only the first
element is smaller and the intervals, halved from the left, get down to the first two elements.
-/

namespace Vs17.Container

open Arrays Ints Bisection Ascending

/-- The element in front of the middle is read first. -/
def compareProbe (vec : List ℤ) (num mid : ℤ) : Option Turn := do
  let before ← load vec (mid - 1)
  let x ← load vec mid
  return if before ≤ num ∧ x > num then .found else if x < num then .right else .left

def binaryCompare (n : ℕ) (vec : List ℤ) (num : ℤ) : Option ℤ :=
  search (compareProbe vec num) 0 n vec num

section Ones

variable {m : ℤ}

/-- The binary digits of the number begin with two ones. -/
def BeginsWithOnes (m : ℤ) : Prop :=
  ∃ k : ℕ, 3 * 2 ^ k ≤ m ∧ m < 4 * 2 ^ k

theorem beginsWithOnes_half_iff (h : 4 ≤ m) : BeginsWithOnes (m / 2) ↔ BeginsWithOnes m := by
  constructor
  · rintro ⟨k, hlo, hhi⟩
    exact ⟨k + 1, by omega, by omega⟩
  · rintro ⟨k, hlo, hhi⟩
    cases k with
    | zero => omega
    | succ k => exact ⟨k, by omega, by omega⟩

end Ones

section Probe

variable {vec : List ℤ} {num m w x l r i : ℤ}

theorem compareProbe_zero (vec : List ℤ) (num : ℤ) : compareProbe vec num 0 = none := rfl

theorem compareProbe_eq (hw : load vec (m - 1) = some w) (hx : load vec m = some x) :
    compareProbe vec num m =
      some (if w ≤ num ∧ x > num then .found else if x < num then .right else .left) := by
  unfold compareProbe
  rw [hw, hx]
  rfl

theorem of_compareProbe_found (h : compareProbe vec num m = some .found) :
    ∃ w x, load vec (m - 1) = some w ∧ load vec m = some x ∧ w ≤ num ∧ num < x := by
  have hprobe := h
  unfold compareProbe at hprobe
  obtain ⟨w, hw, hprobe⟩ := Option.bind_eq_some_iff.mp hprobe
  obtain ⟨x, hx, -⟩ := Option.bind_eq_some_iff.mp hprobe
  rw [compareProbe_eq hw hx] at h
  split_ifs at h with hfound
  · exact ⟨w, x, hw, hx, hfound⟩
  · cases h
  · cases h

theorem compareProbe_right_iff (hw : load vec (m - 1) = some w) (hx : load vec m = some x) :
    compareProbe vec num m = some .right ↔ x < num := by
  rw [compareProbe_eq hw hx]
  split_ifs with hfound hlt
  · simp [hfound.2.not_gt]
  · simp [hlt]
  · simp [hlt]

/-- The number of the smaller elements. -/
def smaller (vec : List ℤ) (num : ℤ) : ℤ :=
  vec.countP (· < num)

theorem gt_iff_of_load (hasc : vec.Pairwise (· ≤ ·)) (hnot : num ∉ vec)
    (hx : load vec i = some x) : num < x ↔ smaller vec num ≤ i := by
  have hne : x ≠ num := fun h => hnot (h ▸ mem_of_load hx)
  rw [smaller, ← not_lt, ← lt_iff_of_load hasc hx, not_lt]
  exact hne.symm.le_iff_lt.symm

/-- Where the number is not in the vector, the probe compares with the count. -/
theorem compareProbe_iff (hasc : vec.Pairwise (· ≤ ·)) (hnot : num ∉ vec) (hm : 1 ≤ m)
    (hlen : m < vec.length) : compareProbe vec num m ≠ none ∧
      (compareProbe vec num m = some .found ↔ m = smaller vec num) ∧
      (compareProbe vec num m = some .right ↔ m < smaller vec num) ∧
      (compareProbe vec num m = some .left ↔ smaller vec num < m) := by
  obtain ⟨w, hw⟩ : ∃ w, load vec (m - 1) = some w := exists_load (by omega) (by omega)
  obtain ⟨x, hx⟩ : ∃ x, load vec m = some x := exists_load (by omega) hlen
  have hwnum : w ≤ num ↔ m - 1 < smaller vec num := by
    rw [← not_lt, gt_iff_of_load hasc hnot hw, not_le]
  have hxnum := gt_iff_of_load hasc hnot hx
  have hxlt : x < num ↔ m < smaller vec num := lt_iff_of_load hasc hx
  rw [compareProbe_eq hw hx]
  refine ⟨Option.some_ne_none _, ?_, ?_, ?_⟩ <;> split_ifs <;> simp <;> omega

/-- The count is in the interval. -/
structure Brackets (vec : List ℤ) (num l r : ℤ) : Prop where
  nonneg : 0 ≤ l
  left_le : l ≤ smaller vec num
  le_right : smaller vec num ≤ r
  lt_length : r < vec.length

/-- Between the ends of the vector the loop finds the count if it need not look at the middle 0. -/
theorem bisect_counts (hasc : vec.Pairwise (· ≤ ·)) (hnot : num ∉ vec) (hone : 1 ≤ smaller vec num)
    (h : Brackets vec num l r) (hno : NoOverflow (compareProbe vec num) l r)
    (hfront : 1 ≤ l ∨ 2 ≤ smaller vec num ∨ ¬ BeginsWithOnes (r + 2)) :
    Loop.Ends (bisectBody (compareProbe vec num) 0) ⟨l, r⟩ (some (smaller vec num)) := by
  have hends := @bisect_ends (compareProbe vec num) 0 l r
    (fun l r => Brackets vec num l r ∧ (1 ≤ l ∨ 2 ≤ smaller vec num ∨ ¬ BeginsWithOnes (r + 2)))
    (· = some (smaller vec num))
    (fun l r hI hlt => ?_) (fun l r hI hle hprobe => ?_) (fun l r hI hle hprobe => ?_)
    (fun l r hI hle hprobe => ?_) (fun l r hI hle hprobe => ?_) h.nonneg ⟨h, hfront⟩ hno
  · obtain ⟨res, hends, rfl⟩ := hends
    exact hends
  · exact absurd (hI.1.left_le.trans hI.1.le_right) (not_le.mpr hlt)
  all_goals
    obtain ⟨⟨hpos, hlow, hhigh, hlen⟩, hfront⟩ := hI
    have hmid : 1 ≤ (l + r) / 2 := by
      by_contra hzero
      have hbegins : BeginsWithOnes (1 + 2) := ⟨0, by decide, by decide⟩
      obtain rfl : l = 0 := by omega
      obtain rfl : r = 1 := by omega
      rcases hfront with hl | htwo | hnot
      · omega
      · omega
      · exact hnot hbegins
    obtain ⟨hne, hfound, hright, hleft⟩ := compareProbe_iff hasc hnot hmid (by omega)
  · exact absurd hprobe hne
  · rw [hfound.mp hprobe]
  · have hlt := hright.mp hprobe
    exact ⟨⟨by omega, by omega, hhigh, hlen⟩, .inl (by omega)⟩
  · have hgt := hleft.mp hprobe
    refine ⟨⟨hpos, hlow, by omega, by omega⟩, ?_⟩
    rcases hfront with hl | htwo | hnot
    · exact .inl hl
    · exact .inr (.inl htwo)
    · by_cases hl : 1 ≤ l
      · exact .inl hl
      · obtain rfl : l = 0 := by omega
        have hhalf : (0 + r) / 2 - 1 + 2 = (r + 2) / 2 := by omega
        rw [hhalf, beginsWithOnes_half_iff (by omega)]
        exact .inr (.inr hnot)

/-- With one smaller element, such a length leads to the middle 0. -/
theorem bisect_front (hasc : vec.Pairwise (· ≤ ·)) (hnot : num ∉ vec) (hone : smaller vec num = 1)
    (hr : 1 ≤ r) (hlen : r < vec.length) (hbegins : BeginsWithOnes (r + 2))
    (hno : NoOverflow (compareProbe vec num) 0 r) :
    Loop.Ends (bisectBody (compareProbe vec num) 0) ⟨0, r⟩ none := by
  have hends := @bisect_ends (compareProbe vec num) 0 0 r
    (fun l r => l = 0 ∧ 1 ≤ r ∧ r < vec.length ∧ BeginsWithOnes (r + 2)) (· = none)
    (fun l r hI hlt => ?_) (fun l r hI hle hprobe => rfl) (fun l r hI hle hprobe => ?_)
    (fun l r hI hle hprobe => ?_) (fun l r hI hle hprobe => ?_) le_rfl ⟨rfl, hr, hlen, hbegins⟩ hno
  · obtain ⟨res, hends, rfl⟩ := hends
    exact hends
  · omega
  all_goals
    obtain ⟨rfl, hr, hlen, hbegins⟩ := hI
    have hmid : 1 ≤ (0 + r) / 2 := by
      by_contra hzero
      rw [show (0 + r) / 2 = 0 by omega, compareProbe_zero] at hprobe
      cases hprobe
    have hbig : 4 ≤ r + 2 := by omega
    rw [← beginsWithOnes_half_iff hbig] at hbegins
    obtain ⟨hne, hfound, hright, hleft⟩ := compareProbe_iff hasc hnot hmid (by omega)
  · have heq := hfound.mp hprobe
    obtain ⟨k, hlo, hhi⟩ := hbegins
    have hpow : (1 : ℤ) ≤ 2 ^ k := one_le_pow₀ (by decide)
    omega
  · have hlt := hright.mp hprobe
    omega
  · have hgt := hleft.mp hprobe
    refine ⟨rfl, by omega, by omega, ?_⟩
    rwa [show (0 + r) / 2 - 1 + 2 = (r + 2) / 2 by omega]

end Probe

section Result

variable {vec : List ℤ} {num first last : ℤ}

/-- `binaryCompare` returns the number of the smaller elements. -/
def Counts (vec : List ℤ) (num : ℤ) : Prop :=
  ∃ n₀, ∀ n ≥ n₀, binaryCompare n vec num = some (smaller vec num)

theorem counts_iff :
    Counts vec num ↔ Returns (compareProbe vec num) 0 vec num (smaller vec num) :=
  Iff.rfl

/-- Only the first element is smaller, and the intervals get down to the first two elements. -/
def ReadsFront (vec : List ℤ) (num : ℤ) : Prop :=
  (∃ z, load vec 1 = some z ∧ num < z) ∧ BeginsWithOnes (lastIndex vec + 2)

/-- The number is not above the first element, or it is the last one and not the one in front of
it, or it is between the ends but not in the vector, and the loop gets to the place for it. -/
def CompareFits (vec : List ℤ) (num : ℤ) : Prop :=
  ∃ first, load vec 0 = some first ∧ (num ≤ first ∨ first < num ∧
    ∃ last, load vec (lastIndex vec) = some last ∧
      ((last = num ∧ ∃ z, load vec (lastIndex vec - 1) = some z ∧ z < num) ∨
        (num < last ∧ num ∉ vec ∧ ¬ ReadsFront vec num ∧ SumsFit vec num)))

theorem smaller_eq_zero (hasc : vec.Pairwise (· ≤ ·)) (hfirst : load vec 0 = some first)
    (hle : num ≤ first) : smaller vec num = 0 := by
  have hiff := @lt_iff_of_load _ _ vec 0 first num hasc hfirst
  have hnot : ¬ (0 : ℤ) < smaller vec num := fun h => absurd (hiff.mpr h) (not_lt.mpr hle)
  have hpos : 0 ≤ smaller vec num := Int.natCast_nonneg _
  omega

theorem one_le_smaller (hasc : vec.Pairwise (· ≤ ·)) (hfirst : load vec 0 = some first)
    (hlt : first < num) : 1 ≤ smaller vec num :=
  (lt_iff_of_load hasc hfirst).mp hlt

/-- The last index is the count when the last element alone is the number. -/
theorem smaller_eq_lastIndex_iff (hasc : vec.Pairwise (· ≤ ·)) (hfirst : load vec 0 = some first)
    (hlt : first < num) (hlast : load vec (lastIndex vec) = some last) (hle : last ≤ num) :
    smaller vec num = lastIndex vec ↔
      last = num ∧ ∃ z, load vec (lastIndex vec - 1) = some z ∧ z < num := by
  have hone := one_le_smaller hasc hfirst hlt
  have hlastlt : last < num ↔ lastIndex vec < smaller vec num := lt_iff_of_load hasc hlast
  constructor
  · intro heq
    obtain ⟨hpos, hlen⟩ := load_bounds hlast
    obtain ⟨z, hz⟩ : ∃ z, load vec (lastIndex vec - 1) = some z :=
      exists_load (by omega) (by omega)
    have hzlt : z < num ↔ lastIndex vec - 1 < smaller vec num := lt_iff_of_load hasc hz
    exact ⟨by omega, z, hz, by omega⟩
  · rintro ⟨rfl, z, hz, hzlt⟩
    have hbefore : lastIndex vec - 1 < smaller vec last := (lt_iff_of_load hasc hz).mp hzlt
    omega

/-- A number of the vector that is not one of its ends is never counted right. -/
theorem not_counts_of_mem (hasc : vec.Pairwise (· ≤ ·)) (hfirst : load vec 0 = some first)
    (hlt : first < num) (hlast : load vec (lastIndex vec) = some last) (hgt : num < last)
    (hmem : num ∈ vec) : ¬ Counts vec num := by
  rw [counts_iff, returns_between_iff hfirst hlt hlast hgt]
  intro hends
  have hone := one_le_smaller hasc hfirst hlt
  rcases result_of_ends hends with hzero | hfound
  · omega
  · obtain ⟨w, x, -, hx, -, hxgt⟩ := of_compareProbe_found hfound
    obtain ⟨i, hi⟩ := exists_load_of_mem hmem
    have hnum : num < num ↔ i < smaller vec num := lt_iff_of_load hasc hi
    have hle := le_of_load hasc hx hi
    omega

theorem noOverflow_compare_iff (num : ℤ) (h : 0 ≤ lastIndex vec) :
    NoOverflow (compareProbe vec num) 0 (lastIndex vec) ↔ SumsFit vec num := by
  apply noOverflow_iff h
  intro m x hm hx
  obtain ⟨-, hlen⟩ := load_bounds hx
  obtain ⟨w, hw⟩ : ∃ w, load vec (m - 1) = some w := exists_load (by omega) (by omega)
  rw [ne_eq, compareProbe_right_iff hw hx, not_lt]

/-- A number that is not in the vector, between the ends. -/
theorem counts_between_iff (hasc : vec.Pairwise (· ≤ ·)) (hfirst : load vec 0 = some first)
    (hlt : first < num) (hlast : load vec (lastIndex vec) = some last) (hgt : num < last) :
    Counts vec num ↔ num ∉ vec ∧ ¬ ReadsFront vec num ∧ SumsFit vec num := by
  obtain ⟨hpos, hlen⟩ := load_bounds hlast
  have hone := one_le_smaller hasc hfirst hlt
  have hno := noOverflow_compare_iff num hpos
  by_cases hmem : num ∈ vec
  · exact iff_of_false (not_counts_of_mem hasc hfirst hlt hlast hgt hmem) fun h => h.1 hmem
  rw [counts_iff, returns_between_iff hfirst hlt hlast hgt, ← hno]
  have hright := (gt_iff_of_load hasc hmem hlast).mp hgt
  constructor
  · intro hends
    have hfit : NoOverflow (compareProbe vec num) 0 (lastIndex vec) := by
      by_contra hover
      cases hends.deterministic (overflow_ends le_rfl hpos (lastIndex_lt vec) hover)
    refine ⟨hmem, fun hreads => ?_, hfit⟩
    obtain ⟨⟨z, hz, hzgt⟩, hbegins⟩ := hreads
    have hle := (gt_iff_of_load hasc hmem hz).mp hzgt
    have hnone := bisect_front hasc hmem (by omega) (by omega) hlen hbegins hfit
    cases hends.deterministic hnone
  · rintro ⟨-, hreads, hfit⟩
    apply bisect_counts hasc hmem hone ⟨le_rfl, by omega, hright, hlen⟩ hfit
    by_cases htwo : 2 ≤ smaller vec num
    · exact .inr (.inl htwo)
    · obtain ⟨z, hz⟩ : ∃ z, load vec 1 = some z := exists_load (by decide) (by omega)
      have hzgt := (gt_iff_of_load hasc hmem hz).mpr (by omega)
      exact .inr (.inr fun hbegins => hreads ⟨⟨z, hz, hzgt⟩, hbegins⟩)

/-- `binaryCompare` counts the smaller elements in the cases where the number is not above the
first element, equals the last one alone, or fits into the vector without being there, the loop
not reading in front of the vector and no sum of the ends overflowing, and in no other case. -/
theorem binaryCompare_counts_iff (hasc : vec.Pairwise (· ≤ ·)) (num : ℤ) :
    Counts vec num ↔ CompareFits vec num := by
  unfold CompareFits
  cases hfirst : load vec 0 with
  | none =>
    simp only [counts_iff, not_returns_nil hfirst]
    simp
  | some first =>
    simp only [Option.some.injEq, exists_eq_left']
    rcases lt_or_ge first num with hlt | hge
    · cases hlast : load vec (lastIndex vec) with
      | none =>
        simp only [counts_iff, not_returns_last hfirst hlt hlast]
        simp [hlt]
      | some last =>
        simp only [Option.some.injEq, exists_eq_left', not_le.mpr hlt, false_or, hlt, true_and]
        rcases lt_or_ge num last with hgt | hle
        · rw [counts_between_iff hasc hfirst hlt hlast hgt]
          simp [hgt, hgt.ne']
        · rw [counts_iff, returns_last_iff hfirst hlt hlast hle,
            smaller_eq_lastIndex_iff hasc hfirst hlt hlast hle]
          simp [not_lt.mpr hle]
    · simp only [counts_iff, returns_first_iff hfirst hge, smaller_eq_zero hasc hfirst hge]
      simp [hge]

theorem binaryCompare_counts_five : Counts [3, 5, 12, 46] 13 ↔ CompareFits [3, 5, 12, 46] 13 :=
  binaryCompare_counts_iff (by decide) 13

/-- A number above the last element gives its index, one less than the count. -/
theorem binaryCompare_above : binaryCompare 9 [3, 5] 7 = some 1 ∧ ¬ Counts [3, 5] 7 := by
  refine ⟨by decide, ?_⟩
  rw [counts_iff, returns_last_iff rfl (by decide) rfl (by decide)]
  decide

end Result

/-- With two elements the loop reads in front of the vector. -/
example : binaryCompare 9 [3, 5] 4 = none := by decide

end Vs17.Container
