import Vs17.Library.Ascending
import Vs17.Library.Bisection

/-! # Searching a sorted vector

`binarySearch` looks for a number. Like `binaryCompare` it tries the ends of the vector first and
then halves the interval between them.
-/

namespace Vs17.Container

open Arrays Ints Bisection Ascending

/-- What `binarySearch` and `binaryCompare` do, up to the test at the middle and the value for
nothing found. No result is an access outside the vector or an arithmetic overflow. -/
def search (probe : ℤ → Option Turn) (missing : ℤ) (n : ℕ) (vec : List ℤ) (num : ℤ) :
    Option ℤ := do
  let right := toInt32 (vec.length - 1)
  let first ← load vec 0
  if first ≥ num then return 0
  let last ← load vec right
  if last ≤ num then return right
  (Loop.run (bisectBody probe missing) n ⟨0, right⟩).join

def searchProbe (vec : List ℤ) (num mid : ℤ) : Option Turn := do
  let x ← load vec mid
  return if x = num then .found else if x < num then .right else .left

def binarySearch (n : ℕ) (vec : List ℤ) (num : ℤ) : Option ℤ :=
  search (searchProbe vec num) (-1) n vec num

section Search

variable {probe : ℤ → Option Turn} {missing num first last v : ℤ} {vec : List ℤ}

/-- The index of the last element, as an `int`. -/
def lastIndex (vec : List ℤ) : ℤ :=
  toInt32 (vec.length - 1)

/-- With enough fuel the search returns this value. -/
def Returns (probe : ℤ → Option Turn) (missing : ℤ) (vec : List ℤ) (num v : ℤ) : Prop :=
  ∃ n₀, ∀ n ≥ n₀, search probe missing n vec num = some v

theorem returns_iff_of_eq {w : ℤ} (h : ∀ n, search probe missing n vec num = some w) :
    Returns probe missing vec num v ↔ v = w := by
  constructor
  · rintro ⟨n, hn⟩
    exact Option.some.inj ((hn n le_rfl).symm.trans (h n))
  · rintro rfl
    exact ⟨0, fun n _ => h n⟩

theorem not_returns_of_none (h : ∀ n, search probe missing n vec num = none) :
    ¬ Returns probe missing vec num v := by
  rintro ⟨n, hn⟩
  cases (h n).symm.trans (hn n le_rfl)

theorem not_returns_nil (h : load vec 0 = none) : ¬ Returns probe missing vec num v :=
  not_returns_of_none fun n => by simp [search, h]

theorem returns_first_iff (h : load vec 0 = some first) (hle : num ≤ first) :
    Returns probe missing vec num v ↔ v = 0 :=
  returns_iff_of_eq fun n => by simp [search, h, hle]

theorem not_returns_last (h : load vec 0 = some first) (hlt : first < num)
    (hlast : load vec (lastIndex vec) = none) : ¬ Returns probe missing vec num v := by
  rw [lastIndex] at hlast
  exact not_returns_of_none fun n => by simp [search, h, not_le.mpr hlt, hlast]

theorem returns_last_iff (h : load vec 0 = some first) (hlt : first < num)
    (hlast : load vec (lastIndex vec) = some last) (hle : last ≤ num) :
    Returns probe missing vec num v ↔ v = lastIndex vec := by
  rw [lastIndex] at hlast ⊢
  exact returns_iff_of_eq fun n => by simp [search, h, not_le.mpr hlt, hlast, hle]

theorem returns_between_iff (h : load vec 0 = some first) (hlt : first < num)
    (hlast : load vec (lastIndex vec) = some last) (hgt : num < last) :
    Returns probe missing vec num v ↔
      Loop.Ends (bisectBody probe missing) ⟨0, lastIndex vec⟩ (some v) := by
  have hloop : ∀ n, search probe missing n vec num =
      (Loop.run (bisectBody probe missing) n ⟨0, lastIndex vec⟩).join := by
    rw [lastIndex] at hlast ⊢
    intro n
    simp [search, h, not_le.mpr hlt, hlast, not_le.mpr hgt]
  unfold Returns
  simp only [hloop]
  constructor
  · rintro ⟨n, hn⟩
    exact Loop.ends_of_join (hn n le_rfl)
  · exact Loop.Ends.exists_join

end Search

section Middles

variable {vec : List ℤ} {num : ℤ}

theorem lastIndex_lt (vec : List ℤ) : lastIndex vec < 2 ^ 31 := by
  obtain ⟨k, -, -, hlt⟩ := exists_toInt32 (vec.length - 1)
  exact hlt

theorem lastIndex_lt_length (h : 0 ≤ lastIndex vec) : lastIndex vec < vec.length := by
  have hle := @toInt32_le (vec.length - 1)
  obtain ⟨k, hk, hlo, hhi⟩ := exists_toInt32 (vec.length - 1)
  unfold lastIndex at *
  omega

/-- The sums of the ends fit into an `int`: the vector is short, or the search turns to the left
before they no longer do. -/
def SumsFit (vec : List ℤ) (num : ℤ) : Prop :=
  lastIndex vec < 2 ^ 30 ∨ ∃ j z, middle (lastIndex vec) 0 j < 2 ^ 30 ∧
    load vec (middle (lastIndex vec) 0 j) = some z ∧ num ≤ z

/-- From the element behind the first one on, the probe goes to the right at smaller ones. -/
theorem noOverflow_iff {probe : ℤ → Option Turn} (h : 0 ≤ lastIndex vec)
    (hprobe : ∀ m x, 1 ≤ m → load vec m = some x → (probe m ≠ some .right ↔ num ≤ x)) :
    NoOverflow probe 0 (lastIndex vec) ↔ SumsFit vec num := by
  unfold NoOverflow SumsFit
  apply or_congr_right'
  intro hbig
  apply exists_congr
  intro j
  have hge := middle_zero_le h j
  have hle := middle_le (by omega : 0 ≤ lastIndex vec + 1) j
  have hlen := lastIndex_lt_length h
  obtain ⟨x, hx⟩ := exists_load (by omega) (hle.trans_lt hlen)
  rw [hprobe _ x (by omega) hx]
  constructor
  · rintro ⟨hlt, hnum⟩
    exact ⟨x, hlt, hx, hnum⟩
  · rintro ⟨z, hlt, hz, hnum⟩
    obtain rfl := Option.some.inj (hx.symm.trans hz)
    exact ⟨hlt, hnum⟩

end Middles

section Finding

variable {vec : List ℤ} {num x m l r v : ℤ}

/-- What the probe says about an element of the vector. -/
theorem searchProbe_iff (h : load vec m = some x) : searchProbe vec num m ≠ none ∧
    (searchProbe vec num m = some .found ↔ x = num) ∧
    (searchProbe vec num m = some .right ↔ x < num) ∧
    (searchProbe vec num m = some .left ↔ num < x) := by
  unfold searchProbe
  rw [h]
  rcases lt_trichotomy x num with hlt | rfl | hgt
  · simp [hlt, hlt.ne, hlt.le]
  · simp
  · simp [hgt.ne', hgt.not_gt, hgt]

/-- An index that holds the number, or -1 where no index does. -/
def Hit (vec : List ℤ) (num v : ℤ) : Prop :=
  (num ∈ vec → load vec v = some num) ∧ (num ∉ vec → v = -1)

theorem hit_of_load (h : load vec v = some num) : Hit vec num v :=
  ⟨fun _ => h, fun hnot => absurd (mem_of_load h) hnot⟩

theorem hit_iff_of_load (h : load vec v = some x) : Hit vec num v ↔ x = num := by
  constructor
  · rintro ⟨hmem, hnot⟩
    by_cases hnum : num ∈ vec
    · exact Option.some.inj (h.symm.trans (hmem hnum))
    · have hpos := (load_bounds h).1
      have hneg := hnot hnum
      omega
  · rintro rfl
    exact hit_of_load h

/-- The number is at no index outside the interval. -/
structure Encloses (vec : List ℤ) (num l r : ℤ) : Prop where
  nonneg : 0 ≤ l
  lt_length : r < vec.length
  before : ∀ i x, load vec i = some x → i < l → x < num
  behind : ∀ i x, load vec i = some x → r < i → num < x

theorem Encloses.exists_load (h : Encloses vec num l r) (hle : l ≤ r) :
    ∃ x, load vec ((l + r) / 2) = some x := by
  have hpos := h.nonneg
  have hlt := h.lt_length
  exact Arrays.exists_load (by omega) (by omega)

theorem Encloses.right (h : Encloses vec num l r) (hasc : vec.Pairwise (· ≤ ·))
    (hm : load vec m = some x) (hlt : x < num) : Encloses vec num (m + 1) r where
  nonneg := by
    have hpos := (load_bounds hm).1
    omega
  lt_length := h.lt_length
  before i y hy hi := (le_of_load hasc hy hm (by omega)).trans_lt hlt
  behind := h.behind

theorem Encloses.left (h : Encloses vec num l r) (hasc : vec.Pairwise (· ≤ ·))
    (hm : load vec m = some x) (hgt : num < x) : Encloses vec num l (m - 1) where
  nonneg := h.nonneg
  lt_length := by
    have hlt := (load_bounds hm).2
    omega
  before := h.before
  behind i y hy hi := hgt.trans_le (le_of_load hasc hm hy (by omega))

theorem Encloses.not_mem (h : Encloses vec num l r) (hlt : r < l) : num ∉ vec := by
  intro hmem
  obtain ⟨i, hi⟩ := exists_load_of_mem hmem
  rcases lt_or_ge i l with hil | hil
  · exact lt_irrefl _ (h.before i num hi hil)
  · exact lt_irrefl _ (h.behind i num hi (by omega))

theorem bisect_hits (hasc : vec.Pairwise (· ≤ ·)) (h : Encloses vec num l r)
    (hno : NoOverflow (searchProbe vec num) l r) :
    ∃ v, Hit vec num v ∧ Loop.Ends (bisectBody (searchProbe vec num) (-1)) ⟨l, r⟩ (some v) := by
  have hends := @bisect_ends (searchProbe vec num) (-1) l r (Encloses vec num)
    (fun res => ∃ v, res = some v ∧ Hit vec num v)
    (fun l r hI hlt => ⟨-1, rfl, fun hmem => absurd hmem (hI.not_mem hlt), fun _ => rfl⟩)
    (fun l r hI hle hprobe => ?_) (fun l r hI hle hprobe => ?_) (fun l r hI hle hprobe => ?_)
    (fun l r hI hle hprobe => ?_) h.nonneg h hno
  · obtain ⟨res, hends, v, rfl, hhit⟩ := hends
    exact ⟨v, hhit, hends⟩
  all_goals
    obtain ⟨x, hx⟩ := hI.exists_load hle
    obtain ⟨hne, hfound, hright, hleft⟩ := @searchProbe_iff vec num x _ hx
  · exact absurd hprobe hne
  · obtain rfl := hfound.mp hprobe
    exact ⟨_, rfl, hit_of_load hx⟩
  · exact hI.right hasc hx (hright.mp hprobe)
  · exact hI.left hasc hx (hleft.mp hprobe)

/-- `binarySearch` returns an index that holds the number, or -1 where no index does. -/
def Finds (vec : List ℤ) (num : ℤ) : Prop :=
  ∃ v, Hit vec num v ∧ ∃ n₀, ∀ n ≥ n₀, binarySearch n vec num = some v

/-- The number is the first element or the last one, or it is between them and the sums of the
ends fit. -/
def SearchFits (vec : List ℤ) (num : ℤ) : Prop :=
  ∃ first, load vec 0 = some first ∧ (first = num ∨ first < num ∧
    ∃ last, load vec (lastIndex vec) = some last ∧ (last = num ∨ num < last ∧ SumsFit vec num))

theorem finds_iff : Finds vec num ↔
    ∃ v, Hit vec num v ∧ Returns (searchProbe vec num) (-1) vec num v :=
  Iff.rfl

/-- Between the ends the number is found exactly when the sums fit. -/
theorem finds_between_iff (hasc : vec.Pairwise (· ≤ ·)) {first last : ℤ}
    (hfirst : load vec 0 = some first) (hlt : first < num)
    (hlast : load vec (lastIndex vec) = some last) (hgt : num < last) :
    Finds vec num ↔ SumsFit vec num := by
  obtain ⟨hpos, hlen⟩ := load_bounds hlast
  have hno : NoOverflow (searchProbe vec num) 0 (lastIndex vec) ↔ SumsFit vec num := by
    apply noOverflow_iff hpos
    intro m x _ hx
    obtain ⟨-, -, hright, -⟩ := @searchProbe_iff vec num x m hx
    rw [ne_eq, hright, not_lt]
  rw [finds_iff, ← hno]
  simp only [returns_between_iff hfirst hlt hlast hgt]
  constructor
  · rintro ⟨v, -, hends⟩
    by_contra hover
    cases hends.deterministic (overflow_ends le_rfl hpos (lastIndex_lt vec) hover)
  · intro hfit
    have henc : Encloses vec num 0 (lastIndex vec) :=
      { nonneg := le_rfl
        lt_length := hlen
        before := fun i x hx hi => absurd (load_bounds hx).1 (not_le.mpr hi)
        behind := fun i x hx hi => hgt.trans_le (le_of_load hasc hlast hx hi.le) }
    exact bisect_hits hasc henc hfit

/-- `binarySearch` finds the number if it is an end of the vector, or between the ends of a vector
whose sums of ends fit into an `int`, and it does so in no other case. -/
theorem binarySearch_finds_iff (hasc : vec.Pairwise (· ≤ ·)) (num : ℤ) :
    Finds vec num ↔ SearchFits vec num := by
  unfold SearchFits
  cases hfirst : load vec 0 with
  | none =>
    simp only [finds_iff, not_returns_nil hfirst]
    simp
  | some first =>
    simp only [Option.some.injEq, exists_eq_left']
    rcases lt_or_ge first num with hlt | hge
    · cases hlast : load vec (lastIndex vec) with
      | none =>
        simp only [finds_iff, not_returns_last hfirst hlt hlast]
        simp [hlt.ne]
      | some last =>
        simp only [Option.some.injEq, exists_eq_left', hlt.ne, false_or, hlt, true_and]
        rcases lt_or_ge num last with hgt | hle
        · rw [finds_between_iff hasc hfirst hlt hlast hgt]
          simp [hgt, hgt.ne']
        · simp only [finds_iff, returns_last_iff hfirst hlt hlast hle, exists_eq_right,
            hit_iff_of_load hlast]
          simp [not_lt.mpr hle]
    · simp only [finds_iff, returns_first_iff hfirst hge, exists_eq_right, hit_iff_of_load hfirst]
      simp [not_lt.mpr hge]

theorem binarySearch_finds_five : Finds [3, 5, 12, 46] 5 ↔ SearchFits [3, 5, 12, 46] 5 :=
  binarySearch_finds_iff (by decide) 5

/-- A number below the first element is not in the vector, but the result is the first index. -/
theorem binarySearch_below : binarySearch 9 [5] 3 = some 0 ∧ ¬ Finds [5] 3 := by
  refine ⟨by decide, ?_⟩
  rw [finds_iff]
  rintro ⟨v, hhit, hret⟩
  obtain rfl := (returns_first_iff rfl (by decide)).mp hret
  exact absurd (hhit.2 (by decide)) (by decide)

end Finding

end Vs17.Container
