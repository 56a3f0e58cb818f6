import Vs17.Library.Ints
import Vs17.Library.Loop

/-! # Bisection of an interval of `int`s

A loop halves an interval at the middle of its ends until a probe there finds what is sought.
The sum of the ends may overflow, but after a step to the left end of which both ends are below
2^30 it no longer does.
-/

namespace Vs17.Bisection

open Ints

/-- What the probe says about the middle: it is found there, or to look for on one side. -/
inductive Turn
  | found
  | right
  | left
  deriving DecidableEq, Repr

/-- Both ends belong to the interval. -/
structure Interval where
  left : ℤ
  right : ℤ
  deriving DecidableEq, Repr

/-- A round of the loop. No result is an overflow of the sum, or a probe without an answer. -/
def bisectBody (probe : ℤ → Option Turn) (missing : ℤ) (s : Interval) : Interval ⊕ Option ℤ :=
  if s.left ≤ s.right then
    match checked (s.left + s.right) with
    | none => .inr none
    | some sum =>
      let mid := sum.tdiv 2
      match probe mid with
      | none => .inr none
      | some .found => .inr (some mid)
      | some .right => .inl { s with left := mid + 1 }
      | some .left => .inl { s with right := mid - 1 }
  else .inr (some missing)

/-- The middles of the intervals the loop has as long as it goes to the right. -/
def middle (right : ℤ) : ℤ → ℕ → ℤ
  | left, 0 => (left + right) / 2
  | left, j + 1 => middle right ((left + right) / 2 + 1) j

variable {probe : ℤ → Option Turn} {missing left right : ℤ}

/-- The sum of the ends overflows nowhere on the way to the right, or the way ends before. -/
def NoOverflow (probe : ℤ → Option Turn) (left right : ℤ) : Prop :=
  right < 2 ^ 30 ∨ ∃ j, middle right left j < 2 ^ 30 ∧ probe (middle right left j) ≠ some .right

theorem middle_ge (h : left ≤ right + 1) (j : ℕ) : left - 1 ≤ middle right left j := by
  induction j generalizing left with
  | zero =>
    rw [middle]
    omega
  | succ j ih =>
    rw [middle]
    have hnext := @ih ((left + right) / 2 + 1) (by omega)
    omega

theorem middle_zero_le (h : left ≤ right) (j : ℕ) : (left + right) / 2 ≤ middle right left j := by
  cases j with
  | zero => rfl
  | succ j =>
    rw [middle]
    have hge := @middle_ge ((left + right) / 2 + 1) right (by omega) j
    omega

theorem middle_le (h : left ≤ right + 1) (j : ℕ) : middle right left j ≤ right := by
  induction j generalizing left with
  | zero =>
    rw [middle]
    omega
  | succ j ih =>
    rw [middle]
    exact ih (by omega)

theorem NoOverflow.sum_lt (h : NoOverflow probe left right) (hle : left ≤ right) :
    left + right < 2 ^ 31 := by
  rcases h with hright | ⟨j, hj, -⟩
  · omega
  · cases j with
    | zero =>
      rw [middle] at hj
      omega
    | succ j =>
      have hge := middle_zero_le hle (j + 1)
      omega

/-- A round whose sum does not overflow. -/
theorem bisectBody_of_sum (hleft : 0 ≤ left) (hle : left ≤ right) (hsum : left + right < 2 ^ 31) :
    bisectBody probe missing ⟨left, right⟩ =
      match probe ((left + right) / 2) with
      | none => .inr none
      | some .found => .inr (some ((left + right) / 2))
      | some .right => .inl ⟨(left + right) / 2 + 1, right⟩
      | some .left => .inl ⟨left, (left + right) / 2 - 1⟩ := by
  have htdiv : (left + right).tdiv 2 = (left + right) / 2 := Int.tdiv_eq_ediv_of_nonneg (by omega)
  simp only [bisectBody, if_pos hle, checked_eq (by omega) hsum, htdiv]

/-- What the rounds keep and the results follow from holds at the end, when no sum overflows. -/
theorem bisect_ends (I : ℤ → ℤ → Prop) (J : Option ℤ → Prop)
    (hexit : ∀ l r, I l r → r < l → J (some missing))
    (hnone : ∀ l r, I l r → l ≤ r → probe ((l + r) / 2) = none → J none)
    (hfound : ∀ l r, I l r → l ≤ r → probe ((l + r) / 2) = some .found → J (some ((l + r) / 2)))
    (hright : ∀ l r, I l r → l ≤ r → probe ((l + r) / 2) = some .right → I ((l + r) / 2 + 1) r)
    (hleft : ∀ l r, I l r → l ≤ r → probe ((l + r) / 2) = some .left → I l ((l + r) / 2 - 1))
    (hpos : 0 ≤ left) (hI : I left right) (hno : NoOverflow probe left right) :
    ∃ res, Loop.Ends (bisectBody probe missing) ⟨left, right⟩ res ∧ J res := by
  induction hk : (right - left + 1).toNat using Nat.strong_induction_on generalizing left right with
  | _ k ih =>
    by_cases hle : left ≤ right
    · have hsum := hno.sum_lt hle
      have hround := @bisectBody_of_sum probe missing left right hpos hle hsum
      cases hprobe : probe ((left + right) / 2) with
      | none => exact ⟨none, .exit (by rw [hround, hprobe]), hnone _ _ hI hle hprobe⟩
      | some turn =>
        cases turn with
        | found => exact ⟨_, .exit (by rw [hround, hprobe]), hfound _ _ hI hle hprobe⟩
        | right =>
          have hno' : NoOverflow probe ((left + right) / 2 + 1) right := by
            rcases hno with hsmall | ⟨j, hj, hturn⟩
            · exact .inl hsmall
            · cases j with
              | zero => exact absurd hprobe hturn
              | succ j => exact .inr ⟨j, hj, hturn⟩
          obtain ⟨res, hends, hJ⟩ := ih _ (by omega) (by omega) (hright _ _ hI hle hprobe) hno' rfl
          exact ⟨res, .round (by rw [hround, hprobe]) hends, hJ⟩
        | left =>
          have hno' : NoOverflow probe left ((left + right) / 2 - 1) := .inl (by omega)
          obtain ⟨res, hends, hJ⟩ := ih _ (by omega) hpos (hleft _ _ hI hle hprobe) hno' rfl
          exact ⟨res, .round (by rw [hround, hprobe]) hends, hJ⟩
    · have hround : bisectBody probe missing ⟨left, right⟩ = .inr (some missing) := if_neg hle
      exact ⟨some missing, .exit hround, hexit _ _ hI (not_le.mp hle)⟩

/-- A way to the right that does not end before the sum overflows has no result. -/
theorem overflow_ends (hpos : 0 ≤ left) (hle : left ≤ right) (hright : right < 2 ^ 31)
    (hno : ¬ NoOverflow probe left right) :
    Loop.Ends (bisectBody probe missing) ⟨left, right⟩ none := by
  induction hk : (right - left).toNat using Nat.strong_induction_on generalizing left with
  | _ k ih =>
    obtain ⟨hbig, hall⟩ := not_or.mp hno
    rcases lt_or_ge (left + right) (2 ^ 31) with hsum | hsum
    · have hround := @bisectBody_of_sum probe missing left right hpos hle hsum
      have hprobe : probe ((left + right) / 2) = some .right := by
        by_contra hturn
        exact hall ⟨0, by rw [middle]; omega, hturn⟩
      have hno' : ¬ NoOverflow probe ((left + right) / 2 + 1) right := by
        rintro (hsmall | ⟨j, hj, hturn⟩)
        · exact hbig hsmall
        · exact hall ⟨j + 1, hj, hturn⟩
      exact .round (by rw [hround, hprobe]) (ih _ (by omega) (by omega) (by omega) hno' rfl)
    · apply Loop.Ends.exit
      simp only [bisectBody, if_pos hle, checked_eq_none hsum]

/-- A result is what stands for nothing found, or a place where the probe has found it. -/
theorem result_of_ends {s : Interval} {v : ℤ}
    (h : Loop.Ends (bisectBody probe missing) s (some v)) :
    v = missing ∨ probe v = some .found := by
  refine h.invariant (I := fun _ => True)
    (J := fun res => ∀ v, res = some v → v = missing ∨ probe v = some .found)
    trivial (fun _ _ _ _ => trivial) (fun s res _ hround v hres => ?_) v rfl
  subst hres
  unfold bisectBody at hround
  split at hround
  · split at hround
    · cases hround
    · dsimp only at hround
      split at hround
      · cases hround
      · rename_i hprobe
        cases hround
        exact .inr hprobe
      · cases hround
      · cases hround
  · cases hround
    exact .inl rfl

end Vs17.Bisection
