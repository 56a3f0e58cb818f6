import Mathlib.Data.Nat.Digits.Lemmas
import Vs17.Library.Ints
import Vs17.Library.Loop

/-! # Binary numbers written in decimal

`decimalToBinary` gives the number whose decimal digits are the binary digits of its argument,
`binaryToDecimal` is meant to be its inverse. Both keep the result and the weight of the next
digit in an `int`, and raise the weight once more behind the last digit.
-/

namespace Vs17.Backtracking

open Ints

/-- The variables of both functions: what is left of the argument, the result, the weight. -/
structure Conversion where
  rest : ℤ
  res : ℤ
  i : ℤ
  deriving DecidableEq, Repr

/-- A round that takes a digit in the base `src` and puts it into a number in the base `dst`.
No result is an arithmetic overflow. -/
def digitBody (src dst : ℤ) (s : Conversion) : Conversion ⊕ Option ℤ :=
  if s.rest ≠ 0 then
    let remainder := toInt32 (s.rest.tmod src)
    match (checked (remainder * s.i)).bind fun term => (checked (s.res + term)).bind fun res =>
        (checked (s.i * dst)).map fun i => Conversion.mk (s.rest.tdiv src) res i with
    | some t => .inl t
    | none => .inr none
  else .inr (some s.res)

def decimalToBinary (n : ℕ) (dec : ℤ) : Option ℤ :=
  (Loop.run (digitBody 2 10) n ⟨dec, 0, 1⟩).join

def binaryToDecimal (n : ℕ) (bin : ℤ) : Option ℤ :=
  (Loop.run (digitBody 10 2) n ⟨bin, 0, 1⟩).join

section Digits

variable {src dst n w acc : ℕ}

theorem digitBody_zero (acc w : ℤ) : digitBody src dst ⟨0, acc, w⟩ = .inr (some acc) := rfl

/-- A round on natural numbers whose results are in the range of `int`. -/
theorem digitBody_pos (hn : n ≠ 0) (hsrc : src < 2 ^ 31) (hpos : 0 < src)
    (hres : acc + n % src * w < 2 ^ 31) (hw : w * dst < 2 ^ 31) :
    digitBody src dst ⟨n, acc, w⟩ =
      .inl ⟨(n / src : ℕ), (acc + n % src * w : ℕ), (w * dst : ℕ)⟩ := by
  have hne : (n : ℤ) ≠ 0 := by exact_mod_cast hn
  have hrem : toInt32 ((n : ℤ).tmod src) = (n % src : ℕ) := by
    rw [← Int.ofNat_tmod]
    exact toInt32_natCast ((Nat.mod_lt n hpos).trans hsrc)
  have hterm : checked ((n % src : ℕ) * w) = some ((n % src * w : ℕ) : ℤ) := by
    rw [← Int.natCast_mul, checked_natCast, if_pos ((Nat.le_add_left _ _).trans_lt hres)]
  have hsum : checked (acc + (n % src * w : ℕ)) = some ((acc + n % src * w : ℕ) : ℤ) := by
    rw [← Int.natCast_add, checked_natCast, if_pos hres]
  have hweight : checked (w * dst : ℤ) = some ((w * dst : ℕ) : ℤ) := by
    rw [← Int.natCast_mul, checked_natCast, if_pos hw]
  unfold digitBody
  rw [if_pos hne]
  simp only [hrem]
  rw [hterm, Option.bind_some, hsum, Option.bind_some, hweight, Option.map_some, Int.ofNat_tdiv]

/-- The next weight is computed in every round. -/
theorem digitBody_overflow (hn : n ≠ 0) (hw : 2 ^ 31 ≤ w * dst) :
    digitBody src dst ⟨n, acc, w⟩ = .inr none := by
  have hne : (n : ℤ) ≠ 0 := by exact_mod_cast hn
  have hweight : checked (w * dst : ℤ) = none := by
    rw [← Int.natCast_mul, checked_natCast, if_neg (by omega)]
  simp only [digitBody, if_pos hne, hweight, Option.map_none, Option.bind_fun_none]

/-- A digit below the new base keeps the result below the weight. -/
theorem digit_lt (hdigit : n % src < dst) (hacc : acc < w) : acc + n % src * w < w * dst := by
  calc acc + n % src * w < w + n % src * w := Nat.add_lt_add_right hacc _
    _ = w * (n % src + 1) := by ring
    _ ≤ w * dst := Nat.mul_le_mul_left w hdigit

/-- With digits that are digits in both bases, and weights in the range of `int`, the number has
these digits in the other base. -/
theorem digits_ends (hsrc : src < 2 ^ 31) (hone : 1 < src) (hdst : 0 < dst)
    (hdigits : ∀ d ∈ Nat.digits src n, d < dst) (hacc : acc < w)
    (hfit : w * dst ^ (Nat.digits src n).length < 2 ^ 31) :
    Loop.Ends (digitBody src dst) ⟨n, acc, w⟩
      (some ((acc + w * Nat.ofDigits dst (Nat.digits src n) : ℕ) : ℤ)) := by
  induction n using Nat.strong_induction_on generalizing acc w with
  | _ n ih =>
    by_cases hn : n = 0
    · subst hn
      exact .exit (by simp [digitBody_zero])
    · rw [Nat.digits_def' hone (Nat.pos_of_ne_zero hn)] at hdigits hfit ⊢
      rw [List.length_cons, pow_succ' dst, ← mul_assoc] at hfit
      have hsum := digit_lt (hdigits _ List.mem_cons_self) hacc
      have hw : w * dst < 2 ^ 31 := (Nat.le_mul_of_pos_right _ (pow_pos hdst _)).trans_lt hfit
      apply Loop.Ends.round (digitBody_pos hn hsrc (by omega) (hsum.trans hw) hw)
      have hlt : n / src < n := Nat.div_lt_self (Nat.pos_of_ne_zero hn) hone
      have hrest := ih (n / src) hlt (fun d hd => hdigits d (List.mem_cons_of_mem _ hd)) hsum hfit
      have hval : acc + w * Nat.ofDigits dst (n % src :: Nat.digits src (n / src)) =
          acc + n % src * w + w * dst * Nat.ofDigits dst (Nat.digits src (n / src)) := by
        rw [Nat.ofDigits_cons]
        ring
      rwa [hval]

/-- A weight that leaves the range of `int` ends the loop without a result. -/
theorem digits_overflow (hsrc : src < 2 ^ 31) (hone : 1 < src)
    (hdigits : ∀ d ∈ Nat.digits src n, d < dst) (hacc : acc < w) (hw : w < 2 ^ 31)
    (hfit : 2 ^ 31 ≤ w * dst ^ (Nat.digits src n).length) :
    Loop.Ends (digitBody src dst) ⟨n, acc, w⟩ none := by
  induction n using Nat.strong_induction_on generalizing acc w with
  | _ n ih =>
    by_cases hn : n = 0
    · subst hn
      rw [Nat.digits_zero, List.length_nil, pow_zero, mul_one] at hfit
      exact absurd hw (not_lt.mpr hfit)
    · rw [Nat.digits_def' hone (Nat.pos_of_ne_zero hn)] at hdigits hfit
      rw [List.length_cons, pow_succ' dst, ← mul_assoc] at hfit
      rcases lt_or_ge (w * dst) (2 ^ 31) with hnext | hnext
      · have hsum := digit_lt (hdigits _ List.mem_cons_self) hacc
        apply Loop.Ends.round (digitBody_pos hn hsrc (by omega) (hsum.trans hnext) hnext)
        have hlt : n / src < n := Nat.div_lt_self (Nat.pos_of_ne_zero hn) hone
        exact ih (n / src) hlt (fun d hd => hdigits d (List.mem_cons_of_mem _ hd)) hsum hnext hfit
      · exact .exit (digitBody_overflow hn hnext)

end Digits

section Result

variable {n b : ℕ}

/-- With enough fuel the function returns this value. -/
def Returns (f : ℕ → ℤ → Option ℤ) (x r : ℤ) : Prop :=
  ∃ k₀, ∀ k ≥ k₀, f k x = some r

/-- The second function gives back the argument of the first one. -/
def RoundTrip (f g : ℕ → ℤ → Option ℤ) (x : ℤ) : Prop :=
  Returns (fun k x => (f k x).bind (g k)) x x

theorem Returns.bind {f g : ℕ → ℤ → Option ℤ} {x y z : ℤ} (hf : Returns f x y)
    (hg : Returns g y z) : Returns (fun k x => (f k x).bind (g k)) x z := by
  obtain ⟨k₁, hk₁⟩ := hf
  obtain ⟨k₂, hk₂⟩ := hg
  refine ⟨max k₁ k₂, fun k hk => ?_⟩
  simp only [hk₁ k (by omega), Option.bind_some, hk₂ k (by omega)]

theorem digits_two_lt {d : ℕ} (h : d ∈ Nat.digits 2 n) : d < 2 :=
  Nat.digits_lt_base one_lt_two h

theorem decimalToBinary_returns (h : n < 512) :
    Returns decimalToBinary n (Nat.ofDigits 10 (Nat.digits 2 n) : ℕ) := by
  have hlen : (Nat.digits 2 n).length ≤ 9 := (Nat.digits_length_le_iff one_lt_two n).mpr h
  have hpow : 1 * 10 ^ (Nat.digits 2 n).length < 2 ^ 31 := by
    rw [one_mul]
    exact (Nat.pow_le_pow_right (by decide) hlen).trans_lt (by decide)
  have hends := @digits_ends 2 10 n 1 0 (by decide) one_lt_two (by decide)
    (fun d hd => (digits_two_lt hd).trans (by decide)) one_pos hpow
  rw [zero_add, one_mul] at hends
  exact hends.exists_join

/-- The weight behind the tenth digit is no `int`. -/
theorem decimalToBinary_overflow (h : 512 ≤ n) (k : ℕ) : decimalToBinary k n = none := by
  have hlen : 9 < (Nat.digits 2 n).length := (Nat.lt_digits_length_iff one_lt_two n).mpr h
  have hpow : 2 ^ 31 ≤ 1 * 10 ^ (Nat.digits 2 n).length := by
    rw [one_mul]
    exact le_trans (by decide) (Nat.pow_le_pow_right (by decide) hlen)
  have hends := @digits_overflow 2 10 n 1 0 (by decide) one_lt_two
    (fun d hd => (digits_two_lt hd).trans (by decide)) one_pos (by decide) hpow
  exact hends.join_none k

theorem binaryToDecimal_returns (hdigits : ∀ d ∈ Nat.digits 10 b, d < 2)
    (hlen : (Nat.digits 10 b).length < 31) :
    Returns binaryToDecimal b (Nat.ofDigits 2 (Nat.digits 10 b) : ℕ) := by
  have hpow : 1 * 2 ^ (Nat.digits 10 b).length < 2 ^ 31 := by
    rw [one_mul]
    exact Nat.pow_lt_pow_right one_lt_two hlen
  have hends := @digits_ends 10 2 b 1 0 (by decide) (by decide) two_pos hdigits one_pos hpow
  rw [zero_add, one_mul] at hends
  exact hends.exists_join

theorem binaryToDecimal_overflow (hdigits : ∀ d ∈ Nat.digits 10 b, d < 2)
    (hlen : 31 ≤ (Nat.digits 10 b).length) (k : ℕ) : binaryToDecimal k b = none := by
  have hpow : 2 ^ 31 ≤ 1 * 2 ^ (Nat.digits 10 b).length := by
    rw [one_mul]
    exact Nat.pow_le_pow_right two_pos hlen
  have hends := @digits_overflow 10 2 b 1 0 (by decide) (by decide) hdigits one_pos
    (by decide) hpow
  exact hends.join_none k

/-- The digits of a number in one base are those of another number in a base for which they are
digits too. -/
theorem digits_ofDigits_digits {p q : ℕ} (hq : 1 < q) (hdigits : ∀ d ∈ Nat.digits p n, d < q) :
    Nat.digits q (Nat.ofDigits q (Nat.digits p n)) = Nat.digits p n :=
  Nat.digits_ofDigits q hq _ hdigits fun hne =>
    Nat.getLast_digit_ne_zero p (Nat.digits_ne_nil_iff_ne_zero.mp hne)

theorem decimalToBinary_roundTrip_iff (n : ℕ) :
    RoundTrip decimalToBinary binaryToDecimal n ↔ n < 512 := by
  constructor
  · rintro ⟨k, hk⟩
    by_contra hn
    have hrun := hk k le_rfl
    simp only [decimalToBinary_overflow (not_lt.mp hn) k] at hrun
    cases hrun
  · intro hn
    have hten : ∀ d ∈ Nat.digits 2 n, d < 10 := fun d hd => (digits_two_lt hd).trans (by decide)
    have hdigits := digits_ofDigits_digits (by decide) hten
    have hlen : (Nat.digits 2 n).length ≤ 9 := (Nat.digits_length_le_iff one_lt_two n).mpr hn
    have hback : Returns binaryToDecimal (Nat.ofDigits 10 (Nat.digits 2 n) : ℕ) n := by
      have hret := @binaryToDecimal_returns (Nat.ofDigits 10 (Nat.digits 2 n))
        (by rw [hdigits]; exact fun d => digits_two_lt) (by rw [hdigits]; omega)
      rwa [hdigits, Nat.ofDigits_digits] at hret
    exact (decimalToBinary_returns hn).bind hback

theorem binaryToDecimal_roundTrip_iff (hb : ∀ d ∈ Nat.digits 10 b, d < 2) :
    RoundTrip binaryToDecimal decimalToBinary b ↔ b < 10 ^ 9 := by
  have hdigits := digits_ofDigits_digits one_lt_two hb
  have hlen : b < 10 ^ 9 ↔ Nat.ofDigits 2 (Nat.digits 10 b) < 512 := by
    have hbits := Nat.digits_length_le_iff one_lt_two (Nat.ofDigits 2 (Nat.digits 10 b)) (k := 9)
    rw [hdigits] at hbits
    exact (Nat.digits_length_le_iff (by decide) b).symm.trans hbits
  constructor
  · rintro ⟨k₀, hk₀⟩
    by_contra hbig
    rw [hlen, not_lt] at hbig
    rcases lt_or_ge (Nat.digits 10 b).length 31 with hshort | hlong
    · obtain ⟨k₁, hk₁⟩ := binaryToDecimal_returns hb hshort
      have hrun := hk₀ (max k₀ k₁) (le_max_left _ _)
      simp only [hk₁ _ (le_max_right _ _), Option.bind_some,
        decimalToBinary_overflow hbig] at hrun
      cases hrun
    · have hrun := hk₀ k₀ le_rfl
      simp only [binaryToDecimal_overflow hb hlong k₀] at hrun
      cases hrun
  · intro hlt
    have hshort : (Nat.digits 10 b).length ≤ 9 :=
      (Nat.digits_length_le_iff (by decide) b).mpr hlt
    have hback : Returns decimalToBinary (Nat.ofDigits 2 (Nat.digits 10 b) : ℕ) b := by
      have hret := decimalToBinary_returns (hlen.mp hlt)
      rwa [hdigits, Nat.ofDigits_digits] at hret
    exact (binaryToDecimal_returns hb (by omega)).bind hback

/-- The functions give back each other's arguments exactly as long as `decimalToBinary` has no
more than nine digits to write. -/
theorem conversions_roundTrip_iff (n : ℕ) (hb : ∀ d ∈ Nat.digits 10 b, d < 2) :
    (RoundTrip decimalToBinary binaryToDecimal n ↔ n < 512) ∧
      (RoundTrip binaryToDecimal decimalToBinary b ↔ b < 10 ^ 9) :=
  ⟨decimalToBinary_roundTrip_iff n, binaryToDecimal_roundTrip_iff hb⟩

theorem conversions_roundTrip_17_1010 :
    (RoundTrip decimalToBinary binaryToDecimal (17 : ℕ) ↔ 17 < 512) ∧
      (RoundTrip binaryToDecimal decimalToBinary (1010 : ℕ) ↔ 1010 < 10 ^ 9) :=
  conversions_roundTrip_iff 17 (by decide)

/-- The numbers 512 and 1000000000 need a tenth digit. -/
theorem conversions_tenth_digit :
    ¬ RoundTrip decimalToBinary binaryToDecimal (512 : ℕ) ∧
      ¬ RoundTrip binaryToDecimal decimalToBinary (1000000000 : ℕ) := by
  constructor
  · rw [decimalToBinary_roundTrip_iff]
    decide
  · rw [binaryToDecimal_roundTrip_iff (by decide)]
    decide

example : decimalToBinary 6 17 = some 10001 ∧ binaryToDecimal 5 1010 = some 10 := by decide

end Result

end Vs17.Backtracking
