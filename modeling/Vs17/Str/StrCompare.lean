import Mathlib.Data.Int.Order.Basic
import Vs17.Library.Parting
import Vs17.Library.Words

/-! # Comparing two strings

`strCompare` gives the difference of the characters at which the strings part. Where one of the
strings has ended it gives the character of the other one, on whichever side that is.
-/

namespace Vs17.Str

open Words Parting

/-- The value of a `char`, which is signed. -/
def schar (c : UInt8) : ℤ :=
  if c < 128 then c.toNat else c.toNat - 256

/-- The strings from the pointers on. No result is a string that is read past its block. -/
def strCompare : Bytes → Bytes → Option ℤ
  | c :: str1, d :: str2 =>
    if c ≠ 0 ∧ d ≠ 0 then
      let ret := schar c - schar d
      if ret ≠ 0 then some ret else strCompare str1 str2
    else if c = 0 ∧ d = 0 then some 0
    else if c = 0 then some (schar d)
    else some (schar c)
  | _, _ => none

section Result

variable {a b c : Bytes} {x y : Option UInt8}

theorem schar_injective : schar.Injective := by
  intro c d h
  have hc := c.toNat_lt
  have hd := d.toNat_lt
  unfold schar at h
  apply UInt8.toNat_inj.mp
  split_ifs at h with hc' hd' hd' <;> simp only [UInt8.lt_iff_toNat_lt] at * <;> grind

theorem schar_eq_zero_iff {c : UInt8} : schar c = 0 ↔ c = 0 := by
  constructor
  · intro h
    exact schar_injective h
  · rintro rfl
    rfl

/-- The result, by the characters at which the strings part. -/
def parted : Option UInt8 → Option UInt8 → ℤ
  | none, none => 0
  | none, some d => schar d
  | some c, none => schar c
  | some c, some d => schar c - schar d

/-- The result for these two strings, whatever stands behind their terminators. -/
def Returns (a b : Bytes) (ret : ℤ) : Prop :=
  ∀ u v, strCompare (a ++ 0 :: u) (b ++ 0 :: v) = some ret

theorem strCompare_append {p : Bytes} (hp : (0 : UInt8) ∉ p) (s t : Bytes) :
    strCompare (p ++ s) (p ++ t) = strCompare s t := by
  induction p with
  | nil => rfl
  | cons c p ih =>
    have hc : c ≠ 0 := fun h0 => hp (by simp [h0])
    simpa [strCompare, hc] using ih fun h => hp (List.mem_cons_of_mem c h)

theorem returns_parted (ha : (0 : UInt8) ∉ a) (hb : (0 : UInt8) ∉ b) (h : Parts a b x y) :
    Returns a b (parted x y) := by
  intro u v
  cases h with
  | same => exact strCompare_append ha _ _
  | left_ends _ d t =>
    have hd : d ≠ 0 := fun h0 => hb (by simp [h0])
    rw [List.append_assoc, strCompare_append ha]
    simp [strCompare, parted, hd]
  | right_ends _ c s =>
    have hc : c ≠ 0 := fun h0 => ha (by simp [h0])
    rw [List.append_assoc, strCompare_append hb]
    simp [strCompare, parted, hc]
  | @differ p c d s t hne =>
    have hp : (0 : UInt8) ∉ p := fun h0 => ha (List.mem_append_left _ h0)
    have hc : c ≠ 0 := fun h0 => ha (by simp [h0])
    have hd : d ≠ 0 := fun h0 => hb (by simp [h0])
    have hret : schar c - schar d ≠ 0 := fun h => hne (schar_injective (sub_eq_zero.mp h))
    rw [List.append_assoc, List.append_assoc, strCompare_append hp]
    simp [strCompare, parted, hc, hd, hret]

/-- The strings are compared by the values of their characters. -/
def Before (a b : Bytes) : Prop :=
  a.map schar < b.map schar

/-- The sign of the result is that of the comparison. -/
def Orders (a b : Bytes) (ret : ℤ) : Prop :=
  (ret < 0 ↔ Before a b) ∧ (ret = 0 ↔ a = b) ∧ (0 < ret ↔ Before b a)

/-- If one of the strings goes on behind the other one, the sign of its next character is that
of the comparison. -/
def NextOrders (a b : Bytes) : Prop :=
  (∀ d t, b = a ++ d :: t → schar d < 0) ∧ (∀ c s, a = b ++ c :: s → 0 < schar c)

theorem nextOrders_iff (h : Parts a b x y) : NextOrders a b ↔
    (x = none → ∀ d, y = some d → schar d < 0) ∧ (y = none → ∀ c, x = some c → 0 < schar c) := by
  unfold NextOrders
  cases h with
  | same => simp
  | left_ends _ d t => simp
  | right_ends _ c s => simp
  | differ p s t hne => simp [hne, hne.symm]

theorem orders_parted_iff (ha : (0 : UInt8) ∉ a) (hb : (0 : UInt8) ∉ b) (h : Parts a b x y) :
    Orders a b (parted x y) ↔ NextOrders a b := by
  have hmap := h.map schar_injective
  rw [nextOrders_iff h]
  unfold Orders Before
  rw [hmap.lt_iff, hmap.symm.lt_iff, h.eq_iff]
  cases x with
  | none =>
    cases y with
    | none => simp [parted]
    | some d =>
      have hd : schar d ≠ 0 := fun h0 => hb (schar_eq_zero_iff.mp h0 ▸ h.mem_right)
      have hneg : ¬ 0 < schar d ↔ schar d < 0 := by omega
      simp [parted, hd, hneg]
  | some c =>
    cases y with
    | none =>
      have hc : schar c ≠ 0 := fun h0 => ha (schar_eq_zero_iff.mp h0 ▸ h.mem_left)
      have hpos : ¬ schar c < 0 ↔ 0 < schar c := by omega
      simp [parted, hc, hpos]
    | some d => simp [parted, sub_eq_zero, schar_injective.eq_iff]

theorem parted_eq_zero_iff (ha : (0 : UInt8) ∉ a) (hb : (0 : UInt8) ∉ b) (h : Parts a b x y) :
    parted x y = 0 ↔ a = b := by
  rw [h.eq_iff]
  cases x with
  | none =>
    cases y with
    | none => simp [parted]
    | some d =>
      have hd : d ≠ 0 := fun h0 => hb (h0 ▸ h.mem_right)
      simp [parted, schar_eq_zero_iff, hd]
  | some c =>
    cases y with
    | none =>
      have hc : c ≠ 0 := fun h0 => ha (h0 ▸ h.mem_left)
      simp [parted, schar_eq_zero_iff, hc]
    | some d => simp [parted, sub_eq_zero, schar_injective.eq_iff]

theorem sign_parted_iff (ha : (0 : UInt8) ∉ a) (hb : (0 : UInt8) ∉ b) (h : Parts a b x y) :
    (parted x y).sign = -(parted y x).sign ↔ a = b ∨ ¬ a <+: b ∧ ¬ b <+: a := by
  rw [h.eq_iff, h.prefix_iff, h.symm.prefix_iff]
  cases x with
  | none =>
    cases y with
    | none => simp [parted]
    | some d =>
      have hd : d ≠ 0 := fun h0 => hb (h0 ▸ h.mem_right)
      simp [parted, self_eq_neg, Int.sign_eq_zero_iff_zero, schar_eq_zero_iff, hd]
  | some c =>
    cases y with
    | none =>
      have hc : c ≠ 0 := fun h0 => ha (h0 ▸ h.mem_left)
      simp [parted, self_eq_neg, Int.sign_eq_zero_iff_zero, schar_eq_zero_iff, hc]
    | some d =>
      rw [parted, parted, ← neg_sub (schar c), Int.sign_neg]
      simp

theorem Orders.nonpos_iff {ret : ℤ} (h : Orders a b ret) :
    ret ≤ 0 ↔ a.map schar ≤ b.map schar := by
  rw [← not_lt, h.2.2]
  exact not_lt

/-- The sign of `strCompare` is right unless one string goes on behind the other one with a
character of the wrong sign. The result is 0 for equal strings only, and the results of the two
orders of the arguments have opposite signs unless one string goes on behind the other one. -/
theorem strCompare_orders_iff (ha : (0 : UInt8) ∉ a) (hb : (0 : UInt8) ∉ b)
    (hc : (0 : UInt8) ∉ c) : ∃ ab ba bc ac, Returns a b ab ∧ Returns b a ba ∧ Returns b c bc ∧
      Returns a c ac ∧ (Orders a b ab ↔ NextOrders a b) ∧ (ab = 0 ↔ a = b) ∧
      (ab.sign = -ba.sign ↔ a = b ∨ ¬ a <+: b ∧ ¬ b <+: a) ∧
      (NextOrders a b → NextOrders b c → NextOrders a c →
        (ab ≤ 0 → bc ≤ 0 → ac ≤ 0) ∧ (ab < 0 → bc < 0 → ac < 0)) := by
  obtain ⟨x, y, hab⟩ := exists_parts a b
  obtain ⟨z, w, hbc⟩ := exists_parts b c
  obtain ⟨i, j, hac⟩ := exists_parts a c
  refine ⟨parted x y, parted y x, parted z w, parted i j, returns_parted ha hb hab,
    returns_parted hb ha hab.symm, returns_parted hb hc hbc, returns_parted ha hc hac,
    orders_parted_iff ha hb hab, parted_eq_zero_iff ha hb hab, sign_parted_iff ha hb hab,
    fun hnab hnbc hnac => ?_⟩
  have hoab := (orders_parted_iff ha hb hab).mpr hnab
  have hobc := (orders_parted_iff hb hc hbc).mpr hnbc
  have hoac := (orders_parted_iff ha hc hac).mpr hnac
  constructor
  · rw [hoab.nonpos_iff, hobc.nonpos_iff, hoac.nonpos_iff]
    exact le_trans
  · rw [hoab.1, hobc.1, hoac.1]
    exact lt_trans

theorem strCompare_orders_abc : ∃ ab ba bc ac, Returns [97] [98] ab ∧ Returns [98] [97] ba ∧
    Returns [98] [99] bc ∧ Returns [97] [99] ac ∧ (Orders [97] [98] ab ↔ NextOrders [97] [98]) ∧
    (ab = 0 ↔ ([97] : Bytes) = [98]) ∧
    (ab.sign = -ba.sign ↔ ([97] : Bytes) = [98] ∨
      ¬ ([97] : Bytes) <+: [98] ∧ ¬ ([98] : Bytes) <+: [97]) ∧
    (NextOrders [97] [98] → NextOrders [98] [99] → NextOrders [97] [99] →
      (ab ≤ 0 → bc ≤ 0 → ac ≤ 0) ∧ (ab < 0 → bc < 0 → ac < 0)) :=
  strCompare_orders_iff (by decide) (by decide) (by decide)

theorem strCompare_nil : strCompare [0] [97, 0] = some 97 ∧ ¬ Orders [] [97] 97 := by
  refine ⟨by decide, fun h => ?_⟩
  have hlt : Before [] [97] := List.nil_lt_cons _ _
  exact absurd (h.1.mpr hlt) (by decide)

end Result

end Vs17.Str
