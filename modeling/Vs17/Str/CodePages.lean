import Vs17.Library.Capacity
import Vs17.Library.Ints

/-! # Locales and conversion descriptors

The parts of the system that the conversions between code pages ask for, and the conversion from
one locale to another through wide characters.
-/

namespace Vs17.Str

open Arrays Capacity Ints Multibyte Words

/-- The locales and the conversion descriptors of the system. -/
structure System where
  setlocale : String → Option LocaleEncoding
  iconvOpen : String → String → Option Converter

/-- A `size_t` converted to `int`. -/
def sizeToInt : Option ℕ → ℤ
  | none => -1
  | some n => toInt32 n

theorem sizeToInt_some (n : ℕ) : sizeToInt (some n) = toInt32 n :=
  rfl

/-- The converted text in the destination, and the terminator behind it. -/
def storeText (l : LocaleEncoding) (dst : Bytes) (wide : List Wide) (n : ℕ) : Option Bytes :=
  (l.wcstombs dst wide n).bind fun dst => store dst n 0

variable {sys : System} {l : LocaleEncoding} {src dst : Bytes} {cs : List Wide}
  {srcStr : Option Bytes}

/-- The text a conversion through wide characters should give, if there are a string and both
locales. -/
def wideText (sys : System) (source target : String) (srcStr : Option Bytes) : Option Bytes :=
  srcStr.bind fun src => (sys.setlocale source).bind fun l => (sys.setlocale target).bind fun l' =>
    if (l.decode src).2 = true ∧ (l'.pieces (l.decode src).1).2 = true then
      some (l'.pieces (l.decode src).1).1.flatten
    else none

theorem wideText_source_none {source : String} (target : String) (srcStr : Option Bytes)
    (h : sys.setlocale source = none) : wideText sys source target srcStr = none := by
  unfold wideText
  cases srcStr with
  | none => rfl
  | some src => simp [h]

theorem wideText_invalid {source : String} (target : String) (h : sys.setlocale source = some l)
    (hvalid : (l.decode src).2 = false) : wideText sys source target (some src) = none := by
  unfold wideText
  cases ht : sys.setlocale target <;> simp [h, hvalid]

variable {source target : String}

/-- A valid string without a text: the second locale is missing or has no encoding for it. -/
theorem wideText_valid_none (h : sys.setlocale source = some l) (hvalid : (l.decode src).2 = true)
    (htext : wideText sys source target (some src) = none) :
    ∀ l', sys.setlocale target = some l' → (l'.pieces (l.decode src).1).2 = false := by
  intro l' hl'
  by_contra hpieces
  simp [wideText, h, hl', hvalid, hpieces] at htext

theorem wideText_valid_some {t : Bytes} (h : sys.setlocale source = some l)
    (hvalid : (l.decode src).2 = true) (htext : wideText sys source target (some src) = some t) :
    ∃ l', sys.setlocale target = some l' ∧ (l'.pieces (l.decode src).1).2 = true ∧
      (l'.pieces (l.decode src).1).1.flatten = t := by
  cases hl' : sys.setlocale target with
  | none => simp [wideText, h, hl'] at htext
  | some l' =>
    simp only [wideText, h, hl', hvalid, Option.bind_some, true_and] at htext
    split_ifs at htext with hpieces
    exact ⟨l', rfl, hpieces, Option.some.inj htext⟩

theorem storeText_eq (hcs : (0 : Wide) ∉ cs) (hlt : (l.pieces cs).1.flatten.length < dst.length) :
    storeText l dst (cs ++ [0]) (l.pieces cs).1.flatten.length =
      some ((l.pieces cs).1.flatten ++ 0 ::
        dst.drop ((l.pieces cs).1.flatten.length + 1)) := by
  rw [storeText, LocaleEncoding.wcstombs_eq hcs hlt.le, Option.bind_some]
  exact store_put hlt

theorem multibyteLength_eq (hcs : (0 : Wide) ∉ cs) : l.multibyteLength (cs ++ [0]) =
    some (if (l.pieces cs).2 then some (l.pieces cs).1.flatten.length else none) := by
  rw [LocaleEncoding.multibyteLength, wcs_eq hcs, Option.map_some]

end Vs17.Str
