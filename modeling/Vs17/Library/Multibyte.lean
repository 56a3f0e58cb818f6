import Vs17.Library.Words

/-! # Multibyte and wide strings

The conversions of the C library, as partial functions of a locale: each converts up to the
first character it cannot convert. A write behind the end of a buffer, and reading a buffer
without a terminator, have no result.
-/

namespace Vs17.Multibyte

open Words

/-- A character of a wide string. -/
abbrev Wide := UInt32

/-- The multibyte encoding of a locale. -/
structure LocaleEncoding where
  /-- The characters in front of the first invalid one of a string, and whether there is none. -/
  decode : Bytes → List Wide × Bool
  encode : Wide → Option Bytes
  zero_not_mem : ∀ s, (0 : Wide) ∉ (decode s).1
  length_decode_le : ∀ s, (decode s).1.length ≤ s.length
  encode_ne_nil : ∀ c, encode c ≠ some []

/-- Write to the front of a buffer. -/
def put {α : Type} (src buf : List α) : Option (List α) :=
  if src.length ≤ buf.length then some (src ++ buf.drop src.length) else none

/-- The pieces that fit one after another into so many bytes. -/
def fit : ℕ → List Bytes → List Bytes
  | _, [] => []
  | n, p :: ps => if p.length ≤ n then p :: fit (n - p.length) ps else []

/-- The string in a buffer of wide characters. -/
def wcs (buf : List Wide) : Option (List Wide) :=
  if (0 : Wide) ∈ buf then some (buf.takeWhile (· ≠ 0)) else none

namespace LocaleEncoding

variable (l : LocaleEncoding)

/-- The encoded characters in front of the first one without an encoding, and whether there is
none. -/
def pieces : List Wide → List Bytes × Bool
  | [] => ([], true)
  | c :: cs =>
    match l.encode c with
    | none => ([], false)
    | some p => (p :: (pieces cs).1, (pieces cs).2)

/-- `mbstowcs` without a buffer. No result is `(size_t)-1`. -/
def wideLength (s : Bytes) : Option ℕ :=
  if (l.decode s).2 then some (l.decode s).1.length else none

/-- `mbstowcs` for at most `n` characters, the terminator among them. -/
def mbstowcs (buf : List Wide) (s : Bytes) (n : ℕ) : Option (List Wide) :=
  put ((if (l.decode s).2 then (l.decode s).1 ++ [0] else (l.decode s).1).take n) buf

/-- `wcstombs` without a buffer. The inner result is missing for `(size_t)-1`. -/
def multibyteLength (buf : List Wide) : Option (Option ℕ) :=
  (wcs buf).map fun s => if (l.pieces s).2 then some (l.pieces s).1.flatten.length else none

/-- `wcstombs` for at most `n` bytes, the terminator among them. -/
def wcstombs (dst : Bytes) (buf : List Wide) (n : ℕ) : Option Bytes :=
  (wcs buf).bind fun s =>
    let text := (fit n (l.pieces s).1).flatten
    let whole := (l.pieces s).2 ∧ fit n (l.pieces s).1 = (l.pieces s).1 ∧ text.length < n
    put (if whole then text ++ [0] else text) dst

end LocaleEncoding

/-- A conversion descriptor: the converted characters in front of the first invalid or incomplete
one, and whether there is none. -/
structure Converter where
  convert : Bytes → List Bytes × Bool

/-- `iconv`: the buffer, how many bytes have been written, and whether all has been converted. -/
def iconv (cd : Converter) (inbuf outbuf : Bytes) (outlen : ℕ) : Option (Bytes × ℕ × Bool) :=
  let pieces := fit outlen (cd.convert inbuf).1
  (put pieces.flatten outbuf).map fun outbuf =>
    (outbuf, pieces.flatten.length, (cd.convert inbuf).2 && pieces == (cd.convert inbuf).1)

section Lemmas

variable {n : ℕ} {ps : List Bytes} {l : LocaleEncoding} {s : Bytes} {cs : List Wide}

theorem length_flatten_fit_le (n : ℕ) (ps : List Bytes) : (fit n ps).flatten.length ≤ n := by
  induction ps generalizing n with
  | nil => exact Nat.zero_le n
  | cons p ps ih =>
    rw [fit]
    split_ifs with h
    · rw [List.flatten_cons, List.length_append]
      have hrest := ih (n - p.length)
      omega
    · exact Nat.zero_le n

/-- All pieces are written exactly if there is room for all of them. -/
theorem fit_eq_self_iff : fit n ps = ps ↔ ps.flatten.length ≤ n := by
  induction ps generalizing n with
  | nil => simp [fit]
  | cons p ps ih =>
    rw [fit, List.flatten_cons, List.length_append]
    split_ifs with h
    · rw [List.cons_inj_right, ih]
      omega
    · simp only [false_iff]
      omega

theorem put_eq {α : Type} {src buf : List α} (h : src.length ≤ buf.length) :
    put src buf = some (src ++ buf.drop src.length) :=
  if_pos h

theorem put_eq_none {α : Type} {src buf : List α} (h : buf.length < src.length) :
    put src buf = none :=
  if_neg (Nat.not_le.mpr h)

theorem wcs_eq (h : (0 : Wide) ∉ cs) : wcs (cs ++ [0]) = some cs := by
  have hne : ∀ c ∈ cs, decide (c ≠ 0) = true := by
    intro c hc
    rw [decide_eq_true_eq]
    rintro rfl
    exact h hc
  rw [wcs, if_pos (by simp), List.takeWhile_append_of_pos hne]
  simp

/-- A converted string is no shorter than the wide one. -/
theorem LocaleEncoding.length_le_pieces (h : (l.pieces cs).2 = true) :
    cs.length ≤ (l.pieces cs).1.flatten.length := by
  induction cs with
  | nil => exact Nat.zero_le _
  | cons c cs ih =>
    rw [pieces] at h ⊢
    cases hc : l.encode c with
    | none => simp [hc] at h
    | some p =>
      rw [hc] at h
      have hpos : 0 < p.length := by
        rw [List.length_pos_iff]
        rintro rfl
        exact l.encode_ne_nil c hc
      have hrest := ih h
      simp only [List.flatten_cons, List.length_append, List.length_cons]
      omega

theorem LocaleEncoding.length_pieces_pos (h : (l.pieces cs).2 = true) (hne : cs ≠ []) :
    0 < (l.pieces cs).1.flatten.length :=
  (List.length_pos_iff.mpr hne).trans_le (length_le_pieces h)

/-- A buffer of zeros with room for the terminator holds the wide string afterwards. -/
theorem LocaleEncoding.mbstowcs_eq (h : (l.decode s).2 = true) :
    l.mbstowcs (List.replicate ((l.decode s).1.length + 1) 0) s s.length =
      some ((l.decode s).1 ++ [0]) := by
  have hle := l.length_decode_le s
  rw [mbstowcs, if_pos h]
  rcases Nat.lt_or_ge (l.decode s).1.length s.length with hlt | hge
  · rw [List.take_of_length_le (by simp; omega), put_eq (by simp), List.drop_of_length_le (by simp),
      List.append_nil]
  · rw [List.take_append_of_le_length hge, List.take_of_length_le hle, put_eq (by simp),
      List.drop_replicate, Nat.add_sub_cancel_left]
    rfl

/-- A buffer without room for the wide characters is overrun. -/
theorem LocaleEncoding.mbstowcs_overrun {buf : List Wide} (h : (l.decode s).2 = true)
    (hlt : buf.length < (l.decode s).1.length) : l.mbstowcs buf s s.length = none := by
  have hle := l.length_decode_le s
  rw [mbstowcs, if_pos h]
  apply put_eq_none
  rw [List.length_take, List.length_append]
  omega

/-- Without a buffer only an invalid string whose first character is invalid is harmless. -/
theorem LocaleEncoding.mbstowcs_invalid (h : (l.decode s).2 = false) :
    l.mbstowcs [] s s.length = if (l.decode s).1 = [] then some [] else none := by
  rw [mbstowcs, h, if_neg (by simp), List.take_of_length_le (l.length_decode_le s)]
  split_ifs with hnil
  · rw [hnil]
    rfl
  · exact put_eq_none (List.length_pos_iff.mpr hnil)

/-- A converted string is written whole, without a terminator, if it is given no room for one. -/
theorem LocaleEncoding.wcstombs_eq {dst : Bytes} (hcs : (0 : Wide) ∉ cs)
    (hlen : (l.pieces cs).1.flatten.length ≤ dst.length) :
    l.wcstombs dst (cs ++ [0]) (l.pieces cs).1.flatten.length =
      some ((l.pieces cs).1.flatten ++ dst.drop (l.pieces cs).1.flatten.length) := by
  have hfit := fit_eq_self_iff.mpr (Nat.le_refl (l.pieces cs).1.flatten.length)
  rw [wcstombs, wcs_eq hcs, Option.bind_some]
  simp only [hfit]
  rw [if_neg fun h => absurd h.2.2 (Nat.lt_irrefl _), put_eq hlen]

end Lemmas

end Vs17.Multibyte
