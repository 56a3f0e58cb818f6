import Vs17.Str.Gbk2utf8
import Vs17.Str.Utf82gbk

/-! # Conversions with `iconv`

`codeConvert` hands its buffers to `iconv`. The three conversions side by side.
-/

namespace Vs17.Str

open Arrays Capacity Ints Multibyte Words

def codeConvert (sys : System) (fromCharset toCharset : String) (inbuf outbuf : Bytes)
    (outlen : ℕ) : Option (ℤ × Bytes) :=
  match sys.iconvOpen toCharset fromCharset with
  | none => some (-1, outbuf)
  | some cd => do
    let outbuf ← put (List.replicate outlen 0) outbuf
    let (outbuf, n, done) ← iconv cd inbuf outbuf outlen
    if done then (store outbuf n 0).map fun outbuf => (0, outbuf)
    else some (-1, outbuf)

def u2g (sys : System) (inbuf outbuf : Bytes) (outlen : ℕ) : Option (ℤ × Bytes) :=
  codeConvert sys "utf-8" "gbk" inbuf outbuf outlen

def g2u (sys : System) (inbuf outbuf : Bytes) (outlen : ℕ) : Option (ℤ × Bytes) :=
  codeConvert sys "gbk" "utf-8" inbuf outbuf outlen

variable {sys : System} {fromCharset toCharset : String} {inbuf outbuf : Bytes} {outlen : ℕ}
  {cd : Converter}

/-- The text `iconv` should give. -/
def iconvText (sys : System) (fromCharset toCharset : String) (inbuf : Bytes) : Option Bytes :=
  (sys.iconvOpen toCharset fromCharset).bind fun cd =>
    if (cd.convert inbuf).2 then some (cd.convert inbuf).1.flatten else none

theorem codeConvert_eq (inbuf : Bytes) (hcd : sys.iconvOpen toCharset fromCharset = some cd)
    (hcap : outlen ≤ outbuf.length) : ∃ m : Bytes, m.length = outbuf.length ∧
      m.drop outlen = outbuf.drop outlen ∧
      codeConvert sys fromCharset toCharset inbuf outbuf outlen =
        let text := (fit outlen (cd.convert inbuf).1).flatten
        if (cd.convert inbuf).2 = true ∧ (cd.convert inbuf).1.flatten.length ≤ outlen then
          (store (text ++ m.drop text.length) text.length 0).map fun outbuf => (0, outbuf)
        else some (-1, text ++ m.drop text.length) := by
  have hzeros : (List.replicate outlen (0 : UInt8)).length = outlen := List.length_replicate
  refine ⟨List.replicate outlen 0 ++ outbuf.drop outlen, ?_, ?_, ?_⟩
  · rw [List.length_append, hzeros, List.length_drop, Nat.add_sub_cancel' hcap]
  · have hdrop := @drop_put outbuf outlen _ hzeros.le
    rwa [hzeros] at hdrop
  · have hput : put (List.replicate outlen 0) outbuf =
        some (List.replicate outlen 0 ++ outbuf.drop outlen) := by
      rw [put_eq (hzeros.le.trans hcap), hzeros]
    have htext := length_flatten_fit_le outlen (cd.convert inbuf).1
    have hroom : (fit outlen (cd.convert inbuf).1).flatten.length ≤
        (List.replicate outlen (0 : UInt8) ++ outbuf.drop outlen).length := by
      rw [List.length_append, hzeros]
      omega
    simp only [codeConvert, hcd, hput, iconv, put_eq hroom, Option.bind_eq_bind, Option.bind_some,
      Option.map_some, Bool.and_eq_true, beq_iff_eq, fit_eq_self_iff]

/-- `code_convert` fails on a text that fills the capacity without its terminator. -/
theorem codeConvert_meets_iff (hcap : outlen ≤ outbuf.length) :
    Meets (iconvText sys fromCharset toCharset inbuf) outlen outbuf
        (codeConvert sys fromCharset toCharset inbuf outbuf outlen) ↔
      ∀ t, iconvText sys fromCharset toCharset inbuf = some t → t.length ≠ outlen := by
  cases hcd : sys.iconvOpen toCharset fromCharset with
  | none =>
    have htext : iconvText sys fromCharset toCharset inbuf = none := by rw [iconvText, hcd]; rfl
    have hres : codeConvert sys fromCharset toCharset inbuf outbuf outlen = some (-1, outbuf) := by
      rw [codeConvert, hcd]
    rw [htext, hres]
    exact iff_of_true (meetsUntouched_none _ _).meets nofun
  | some cd =>
    obtain ⟨m, hlen, hdrop, hres⟩ := codeConvert_eq inbuf hcd hcap
    have htext : iconvText sys fromCharset toCharset inbuf =
        if (cd.convert inbuf).2 then some (cd.convert inbuf).1.flatten else none := by
      rw [iconvText, hcd]
      rfl
    have hout := length_flatten_fit_le outlen (cd.convert inbuf).1
    rw [hres, htext]
    dsimp only
    by_cases hdone : (cd.convert inbuf).2 = true ∧ (cd.convert inbuf).1.flatten.length ≤ outlen
    · rw [if_pos hdone, if_pos hdone.1, fit_eq_self_iff.mpr hdone.2]
      generalize (cd.convert inbuf).1.flatten = t at hdone
      rcases hdone.2.lt_or_eq with hlt | heq
      · rw [store_put (by omega)]
        apply iff_of_true
        · exact ⟨0, _, rfl, (leaves_stored hlt (by omega) (by decide)).of_drop_eq hlen hdrop⟩
        · intro t' ht'
          obtain rfl := Option.some.inj ht'
          exact hlt.ne
      · apply iff_of_false
        · cases store (t ++ m.drop t.length) t.length 0 with
          | none => exact not_meets_none
          | some mem' => exact not_meets_of_refused (refused_some_iff.mpr heq.ge) (by decide)
        · exact fun h => h t rfl heq
    · have hlong : ∀ t, (if (cd.convert inbuf).2 then some (cd.convert inbuf).1.flatten else none) =
          some t → outlen < t.length := by
        intro t ht
        split_ifs at ht with hvalid
        obtain rfl := Option.some.inj ht
        exact not_le.mp fun hle => hdone ⟨hvalid, hle⟩
      rw [if_neg hdone]
      apply iff_of_true
      · exact meets_refused_put (fun t ht => (hlong t ht).le) hout (by omega) hlen hdrop
      · exact fun t ht => (hlong t ht).ne'

/-- Exactly when the conversions store each text that fits with its terminator, refuse every other
one, and keep within the capacity. -/
theorem codeConversions_meet_iff (sys : System) :
    (∀ (gbkStr : Bytes) (srcStr : Option Bytes) (maxGbkStrlen : ℤ), maxGbkStrlen < 2 ^ 31 →
      maxGbkStrlen ≤ gbkStr.length →
      (MeetsUntouched (wideText sys "zh_CN.utf8" "zh_CN.gbk" srcStr) maxGbkStrlen.toNat gbkStr
        (utf82gbk sys gbkStr srcStr maxGbkStrlen) ↔ Utf82gbkFits sys srcStr maxGbkStrlen)) ∧
    (∀ (destStr : Bytes) (srcstr : Option Bytes) (maxutfstrlen : ℕ),
      maxutfstrlen ≤ destStr.length →
      (MeetsUntouched (wideText sys "zh_CN.gbk" "zh_CN.utf8" srcstr) maxutfstrlen destStr
        (gbk2utf8 sys destStr srcstr maxutfstrlen) ↔ Gbk2utf8Fits sys srcstr maxutfstrlen)) ∧
    ∀ (fromCharset toCharset : String) (inbuf outbuf : Bytes) (outlen : ℕ),
      outlen ≤ outbuf.length →
      (Meets (iconvText sys fromCharset toCharset inbuf) outlen outbuf
        (codeConvert sys fromCharset toCharset inbuf outbuf outlen) ↔
        ∀ t, iconvText sys fromCharset toCharset inbuf = some t → t.length ≠ outlen) :=
  ⟨fun _ _ _ => utf82gbk_meets_iff, fun _ _ _ => gbk2utf8_meets_iff,
    fun _ _ _ _ _ => codeConvert_meets_iff⟩

section Ascii

/-- The characters that UTF-8 and GBK encode alike. -/
def asciiLocale : LocaleEncoding where
  decode s := ((s.takeWhile fun b => 0 < b ∧ b < 128).map UInt8.toUInt32,
    s.all fun b => 0 < b ∧ b < 128)
  encode c := if c < 128 then some [c.toUInt8] else none
  zero_not_mem s h := by
    obtain ⟨b, hb, hzero⟩ := List.mem_map.mp h
    have hpos := List.all_eq_true.mp List.all_takeWhile b hb
    have hnat := congrArg UInt32.toNat hzero
    simp only [decide_eq_true_eq, UInt8.lt_iff_toNat_lt] at hpos
    rw [UInt8.toNat_toUInt32] at hnat
    exact absurd hnat hpos.1.ne'
  length_decode_le s := by
    rw [List.length_map]
    exact (List.takeWhile_sublist _).length_le
  encode_ne_nil c h := by
    split_ifs at h
    cases h

def asciiConverter : Converter where
  convert s := ((s.takeWhile fun b => 0 < b ∧ b < 128).map ([·]), s.all fun b => 0 < b ∧ b < 128)

def asciiSystem : System where
  setlocale _ := some asciiLocale
  iconvOpen _ _ := some asciiConverter

theorem codeConversions_meet_ascii :
    MeetsUntouched (wideText asciiSystem "zh_CN.utf8" "zh_CN.gbk" (some [97])) 2 [7, 7]
        (utf82gbk asciiSystem [7, 7] (some [97]) 2) ∧
      MeetsUntouched (wideText asciiSystem "zh_CN.gbk" "zh_CN.utf8" (some [97])) 2 [7, 7]
        (gbk2utf8 asciiSystem [7, 7] (some [97]) 2) ∧
      Meets (iconvText asciiSystem "utf-8" "gbk" [97]) 2 [7, 7]
        (u2g asciiSystem [97] [7, 7] 2) := by
  obtain ⟨hutf82gbk, hgbk2utf8, hcodeConvert⟩ := codeConversions_meet_iff asciiSystem
  refine ⟨(hutf82gbk [7, 7] (some [97]) 2 (by decide) (by decide)).mpr ?_,
    (hgbk2utf8 [7, 7] (some [97]) 2 (by decide)).mpr ?_,
    (hcodeConvert "utf-8" "gbk" [97] [7, 7] 2 (by decide)).mpr ?_⟩
  · rw [@utf82gbkFits_iff asciiSystem asciiLocale _ _ rfl]
    constructor
    · intro h
      exact absurd h (by decide)
    · intro _
      right
      constructor
      · decide
      · intro t ht
        obtain rfl : [97] = t := Option.some.inj ht
        exact .inl (by decide)
  · rw [@gbk2utf8Fits_iff asciiSystem asciiLocale _ _ rfl]
    refine ⟨fun h => absurd h (by decide), fun h => absurd h (by decide), fun t ht _ => ?_⟩
    obtain rfl : [97] = t := Option.some.inj ht
    decide
  · intro t ht
    obtain rfl : [97] = t := Option.some.inj ht
    decide

/-- A text that fills the capacity, a string that breaks off, and an empty string. -/
theorem codeConversions_not_meet :
    ¬ Meets (iconvText asciiSystem "gbk" "utf-8" [97]) 1 [7, 7] (g2u asciiSystem [97] [7, 7] 1) ∧
      ¬ MeetsUntouched (wideText asciiSystem "zh_CN.gbk" "zh_CN.utf8" (some [97, 255])) 4
        [7, 7, 7, 7] (gbk2utf8 asciiSystem [7, 7, 7, 7] (some [97, 255]) 4) ∧
      ¬ MeetsUntouched (wideText asciiSystem "zh_CN.utf8" "zh_CN.gbk" (some [])) 1 [7]
        (utf82gbk asciiSystem [7] (some []) 1) := by
  have hfull : g2u asciiSystem [97] [7, 7] 1 = some (0, [97, 0]) := by decide
  have hbroken : gbk2utf8 asciiSystem [7, 7, 7, 7] (some [97, 255]) 4 = none := by decide
  have hempty : utf82gbk asciiSystem [7] (some []) 1 = some (-1, [7]) := by decide
  have htext : wideText asciiSystem "zh_CN.utf8" "zh_CN.gbk" (some []) = some [] := by decide
  have htext' : iconvText asciiSystem "gbk" "utf-8" [97] = some [97] := by decide
  rw [hfull, hbroken, hempty, htext, htext', meetsUntouched_refused_iff, refused_some_iff]
  refine ⟨not_meets_of_refused (refused_some_iff.mpr ?_) ?_, fun h => not_meets_none h.meets, ?_⟩
  · decide
  · decide
  · decide

end Ascii

end Vs17.Str
