import Vs17.Str.CodePages

/-! # From GBK to UTF-8

`gbk2utf8` goes through wide characters, with a query of the length in front of each conversion.
The lengths are of type `size_t`, so that a query that fails gives the largest one.
-/

namespace Vs17.Str

open Arrays Capacity Ints Multibyte Words

/-- No result is an overrun of a buffer. The query's `(size_t)-1` is not 0, gives a
buffer of 0 characters, and is not below any capacity. -/
def gbk2utf8 (sys : System) (destStr : Bytes) (srcstr : Option Bytes) (maxutfstrlen : ℕ) :
    Option (ℤ × Bytes) :=
  match srcstr, sys.setlocale "zh_CN.gbk" with
  | none, _ => some (-1, destStr)
  | some _, none => some (-1, destStr)
  | some src, some gbk =>
    let unicodelen := gbk.wideLength src
    if unicodelen = some 0 then some (-1, destStr)
    else do
      let size := match unicodelen with
        | none => 0
        | some n => n + 1
      let pstrUnicode ← gbk.mbstowcs (List.replicate size 0) src src.length
      match sys.setlocale "zh_CN.utf8" with
      | none => some (-1, destStr)
      | some utf8 =>
        match ← utf8.multibyteLength pstrUnicode with
        | none => some (-1, destStr)
        | some destlen =>
          if destlen = 0 then some (-1, destStr)
          else if destlen ≥ maxutfstrlen then some (-1, destStr)
          else (storeText utf8 destStr pstrUnicode destlen).map fun destStr =>
            (toInt32 destlen, destStr)

variable {sys : System} {gbk utf8 : LocaleEncoding} {src destStr : Bytes} {srcstr : Option Bytes}
  {maxutfstrlen : ℕ}

/-- `gbk2utf8` fails on a text that is empty, on a string that is no valid GBK, where its query of
the length is not checked for failure, and on a length that is -1 as an `int`. -/
structure Gbk2utf8Fits (sys : System) (srcstr : Option Bytes) (maxutfstrlen : ℕ) : Prop where
  nonempty : wideText sys "zh_CN.gbk" "zh_CN.utf8" srcstr = some [] → maxutfstrlen = 0
  valid : ∀ src gbk, srcstr = some src → sys.setlocale "zh_CN.gbk" = some gbk →
    (gbk.decode src).2 = false → (gbk.decode src).1 = [] ∧ sys.setlocale "zh_CN.utf8" = none
  int : ∀ t, wideText sys "zh_CN.gbk" "zh_CN.utf8" srcstr = some t → t.length < maxutfstrlen →
    toInt32 t.length ≠ -1

theorem gbk2utf8_invalid (hgbk : sys.setlocale "zh_CN.gbk" = some gbk)
    (hvalid : (gbk.decode src).2 = false) : gbk2utf8 sys destStr (some src) maxutfstrlen =
      if (gbk.decode src).1 = [] ∧ sys.setlocale "zh_CN.utf8" = none then some (-1, destStr)
      else none := by
  have hlen : gbk.wideLength src = none := by simp [LocaleEncoding.wideLength, hvalid]
  simp only [gbk2utf8, hgbk, hlen, List.replicate_zero, LocaleEncoding.mbstowcs_invalid hvalid]
  by_cases hnil : (gbk.decode src).1 = []
  · cases hutf8 : sys.setlocale "zh_CN.utf8" with
    | none => simp [hnil]
    | some utf8 => simp [hnil, LocaleEncoding.multibyteLength, wcs]
  · simp [hnil]

theorem gbk2utf8_empty (hgbk : sys.setlocale "zh_CN.gbk" = some gbk)
    (hvalid : (gbk.decode src).2 = true) (hnil : (gbk.decode src).1 = []) :
    gbk2utf8 sys destStr (some src) maxutfstrlen = some (-1, destStr) := by
  have hlen : gbk.wideLength src = some 0 := by simp [LocaleEncoding.wideLength, hvalid, hnil]
  simp only [gbk2utf8, hgbk, hlen, if_pos]

theorem gbk2utf8_valid (hgbk : sys.setlocale "zh_CN.gbk" = some gbk)
    (hvalid : (gbk.decode src).2 = true) (hne : (gbk.decode src).1 ≠ [])
    (hcap : maxutfstrlen ≤ destStr.length) : gbk2utf8 sys destStr (some src) maxutfstrlen =
      match sys.setlocale "zh_CN.utf8" with
      | none => some (-1, destStr)
      | some utf8 =>
        let text := (utf8.pieces (gbk.decode src).1).1.flatten
        if (utf8.pieces (gbk.decode src).1).2 = true ∧ text.length < maxutfstrlen then
          some (toInt32 text.length, text ++ 0 :: destStr.drop (text.length + 1))
        else some (-1, destStr) := by
  have hlen : gbk.wideLength src = some (gbk.decode src).1.length := by
    simp [LocaleEncoding.wideLength, hvalid]
  have hne0 : some (gbk.decode src).1.length ≠ some 0 := by simpa using hne
  have hzero := gbk.zero_not_mem src
  simp only [gbk2utf8, hgbk, hlen, if_neg hne0, LocaleEncoding.mbstowcs_eq hvalid,
    Option.bind_eq_bind, Option.bind_some]
  cases sys.setlocale "zh_CN.utf8" with
  | none => rfl
  | some utf8 =>
    simp only [multibyteLength_eq hzero, Option.bind_some]
    by_cases hpieces : (utf8.pieces (gbk.decode src).1).2 = true
    · have hpos := utf8.length_pieces_pos hpieces hne
      rw [if_pos hpieces]
      dsimp only
      rw [if_neg hpos.ne']
      split_ifs with hge hfit hfit
      · exact absurd hfit.2 (not_lt.mpr hge)
      · rfl
      · rw [storeText_eq hzero (by omega), Option.map_some]
      · exact absurd ⟨hpieces, not_le.mp hge⟩ hfit
    · simp [hpieces]

theorem gbk2utf8_refused (hgbk : sys.setlocale "zh_CN.gbk" = some gbk)
    (hvalid : (gbk.decode src).2 = true) (hcap : maxutfstrlen ≤ destStr.length)
    (hnone : ∀ utf8, sys.setlocale "zh_CN.utf8" = some utf8 →
      (utf8.pieces (gbk.decode src).1).2 = false) :
    gbk2utf8 sys destStr (some src) maxutfstrlen = some (-1, destStr) := by
  by_cases hnil : (gbk.decode src).1 = []
  · exact gbk2utf8_empty hgbk hvalid hnil
  · rw [gbk2utf8_valid hgbk hvalid hnil hcap]
    cases hutf8 : sys.setlocale "zh_CN.utf8" with
    | none => rfl
    | some utf8 => simp [hnone utf8 hutf8]

theorem gbk2utf8_meets_iff_of_some (hgbk : sys.setlocale "zh_CN.gbk" = some gbk)
    (hutf8 : sys.setlocale "zh_CN.utf8" = some utf8) (hvalid : (gbk.decode src).2 = true)
    {t : Bytes} (ht : (utf8.pieces (gbk.decode src).1).1.flatten = t)
    (hpieces : (utf8.pieces (gbk.decode src).1).2 = true) (hcap : maxutfstrlen ≤ destStr.length) :
    MeetsUntouched (some t) maxutfstrlen destStr
        (gbk2utf8 sys destStr (some src) maxutfstrlen) ↔
      (t = [] → maxutfstrlen = 0) ∧ (t.length < maxutfstrlen → toInt32 t.length ≠ -1) := by
  by_cases hnil : (gbk.decode src).1 = []
  · have hempty : t = [] := by
      rw [← ht, hnil]
      rfl
    rw [gbk2utf8_empty hgbk hvalid hnil, meetsUntouched_refused_iff, refused_some_iff, hempty,
      List.length_nil, Nat.le_zero]
    constructor
    · intro hzero
      exact ⟨fun _ => hzero, fun _ => by decide⟩
    · rintro ⟨hzero, -⟩
      exact hzero rfl
  · have hne : t ≠ [] := by
      rw [← ht]
      exact List.length_pos_iff.mp (utf8.length_pieces_pos hpieces hnil)
    rw [gbk2utf8_valid hgbk hvalid hnil hcap, hutf8]
    dsimp only
    rw [ht]
    split_ifs with hfit
    · rw [meetsUntouched_stored_iff hfit.2 hcap]
      constructor
      · intro hint
        exact ⟨fun h => absurd h hne, fun _ => hint⟩
      · rintro ⟨-, hint⟩
        exact hint hfit.2
    · have hlong : maxutfstrlen ≤ t.length := not_lt.mp fun hlt => hfit ⟨hpieces, hlt⟩
      rw [meetsUntouched_refused_iff, refused_some_iff]
      apply iff_of_true hlong
      exact ⟨fun h => absurd h hne, fun h => absurd h (not_lt.mpr hlong)⟩

/-- Without a string or the locale of the text nothing is asked for. -/
theorem gbk2utf8Fits_missing (h : ∀ src, srcstr = some src → sys.setlocale "zh_CN.gbk" = none) :
    Gbk2utf8Fits sys srcstr maxutfstrlen := by
  have htext : wideText sys "zh_CN.gbk" "zh_CN.utf8" srcstr = none := by
    cases srcstr with
    | none => rfl
    | some src => exact wideText_source_none _ _ (h src rfl)
  constructor
  · intro hsome
    cases htext.symm.trans hsome
  · intro src gbk hsrc hgbk
    cases (h src hsrc).symm.trans hgbk
  · intro t ht
    cases htext.symm.trans ht

theorem gbk2utf8Fits_iff (hgbk : sys.setlocale "zh_CN.gbk" = some gbk) :
    Gbk2utf8Fits sys (some src) maxutfstrlen ↔
      (wideText sys "zh_CN.gbk" "zh_CN.utf8" (some src) = some [] → maxutfstrlen = 0) ∧
        ((gbk.decode src).2 = false →
          (gbk.decode src).1 = [] ∧ sys.setlocale "zh_CN.utf8" = none) ∧
        ∀ t, wideText sys "zh_CN.gbk" "zh_CN.utf8" (some src) = some t →
          t.length < maxutfstrlen → toInt32 t.length ≠ -1 := by
  constructor
  · intro h
    exact ⟨h.nonempty, h.valid src gbk rfl hgbk, h.int⟩
  · rintro ⟨hempty, hvalid, hint⟩
    refine ⟨hempty, fun src' gbk' hsrc' hgbk' => ?_, hint⟩
    obtain rfl := Option.some.inj hsrc'
    obtain rfl := Option.some.inj (hgbk.symm.trans hgbk')
    exact hvalid

theorem gbk2utf8_meets_iff (hcap : maxutfstrlen ≤ destStr.length) :
    MeetsUntouched (wideText sys "zh_CN.gbk" "zh_CN.utf8" srcstr) maxutfstrlen destStr
        (gbk2utf8 sys destStr srcstr maxutfstrlen) ↔
      Gbk2utf8Fits sys srcstr maxutfstrlen := by
  cases srcstr with
  | none => exact iff_of_true (meetsUntouched_none _ _) (gbk2utf8Fits_missing nofun)
  | some src =>
    cases hgbk : sys.setlocale "zh_CN.gbk" with
    | none =>
      have hres : gbk2utf8 sys destStr (some src) maxutfstrlen = some (-1, destStr) := by
        simp only [gbk2utf8, hgbk]
      rw [wideText_source_none _ _ hgbk, hres]
      exact iff_of_true (meetsUntouched_none _ _) (gbk2utf8Fits_missing fun _ _ => hgbk)
    | some gbk =>
      rw [gbk2utf8Fits_iff hgbk]
      cases hvalid : (gbk.decode src).2 with
      | false =>
        rw [wideText_invalid "zh_CN.utf8" hgbk hvalid, gbk2utf8_invalid hgbk hvalid]
        split_ifs with hfirst
        · exact iff_of_true (meetsUntouched_none _ _) ⟨nofun, fun _ => hfirst, nofun⟩
        · apply iff_of_false
          · exact fun h => not_meets_none h.meets
          · exact fun h => hfirst (h.2.1 rfl)
      | true =>
        cases htext : wideText sys "zh_CN.gbk" "zh_CN.utf8" (some src) with
        | none =>
          rw [gbk2utf8_refused hgbk hvalid hcap (wideText_valid_none hgbk hvalid htext)]
          exact iff_of_true (meetsUntouched_none _ _) ⟨nofun, nofun, nofun⟩
        | some t =>
          obtain ⟨utf8, hutf8, hpieces, ht⟩ := wideText_valid_some hgbk hvalid htext
          rw [gbk2utf8_meets_iff_of_some hgbk hutf8 hvalid ht hpieces hcap]
          constructor
          · rintro ⟨hempty, hint⟩
            refine ⟨fun h => hempty (Option.some.inj h), nofun, fun t' ht' => ?_⟩
            obtain rfl := Option.some.inj ht'
            exact hint
          · rintro ⟨hempty, -, hint⟩
            exact ⟨fun h => hempty (congrArg some h), hint t rfl⟩

end Vs17.Str
