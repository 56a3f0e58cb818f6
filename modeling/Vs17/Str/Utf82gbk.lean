import Vs17.Str.CodePages

/-! # From UTF-8 to GBK

`utf82gbk` goes through wide characters as `gbk2utf8` does, with the lengths kept as `int`.
-/

namespace Vs17.Str

open Arrays Capacity Ints Multibyte Words

/-- No result is an overrun of a buffer or an arithmetic overflow. -/
def utf82gbk (sys : System) (gbkStr : Bytes) (srcStr : Option Bytes) (maxGbkStrlen : ℤ) :
    Option (ℤ × Bytes) :=
  match srcStr, sys.setlocale "zh_CN.utf8" with
  | none, _ => some (-1, gbkStr)
  | some _, none => some (-1, gbkStr)
  | some src, some utf8 =>
    let unicodeLen := sizeToInt (utf8.wideLength src)
    if unicodeLen ≤ 0 then some (-1, gbkStr)
    else do
      let size ← checked (unicodeLen + 1)
      let unicodeStr ← utf8.mbstowcs (List.replicate size.toNat 0) src src.length
      match sys.setlocale "zh_CN.gbk" with
      | none => some (-1, gbkStr)
      | some gbk =>
        let gbkLen := sizeToInt (← gbk.multibyteLength unicodeStr)
        if gbkLen ≤ 0 then some (-1, gbkStr)
        else if gbkLen ≥ maxGbkStrlen then some (-1, gbkStr)
        else (storeText gbk gbkStr unicodeStr gbkLen.toNat).map fun gbkStr => (gbkLen, gbkStr)

variable {sys : System} {utf8 gbk : LocaleEncoding} {src gbkStr : Bytes} {srcStr : Option Bytes}
  {maxGbkStrlen : ℤ}

/-- `utf82gbk` fails on a text that is empty, and on lengths that are no `int` but become a
positive one. -/
structure Utf82gbkFits (sys : System) (srcStr : Option Bytes) (maxGbkStrlen : ℤ) : Prop where
  nonempty : wideText sys "zh_CN.utf8" "zh_CN.gbk" srcStr = some [] → maxGbkStrlen ≤ 0
  int : ∀ src utf8, srcStr = some src → sys.setlocale "zh_CN.utf8" = some utf8 →
    (utf8.decode src).2 = true → toInt32 (utf8.decode src).1.length ≤ 0 ∨
      (utf8.decode src).1.length < 2 ^ 31 - 1 ∧
        ∀ t, wideText sys "zh_CN.utf8" "zh_CN.gbk" srcStr = some t →
          t.length < 2 ^ 31 ∨ toInt32 t.length ≤ 0 ∨ maxGbkStrlen ≤ toInt32 t.length

theorem utf82gbkFits_iff (hutf8 : sys.setlocale "zh_CN.utf8" = some utf8) :
    Utf82gbkFits sys (some src) maxGbkStrlen ↔
      (wideText sys "zh_CN.utf8" "zh_CN.gbk" (some src) = some [] → maxGbkStrlen ≤ 0) ∧
        ((utf8.decode src).2 = true → toInt32 (utf8.decode src).1.length ≤ 0 ∨
          (utf8.decode src).1.length < 2 ^ 31 - 1 ∧
            ∀ t, wideText sys "zh_CN.utf8" "zh_CN.gbk" (some src) = some t →
              t.length < 2 ^ 31 ∨ toInt32 t.length ≤ 0 ∨ maxGbkStrlen ≤ toInt32 t.length) := by
  constructor
  · intro h
    exact ⟨h.nonempty, h.int src utf8 rfl hutf8⟩
  · rintro ⟨hempty, hint⟩
    refine ⟨hempty, fun src' utf8' hsrc' hutf8' => ?_⟩
    obtain rfl := Option.some.inj hsrc'
    obtain rfl := Option.some.inj (hutf8.symm.trans hutf8')
    exact hint

theorem utf82gbkFits_missing (h : ∀ src, srcStr = some src → sys.setlocale "zh_CN.utf8" = none) :
    Utf82gbkFits sys srcStr maxGbkStrlen := by
  constructor
  · intro hsome
    cases srcStr with
    | none => cases hsome
    | some src => cases (wideText_source_none _ _ (h src rfl)).symm.trans hsome
  · intro src utf8 hsrc hutf8
    cases (h src hsrc).symm.trans hutf8

theorem le_of_toInt32_pos {n : ℕ} (hpos : 0 < toInt32 n) (h : ¬ n < 2 ^ 31 - 1) :
    toInt32 n = 2 ^ 31 - 1 ∨ toInt32 n + 1 < n := by
  obtain ⟨k, hk, hlo, hhi⟩ := exists_toInt32 n
  omega

theorem sizeToInt_wideLength (hvalid : (utf8.decode src).2 = true) :
    sizeToInt (utf8.wideLength src) = toInt32 (utf8.decode src).1.length := by
  rw [LocaleEncoding.wideLength, if_pos hvalid]
  rfl

theorem utf82gbk_refused (hutf8 : sys.setlocale "zh_CN.utf8" = some utf8)
    (hlen : sizeToInt (utf8.wideLength src) ≤ 0) :
    utf82gbk sys gbkStr (some src) maxGbkStrlen = some (-1, gbkStr) := by
  simp only [utf82gbk, hutf8, if_pos hlen]

theorem utf82gbk_overrun (hutf8 : sys.setlocale "zh_CN.utf8" = some utf8)
    (hvalid : (utf8.decode src).2 = true) (hpos : 0 < toInt32 (utf8.decode src).1.length)
    (hlong : ¬ (utf8.decode src).1.length < 2 ^ 31 - 1) :
    utf82gbk sys gbkStr (some src) maxGbkStrlen = none := by
  have hlen := sizeToInt_wideLength hvalid
  have hif : ¬ toInt32 (utf8.decode src).1.length ≤ 0 := not_le.mpr hpos
  simp only [utf82gbk, hutf8, hlen, if_neg hif, Option.bind_eq_bind]
  rcases le_of_toInt32_pos hpos hlong with hmax | hover
  · rw [hmax, checked_eq_none (by decide)]
    rfl
  · have hrange := toInt32_lt (utf8.decode src).1.length
    cases hsize : checked (toInt32 (utf8.decode src).1.length + 1) with
    | none => rfl
    | some size =>
      have hval := (of_checked hsize).1
      have hsmall : (List.replicate size.toNat (0 : Wide)).length < (utf8.decode src).1.length := by
        rw [List.length_replicate]
        omega
      rw [Option.bind_some, LocaleEncoding.mbstowcs_overrun hvalid hsmall]
      rfl

theorem utf82gbk_valid (hutf8 : sys.setlocale "zh_CN.utf8" = some utf8)
    (hvalid : (utf8.decode src).2 = true) (hne : (utf8.decode src).1 ≠ [])
    (hlen : (utf8.decode src).1.length < 2 ^ 31 - 1) :
    utf82gbk sys gbkStr (some src) maxGbkStrlen =
      match sys.setlocale "zh_CN.gbk" with
      | none => some (-1, gbkStr)
      | some gbk =>
        let wide := (utf8.decode src).1
        let gbkLen := sizeToInt (some (gbk.pieces wide).1.flatten.length)
        if (gbk.pieces wide).2 = true ∧ 0 < gbkLen ∧ gbkLen < maxGbkStrlen then
          (storeText gbk gbkStr (wide ++ [0]) gbkLen.toNat).map fun gbkStr => (gbkLen, gbkStr)
        else some (-1, gbkStr) := by
  have hwide : sizeToInt (utf8.wideLength src) = (utf8.decode src).1.length := by
    rw [sizeToInt_wideLength hvalid]
    exact toInt32_natCast (by omega)
  have hpos := List.length_pos_iff.mpr hne
  have hif : ¬ ((utf8.decode src).1.length : ℤ) ≤ 0 := by omega
  have hsize : checked ((utf8.decode src).1.length + 1) =
      some (((utf8.decode src).1.length + 1 : ℕ) : ℤ) := by
    rw [Int.natCast_succ]
    exact checked_eq (by omega) (by omega)
  unfold utf82gbk
  rw [hutf8]
  dsimp only
  rw [hwide, if_neg hif, hsize, Option.bind_eq_bind, Option.bind_some, Int.toNat_natCast,
    LocaleEncoding.mbstowcs_eq hvalid, Option.bind_eq_bind, Option.bind_some]
  cases sys.setlocale "zh_CN.gbk" with
  | none => rfl
  | some gbk =>
    have hmulti := multibyteLength_eq (utf8.zero_not_mem src) (l := gbk)
    by_cases hpieces : (gbk.pieces (utf8.decode src).1).2 = true
    · rw [if_pos hpieces] at hmulti
      dsimp only
      rw [hmulti, Option.bind_eq_bind, Option.bind_some]
      generalize sizeToInt (some (gbk.pieces (utf8.decode src).1).1.flatten.length) = gbkLen
      by_cases hfit : (gbk.pieces (utf8.decode src).1).2 = true ∧ 0 < gbkLen ∧
          gbkLen < maxGbkStrlen
      · rw [if_neg (not_le.mpr hfit.2.1), if_neg (not_le.mpr hfit.2.2), if_pos hfit]
      · rw [if_neg hfit]
        split_ifs with hempty hfull
        · rfl
        · rfl
        · exact absurd ⟨hpieces, not_le.mp hempty, not_le.mp hfull⟩ hfit
    · rw [if_neg hpieces] at hmulti
      have hint : sizeToInt none ≤ 0 := by decide
      dsimp only
      rw [hmulti, Option.bind_eq_bind, Option.bind_some, if_pos hint]
      rw [if_neg fun h => hpieces h.1]

theorem utf82gbk_meets_iff_of_some (hutf8 : sys.setlocale "zh_CN.utf8" = some utf8)
    (hgbk : sys.setlocale "zh_CN.gbk" = some gbk) (hvalid : (utf8.decode src).2 = true)
    (hne : (utf8.decode src).1 ≠ []) (hlen : (utf8.decode src).1.length < 2 ^ 31 - 1) {t : Bytes}
    (ht : (gbk.pieces (utf8.decode src).1).1.flatten = t)
    (hpieces : (gbk.pieces (utf8.decode src).1).2 = true) (hmax : maxGbkStrlen < 2 ^ 31)
    (hcap : maxGbkStrlen ≤ gbkStr.length) :
    MeetsUntouched (some t) maxGbkStrlen.toNat gbkStr
        (utf82gbk sys gbkStr (some src) maxGbkStrlen) ↔
      t.length < 2 ^ 31 ∨ toInt32 t.length ≤ 0 ∨ maxGbkStrlen ≤ toInt32 t.length := by
  have hle := toInt32_le (Int.natCast_nonneg t.length)
  have hsame := @toInt32_natCast t.length
  rw [utf82gbk_valid hutf8 hvalid hne hlen, hgbk]
  dsimp only
  rw [ht, sizeToInt_some]
  split_ifs with hfit
  · obtain ⟨-, hpos, hlt⟩ := hfit
    by_cases hsmall : t.length < 2 ^ 31
    · have hstore : storeText gbk gbkStr ((utf8.decode src).1 ++ [0]) t.length =
          some (t ++ 0 :: gbkStr.drop (t.length + 1)) := by
        rw [← ht]
        apply storeText_eq (utf8.zero_not_mem src)
        rw [ht]
        omega
      rw [hsame hsmall, Int.toNat_natCast, hstore, Option.map_some,
        meetsUntouched_stored_iff (by omega) (by omega)]
      exact iff_of_true (by omega) (.inl hsmall)
    · have hrefused : Refused (some t) maxGbkStrlen.toNat := refused_some_iff.mpr (by omega)
      apply iff_of_false
      · cases storeText gbk gbkStr ((utf8.decode src).1 ++ [0]) (toInt32 t.length).toNat with
        | none => exact fun h => not_meets_none h.meets
        | some mem => exact fun h => not_meets_of_refused hrefused (by omega) h.meets
      · omega
  · have hout : toInt32 t.length ≤ 0 ∨ maxGbkStrlen ≤ toInt32 t.length := by
      by_contra h
      rw [not_or, not_le, not_le] at h
      exact hfit ⟨hpieces, h⟩
    have hpos := gbk.length_pieces_pos hpieces hne
    rw [ht] at hpos
    rw [meetsUntouched_refused_iff, refused_some_iff]
    apply iff_of_true
    · rcases hout with hnonpos | hge
      · by_contra hlt
        have heq := hsame (by omega)
        omega
      · omega
    · exact .inr hout

theorem utf82gbk_refused_of_none (hutf8 : sys.setlocale "zh_CN.utf8" = some utf8)
    (hvalid : (utf8.decode src).2 = true) (hne : (utf8.decode src).1 ≠ [])
    (hlen : (utf8.decode src).1.length < 2 ^ 31 - 1)
    (hnone : ∀ gbk, sys.setlocale "zh_CN.gbk" = some gbk →
      (gbk.pieces (utf8.decode src).1).2 = false) :
    utf82gbk sys gbkStr (some src) maxGbkStrlen = some (-1, gbkStr) := by
  rw [utf82gbk_valid hutf8 hvalid hne hlen]
  cases hgbk : sys.setlocale "zh_CN.gbk" with
  | none => rfl
  | some gbk => simp [hnone gbk hgbk]

theorem utf82gbk_meets_iff_of_lt (hutf8 : sys.setlocale "zh_CN.utf8" = some utf8)
    (hvalid : (utf8.decode src).2 = true) (hne : (utf8.decode src).1 ≠ [])
    (hlen : (utf8.decode src).1.length < 2 ^ 31 - 1) (hmax : maxGbkStrlen < 2 ^ 31)
    (hcap : maxGbkStrlen ≤ gbkStr.length) :
    MeetsUntouched (wideText sys "zh_CN.utf8" "zh_CN.gbk" (some src)) maxGbkStrlen.toNat gbkStr
        (utf82gbk sys gbkStr (some src) maxGbkStrlen) ↔
      (wideText sys "zh_CN.utf8" "zh_CN.gbk" (some src) = some [] → maxGbkStrlen ≤ 0) ∧
        ∀ t, wideText sys "zh_CN.utf8" "zh_CN.gbk" (some src) = some t →
          t.length < 2 ^ 31 ∨ toInt32 t.length ≤ 0 ∨ maxGbkStrlen ≤ toInt32 t.length := by
  cases htext : wideText sys "zh_CN.utf8" "zh_CN.gbk" (some src) with
  | none =>
    have hnone := wideText_valid_none hutf8 hvalid htext
    rw [utf82gbk_refused_of_none hutf8 hvalid hne hlen hnone]
    exact iff_of_true (meetsUntouched_none _ _) ⟨nofun, nofun⟩
  | some t =>
    obtain ⟨gbk, hgbk, hpieces, ht⟩ := wideText_valid_some hutf8 hvalid htext
    have hpos := gbk.length_pieces_pos hpieces hne
    rw [ht] at hpos
    rw [utf82gbk_meets_iff_of_some hutf8 hgbk hvalid hne hlen ht hpieces hmax hcap]
    constructor
    · intro h
      constructor
      · intro hempty
        exact absurd (Option.some.inj hempty) (List.length_pos_iff.mp hpos)
      · intro t' ht'
        obtain rfl := Option.some.inj ht'
        exact h
    · rintro ⟨-, h⟩
      exact h t rfl

theorem utf82gbk_meets_iff_of_nonpos (hutf8 : sys.setlocale "zh_CN.utf8" = some utf8)
    (hvalid : (utf8.decode src).2 = true) (hnonpos : toInt32 (utf8.decode src).1.length ≤ 0)
    (hmax : maxGbkStrlen < 2 ^ 31) :
    MeetsUntouched (wideText sys "zh_CN.utf8" "zh_CN.gbk" (some src)) maxGbkStrlen.toNat gbkStr
        (utf82gbk sys gbkStr (some src) maxGbkStrlen) ↔
      (wideText sys "zh_CN.utf8" "zh_CN.gbk" (some src) = some [] → maxGbkStrlen ≤ 0) := by
  have hlen := sizeToInt_wideLength hvalid
  rw [utf82gbk_refused hutf8 (hlen.trans_le hnonpos), meetsUntouched_refused_iff]
  cases htext : wideText sys "zh_CN.utf8" "zh_CN.gbk" (some src) with
  | none => exact iff_of_true (refused_none _) nofun
  | some t =>
    obtain ⟨gbk, hgbk, hpieces, ht⟩ := wideText_valid_some hutf8 hvalid htext
    rw [refused_some_iff]
    by_cases hsmall : (utf8.decode src).1.length < 2 ^ 31
    · have hzero := toInt32_natCast hsmall
      have hnil : (utf8.decode src).1 = [] := List.length_eq_zero_iff.mp (by omega)
      have hempty : t = [] := by
        rw [← ht, hnil]
        rfl
      rw [hempty, List.length_nil, Nat.le_zero, Int.toNat_eq_zero]
      simp only [forall_const]
    · have hwide := gbk.length_le_pieces hpieces
      rw [ht] at hwide
      apply iff_of_true
      · omega
      · intro h
        rw [Option.some.inj h, List.length_nil] at hwide
        omega

theorem utf82gbk_meets_iff (hmax : maxGbkStrlen < 2 ^ 31) (hcap : maxGbkStrlen ≤ gbkStr.length) :
    MeetsUntouched (wideText sys "zh_CN.utf8" "zh_CN.gbk" srcStr) maxGbkStrlen.toNat gbkStr
        (utf82gbk sys gbkStr srcStr maxGbkStrlen) ↔
      Utf82gbkFits sys srcStr maxGbkStrlen := by
  cases srcStr with
  | none => exact iff_of_true (meetsUntouched_none _ _) (utf82gbkFits_missing nofun)
  | some src =>
    cases hutf8 : sys.setlocale "zh_CN.utf8" with
    | none =>
      have hres : utf82gbk sys gbkStr (some src) maxGbkStrlen = some (-1, gbkStr) := by
        unfold utf82gbk
        rw [hutf8]
      rw [wideText_source_none _ _ hutf8, hres]
      exact iff_of_true (meetsUntouched_none _ _) (utf82gbkFits_missing fun _ _ => hutf8)
    | some utf8 =>
      rw [utf82gbkFits_iff hutf8]
      cases hvalid : (utf8.decode src).2 with
      | false =>
        have hlen : sizeToInt (utf8.wideLength src) ≤ 0 := by
          rw [LocaleEncoding.wideLength, if_neg (by simp [hvalid])]
          decide
        rw [wideText_invalid "zh_CN.gbk" hutf8 hvalid, utf82gbk_refused hutf8 hlen]
        exact iff_of_true (meetsUntouched_none _ _) ⟨nofun, nofun⟩
      | true =>
        rw [imp_iff_right rfl]
        by_cases hnonpos : toInt32 (utf8.decode src).1.length ≤ 0
        · rw [utf82gbk_meets_iff_of_nonpos hutf8 hvalid hnonpos hmax]
          constructor
          · exact fun h => ⟨h, .inl hnonpos⟩
          · exact And.left
        · by_cases hlen : (utf8.decode src).1.length < 2 ^ 31 - 1
          · have hne : (utf8.decode src).1 ≠ [] := by
              intro hnil
              rw [hnil] at hnonpos
              exact hnonpos (by decide)
            rw [utf82gbk_meets_iff_of_lt hutf8 hvalid hne hlen hmax hcap]
            constructor
            · rintro ⟨hempty, hint⟩
              exact ⟨hempty, .inr ⟨hlen, hint⟩⟩
            · rintro ⟨hempty, h | ⟨-, hint⟩⟩
              · exact absurd h hnonpos
              · exact ⟨hempty, hint⟩
          · rw [utf82gbk_overrun hutf8 hvalid (not_le.mp hnonpos) hlen]
            apply iff_of_false
            · exact fun h => not_meets_none h.meets
            · rintro ⟨-, h | ⟨h, -⟩⟩
              · exact hnonpos h
              · exact hlen h

end Vs17.Str
