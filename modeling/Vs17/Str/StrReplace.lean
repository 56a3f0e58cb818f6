import Vs17.Library.Arrays
import Vs17.Library.CString
import Vs17.Library.Counted
import Vs17.Library.Escape

/-! # Escaping a string in its buffer

`str_replace` puts a backslash in front of each quote, double quote and backslash. It
collects the places of these characters and moves what stands between them to the right,
from the end of the string to its front.
-/

namespace Vs17.Str

open CString Arrays Counted Escape

/-- `str[i] == '\'' || str[i] == '\\' || str[i] == '\"'` -/
def special (c : UInt8) : Bool :=
  c = 39 || c = 92 || c = 34

/-- `if (special) index.push_back(i);` -/
def collect (str : Bytes) (i : ℤ) (index : List ℤ) : Option (List ℤ) := do
  let c ← load str i
  return if special c then index ++ [i] else index

/-- `str[j + npos] = str[j];` -/
def moveByte (npos j : ℤ) (str : Bytes) : Option Bytes := do
  let c ← load str j
  store str (j + npos) c

/-- A round of the `while` loop: the bytes from one place up to the next move by the number of
backslashes in front of them. -/
def shiftRound (index : List ℤ) (npos : ℤ) (str : Bytes) : Option Bytes := do
  let hi ← load index npos
  let lo ← load index (npos - 1)
  let str ← forDown (moveByte npos) hi lo str
  store str (lo + npos - 1) 92

def strReplace (str : Bytes) (size strlenth : ℤ) : Option (ℤ × Bytes) :=
  if strchr 39 str = none ∧ strchr 34 str = none ∧ strchr 92 str = none then some (0, str)
  else do
    let index ← forUp (collect str) 0 strlenth []
    let freeSpace := size - strlenth - 1
    let npos : ℤ := index.length
    if npos - freeSpace > 0 then return (-1, str)
    let str ← forDown (shiftRound (index ++ [strlenth + 1])) (npos + 1) 1 str
    return (0, str)

section Moving

variable {u w G X : Bytes}

theorem moveBlock (u w G X : Bytes) : ∃ G', G'.length = G.length ∧
    forDown (moveByte G.length) (u.length + w.length) u.length (u ++ w ++ G ++ X) =
      some (u ++ G' ++ w ++ X) := by
  induction w using List.reverseRecOn generalizing G X with
  | nil => exact ⟨G, rfl, by rw [forDown_of_le (by simp)]; simp⟩
  | append_singleton w c ih =>
    -- the last byte goes to the end of the bytes it moves over
    obtain ⟨G₁, g, hG₁⟩ := (List.eq_nil_or_concat' (c :: G)).resolve_left (by simp)
    have hlen : G₁.length = G.length := by
      simpa using (congrArg List.length hG₁).symm
    have harr : u ++ (w ++ [c]) ++ G ++ X = u ++ w ++ G₁ ++ g :: X := by
      calc u ++ (w ++ [c]) ++ G ++ X = u ++ w ++ (c :: G) ++ X := by simp
        _ = u ++ w ++ G₁ ++ g :: X := by rw [hG₁]; simp
    have hget : load (u ++ (w ++ [c]) ++ G ++ X) (u.length + w.length) = some c := by
      have hat := load_at (u ++ w) c (G ++ X)
      simpa using hat
    have hset : store (u ++ w ++ G₁ ++ g :: X) (u.length + w.length + G.length) c =
        some (u ++ w ++ G₁ ++ c :: X) := by
      have hat := store_at (u ++ w ++ G₁) g c X
      simpa [hlen, add_assoc] using hat
    obtain ⟨G', hG', hmove⟩ := ih G₁ (c :: X)
    refine ⟨G', hG'.trans hlen, ?_⟩
    rw [forDown_of_lt (by simp), show (u.length : ℤ) + (w ++ [c]).length - 1 =
      u.length + w.length by simp; omega, moveByte, hget, Option.bind_eq_bind, Option.bind_some,
      harr, hset, Option.bind_some, ← hlen, hmove]
    simp

theorem shiftRound_spec {index : List ℤ} {n : ℕ} (p w X : Bytes)
    (hlo : load index n = some (p.length : ℤ))
    (hhi : load index (n + 1) = some ((p ++ w).length : ℤ)) (hG : G.length = n + 1) :
    ∃ G', G'.length = n ∧
      shiftRound index (n + 1) (p ++ w ++ G ++ X) = some (p ++ G' ++ (92 :: w ++ X)) := by
  obtain ⟨G', hG', hmove⟩ := moveBlock p w G X
  obtain ⟨G₁, g, rfl⟩ := (List.eq_nil_or_concat' G').resolve_left (by
    rintro rfl
    simp [hG] at hG')
  have hG₁ : G₁.length = n := by
    simpa [hG] using hG'
  have hset : store (p ++ (G₁ ++ [g]) ++ w ++ X) (p.length + n) 92 =
      some (p ++ G₁ ++ (92 :: w ++ X)) := by
    have hat := store_at (p ++ G₁) g 92 (w ++ X)
    simpa [hG₁] using hat
  refine ⟨G₁, hG₁, ?_⟩
  rw [hG, Nat.cast_succ] at hmove
  rw [shiftRound, hhi, add_sub_cancel_right, hlo, Option.bind_eq_bind, Option.bind_some,
    Option.bind_eq_bind, Option.bind_some, List.length_append, Nat.cast_add, hmove,
    Option.bind_some, ← add_assoc, add_sub_cancel_right, hset]

theorem shift_spec (u G X : Bytes) (more : List ℤ)
    (hG : G.length = (positions special 0 u).length) :
    forDown (shiftRound (positions special 0 u ++ (u.length : ℤ) :: more))
      ((positions special 0 u).length + 1) 1 (u ++ G ++ X) = some (escape special 92 u ++ X) := by
  induction hn : (positions special 0 u).length generalizing u G X more with
  | zero =>
    rw [hn] at hG
    obtain rfl := List.length_eq_zero_iff.mp hG
    have hu : ∀ c ∈ u, ¬ special c := by
      intro c hc hspecial
      obtain ⟨p, d, w, rfl, hd, hw⟩ := exists_last ⟨c, hc, hspecial⟩
      rw [positions_append, positions, if_pos hd] at hn
      simp at hn
    rw [forDown_of_le (by simp), escape_eq_self hu, List.append_nil]
  | succ n ih =>
    have hu : ∃ c ∈ u, special c := by
      by_contra hnone
      push Not at hnone
      rw [positions_eq_nil 0 (by simpa using hnone)] at hn
      simp at hn
    obtain ⟨p, c, w, rfl, hc, hw⟩ := exists_last hu
    have hindex : positions special 0 (p ++ c :: w) =
        positions special 0 p ++ [(p.length : ℤ)] := by
      rw [positions_append, positions, if_pos hc, positions_eq_nil _ hw, zero_add]
    have hpn : (positions special 0 p).length = n := by
      simpa [hindex] using hn
    rw [hindex, List.append_assoc, List.singleton_append]
    have hlo := load_at (positions special 0 p) (p.length : ℤ) (((p ++ c :: w).length : ℤ) :: more)
    have hhi := load_at (positions special 0 p ++ [(p.length : ℤ)]) ((p ++ c :: w).length : ℤ) more
    have hplace : ((positions special 0 p ++ [(p.length : ℤ)]).length : ℤ) = n + 1 := by
      simp [hpn]
    rw [hpn] at hlo
    rw [hplace, List.append_assoc, List.singleton_append] at hhi
    obtain ⟨G', hG', hround⟩ := shiftRound_spec p (c :: w) X hlo hhi (hG.trans hn)
    have hnext := ih p G' (92 :: c :: w ++ X) ((p ++ c :: w).length :: more)
      (by rw [hG', hpn]) hpn
    rw [forDown_of_lt (by omega), Nat.cast_succ, add_sub_cancel_right, hround, Option.bind_some,
      hnext, escape_append, escape_cons_of_special hc, escape_eq_self hw]
    simp

theorem shift_terminated (s G R : Bytes) (hG : G.length = (positions special 0 s).length) :
    forDown (shiftRound (positions special 0 s ++ [(s.length : ℤ) + 1]))
      ((positions special 0 s).length + 1) 1 (s ++ 0 :: (G ++ R)) =
        some (escape special 92 s ++ 0 :: R) := by
  have hzero : ∀ c ∈ ([0] : Bytes), ¬ special c := by simp [special]
  have hpositions : positions special 0 (s ++ [0]) = positions special 0 s := by
    rw [positions_append, positions_eq_nil _ hzero, List.append_nil]
  have hescape : escape special 92 (s ++ [0]) = escape special 92 s ++ [0] := by
    rw [escape_append, escape_eq_self hzero]
  have hshift := shift_spec (s ++ [0]) G R [] (by rw [hpositions, hG])
  rw [hpositions, hescape, List.length_append, List.length_singleton, Nat.cast_succ] at hshift
  have harr : s ++ 0 :: (G ++ R) = s ++ [0] ++ G ++ R := by simp
  rw [harr, hshift]
  simp

end Moving

section Replacing

variable {s rest : Bytes}

theorem strchr_text {c : UInt8} (hs : (0 : UInt8) ∉ s) :
    strchr c (s ++ 0 :: rest) = none ↔ c ∉ s := by
  rw [strchr_eq_none, cstr_append hs, show Text.cstr (0 :: rest) = [] by simp [Text.cstr],
    List.append_nil]

theorem searches_iff (hs : (0 : UInt8) ∉ s) :
    strchr 39 (s ++ 0 :: rest) = none ∧ strchr 34 (s ++ 0 :: rest) = none ∧
      strchr 92 (s ++ 0 :: rest) = none ↔ ∀ c ∈ s, ¬ special c := by
  rw [strchr_text hs, strchr_text hs, strchr_text hs]
  constructor
  · rintro ⟨hquote, hdouble, hslash⟩ c hc hspecial
    simp only [special, Bool.or_eq_true, decide_eq_true_eq] at hspecial
    rcases hspecial with (rfl | rfl) | rfl
    · exact hquote hc
    · exact hslash hc
    · exact hdouble hc
  · intro h
    exact ⟨fun hc => h 39 hc rfl, fun hc => h 34 hc rfl, fun hc => h 92 hc rfl⟩

theorem collect_spec (s post : Bytes) :
    forUp (collect (s ++ post)) 0 s.length [] = some (positions special 0 s) := by
  have hrun : ∃ index, forUp (collect (s ++ post)) 0 s.length [] = some index ∧
      index = positions special 0 (s.take (s.length : ℤ).toNat) := by
    apply forUp_keeps _ (fun i index => index = positions special 0 (s.take i.toNat)) rfl
      (Int.natCast_nonneg s.length)
    intro i index hi hilen hindex
    obtain ⟨pre, c, tail, rfl, rfl⟩ := exists_split hi hilen
    have hget : load (pre ++ c :: tail ++ post) pre.length = some c := by
      rw [List.append_assoc]
      exact load_at ..
    have hnext : ((pre.length : ℤ) + 1).toNat = (pre ++ [c]).length := by simp
    rw [Int.toNat_natCast, List.take_left] at hindex
    refine ⟨_, by rw [collect, hget]; rfl, ?_⟩
    rw [hnext, List.append_cons pre c tail, List.take_left, positions_append, positions, hindex,
      zero_add]
    split <;> simp [positions]
  obtain ⟨index, hrun, rfl⟩ := hrun
  rw [hrun, Int.toNat_natCast, List.take_length]

theorem strReplace_of_none (hs : (0 : UInt8) ∉ s) (hnone : ∀ c ∈ s, ¬ special c) (size n : ℤ) :
    strReplace (s ++ 0 :: rest) size n = some (0, s ++ 0 :: rest) := by
  rw [strReplace, if_pos ((searches_iff hs).mpr hnone)]

theorem strReplace_of_special (hs : (0 : UInt8) ∉ s) (hspecial : ¬ ∀ c ∈ s, ¬ special c) :
    strReplace (s ++ 0 :: rest) (s ++ 0 :: rest).length s.length =
      if (rest.length : ℤ) < (positions special 0 s).length then some (-1, s ++ 0 :: rest)
      else (forDown (shiftRound (positions special 0 s ++ [(s.length : ℤ) + 1]))
        ((positions special 0 s).length + 1) 1 (s ++ 0 :: rest)).map fun str => (0, str) := by
  have hspace : ((s ++ 0 :: rest).length : ℤ) - s.length - 1 = rest.length := by
    rw [List.length_append, List.length_cons]
    omega
  rw [strReplace, if_neg (mt (searches_iff hs).mp hspecial), collect_spec,
    Option.bind_eq_bind, Option.bind_some, hspace]
  by_cases hroom : (rest.length : ℤ) < (positions special 0 s).length
  · rw [if_pos hroom, if_pos (by omega)]
    rfl
  · rw [if_neg hroom, if_neg (by omega)]
    exact (Option.map_eq_bind ..).symm

/-- A string of bytes other than zero in its buffer: it is escaped in place exactly when the
escaped string fits, and else stays as it is. Every access is inside the buffer. -/
theorem strReplace_escapes (hs : (0 : UInt8) ∉ s) :
    ((escape special 92 s).length < (s ++ 0 :: rest).length →
      ∃ rest', (escape special 92 s ++ 0 :: rest').length = (s ++ 0 :: rest).length ∧
        strReplace (s ++ 0 :: rest) (s ++ 0 :: rest).length s.length =
          some (0, escape special 92 s ++ 0 :: rest')) ∧
    ((s ++ 0 :: rest).length ≤ (escape special 92 s).length →
      strReplace (s ++ 0 :: rest) (s ++ 0 :: rest).length s.length =
        some (-1, s ++ 0 :: rest)) ∧
    unescape 92 (escape special 92 s) = s := by
  have hlen : (escape special 92 s).length = s.length + (positions special 0 s).length :=
    length_escape 0
  have htotal : (s ++ 0 :: rest).length = s.length + rest.length + 1 := by
    rw [List.length_append, List.length_cons, ← Nat.add_assoc]
  refine ⟨fun hfits => ?_, fun hfull => ?_, unescape_escape rfl s⟩
  · by_cases hnone : ∀ c ∈ s, ¬ special c
    · rw [escape_eq_self hnone]
      exact ⟨rest, rfl, strReplace_of_none hs hnone _ _⟩
    · obtain ⟨G, R, rfl, hG⟩ : ∃ G R, rest = G ++ R ∧
          G.length = (positions special 0 s).length :=
        ⟨rest.take _, rest.drop _, (List.take_append_drop ..).symm,
          List.length_take_of_le (by omega)⟩
      refine ⟨R, ?_, ?_⟩
      · rw [List.length_append, List.length_cons, hlen, htotal, List.length_append, hG]
        omega
      · rw [strReplace_of_special hs hnone, if_neg (by omega), shift_terminated s G R hG]
        rfl
  · by_cases hnone : ∀ c ∈ s, ¬ special c
    · rw [positions_eq_nil 0 hnone, List.length_nil] at hlen
      omega
    · rw [strReplace_of_special hs hnone, if_pos (by omega)]

theorem strReplace_quote :
    ((escape special 92 [97, 39]).length < ([97, 39] ++ 0 :: [1, 2]).length →
      ∃ rest', (escape special 92 [97, 39] ++ 0 :: rest').length =
          ([97, 39] ++ 0 :: [1, 2]).length ∧
        strReplace ([97, 39] ++ 0 :: [1, 2]) ([97, 39] ++ 0 :: [1, 2] : Bytes).length
          ([97, 39] : Bytes).length = some (0, escape special 92 [97, 39] ++ 0 :: rest')) ∧
    (([97, 39] ++ 0 :: [1, 2]).length ≤ (escape special 92 [97, 39]).length →
      strReplace ([97, 39] ++ 0 :: [1, 2]) ([97, 39] ++ 0 :: [1, 2] : Bytes).length
        ([97, 39] : Bytes).length = some (-1, [97, 39] ++ 0 :: [1, 2])) ∧
    unescape 92 (escape special 92 [97, 39]) = [97, 39] :=
  @strReplace_escapes [97, 39] [1, 2] (by decide)

end Replacing

end Vs17.Str
