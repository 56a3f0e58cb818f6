import Mathlib.Data.List.Perm.Subperm
import Mathlib.Logic.Function.Basic
import Vs17.Library.Arrays
import Vs17.Library.Counted
import Vs17.Library.Ints
import Vs17.Library.Loop
import Vs17.Library.Windows
import Vs17.Library.Words

/-! # The longest substring without repetition

`maxSubStr` moves a window over the string, with the places of its characters in a map. Where the
next character is in the window already, the window is compared with the best one so far and is
cut behind that character, and the loop goes on without moving forward. The places are kept as
`int`s, the position in the string as an `unsigned int`.
-/

namespace Vs17.Str

open Words Arrays Counted Ints Windows

structure WindowScan where
  substr : Bytes
  maxLen : ℤ
  indexMap : UInt8 → Option ℤ
  posBegin : ℤ
  i : ℤ

/-- `std::string::substr`, with arguments converted to `size_t`. No result is an exception. -/
def substring (str : Bytes) (pos n : ℤ) : Option Bytes :=
  if pos % 2 ^ 64 ≤ str.length then some ((str.drop (pos % 2 ^ 64).toNat).take n.toNat) else none

/-- The best substring so far and its length, compared with the window. -/
def longerWindow (str : Bytes) (s : WindowScan) : Option (Bytes × ℤ) :=
  let len := (s.i - s.posBegin) % 2 ^ 32
  if s.maxLen < len then (substring str s.posBegin len).map fun substr => (substr, len)
  else some (s.substr, s.maxLen)

/-- The characters from `lastBegin` on and in front of `posBegin` are erased. -/
def eraseFront (str : Bytes) (lastBegin posBegin : ℤ) (indexMap : UInt8 → Option ℤ) :
    Option (UInt8 → Option ℤ) :=
  forUp (fun tmp m => (load str tmp).map fun c => Function.update m c none) lastBegin posBegin
    indexMap

/-- What is done when the character has been found at this place. -/
def foundReplicate (str : Bytes) (s : WindowScan) (second : ℤ) : Option WindowScan := do
  let (substr, maxLen) ← longerWindow str s
  let posBegin ← checked (second + 1)
  let indexMap ← eraseFront str s.posBegin posBegin s.indexMap
  return ⟨substr, maxLen, indexMap, posBegin, s.i⟩

/-- A round of the loop. No result is an exception or an arithmetic overflow. -/
def windowBody (str : Bytes) (s : WindowScan) : WindowScan ⊕ Option Bytes :=
  if s.i < str.length then
    match load str s.i with
    | none => .inr none
    | some c =>
      match s.indexMap c with
      | some second =>
        match foundReplicate str s second with
        | none => .inr none
        | some s' => .inl s'
      | none =>
        .inl { s with
          indexMap := Function.update s.indexMap c (some (toInt32 s.i))
          i := (s.i + 1) % 2 ^ 32 }
  else
    let len := (str.length - s.posBegin) % 2 ^ 64
    .inr (if s.maxLen < len then substring str s.posBegin len else some s.substr)

def maxSubStr (n : ℕ) (str : Bytes) : Option Bytes :=
  (Loop.run (windowBody str) n ⟨[], 0, fun _ => none, 0, 0⟩).join

section Round

variable {str w u x y v : Bytes} {s : WindowScan} {b p q k : ℕ} {c : UInt8} {second : ℤ}

/-- The loop has the window from this place on, and the best stretch in front of it. -/
structure Holds (str : Bytes) (b p : ℕ) (w : Bytes) (s : WindowScan) : Prop where
  window : Stretch str b w
  best : BestBefore str b p s.substr
  maxLen : s.maxLen = s.substr.length
  posBegin : s.posBegin = b
  place : s.i = (b + w.length : ℕ)
  bound : b < 2 ^ 31
  found : ∀ j c, w[j]? = some c → s.indexMap c = some (toInt32 (b + j : ℕ))
  absent : ∀ c ∉ w, s.indexMap c = none

theorem length_le_of_nodup (h : w.Nodup) : w.length ≤ 256 := by
  have hsub := List.subperm_of_subset (h.map fun _ _ => UInt8.toNat_inj.mp) fun n hn => by
    obtain ⟨c, -, rfl⟩ := List.mem_map.mp hn
    exact List.mem_range.mpr c.toNat_lt
  simpa using hsub.length_le

theorem Holds.length_le (h : Holds str b p w s) : w.length ≤ 256 :=
  length_le_of_nodup h.window.nodup

theorem substring_stretch (h : Stretch str b w) (hb : b < 2 ^ 31) :
    substring str b w.length = some w := by
  have hpos : (b : ℤ) % 2 ^ 64 = b := Int.emod_eq_of_lt (by omega) (by omega)
  have hle := h.add_length_le
  obtain ⟨x, y, rfl, rfl⟩ := h.split
  rw [substring, hpos, if_pos (by omega), Int.toNat_natCast, Int.toNat_natCast, List.append_assoc,
    List.drop_left, List.take_left]

theorem eraseFront_eq (x v y : Bytes) (m : UInt8 → Option ℤ) :
    eraseFront (x ++ v ++ y) x.length (x.length + v.length) m =
      some fun c => if c ∈ v then none else m c := by
  unfold eraseFront
  induction v generalizing x m with
  | nil =>
    rw [List.length_nil, forUp_of_le (by omega)]
    simp
  | cons c v ih =>
    have hlt : (x.length : ℤ) < x.length + (c :: v).length := by
      rw [List.length_cons]
      omega
    have hnext := ih (x ++ [c]) (Function.update m c none)
    have hsame : x ++ [c] ++ v ++ y = x ++ c :: v ++ y := by simp
    have hbegin : ((x ++ [c]).length : ℤ) = x.length + 1 := by simp
    have hend : (x.length : ℤ) + 1 + v.length = x.length + (c :: v).length := by
      rw [List.length_cons]
      omega
    have hload : load (x ++ c :: v ++ y) x.length = some c := by
      rw [List.append_assoc, List.cons_append]
      exact load_at ..
    rw [hsame, hbegin, hend] at hnext
    rw [forUp_of_lt hlt, hload, Option.map_some, Option.bind_some, hnext]
    congr 1
    ext1 d
    by_cases hd : d = c
    · simp [hd]
    · simp [hd]

/-- The longer one of the best stretch and the window, where a tie keeps the stretch. -/
def longer (u w : Bytes) : Bytes :=
  if u.length < w.length then w else u

theorem length_le_longer (u w : Bytes) : w.length ≤ (longer u w).length := by
  unfold longer
  split_ifs with hlt
  · exact le_rfl
  · exact not_lt.mp hlt

theorem Holds.longerWindow_eq (h : Holds str b p w s) :
    longerWindow str s = some (longer s.substr w, ((longer s.substr w).length : ℤ)) := by
  have hshort := h.length_le
  have hbound := h.bound
  have hlen : (s.i - b) % 2 ^ 32 = w.length := by
    rw [h.place]
    omega
  unfold longerWindow longer
  simp only [h.posBegin, hlen, h.maxLen, substring_stretch h.window hbound, Int.ofNat_lt]
  split_ifs
  · rfl
  · rfl

theorem Holds.lt_length (h : Holds str b p w s) (hc : str[b + w.length]? = some c) :
    s.i < str.length := by
  obtain ⟨hlt, -⟩ := List.getElem?_eq_some_iff.mp hc
  rw [h.place]
  omega

theorem Holds.load (h : Holds str b p w s) (hc : str[b + w.length]? = some c) :
    load str s.i = some c := by
  rw [h.place, load_nat, hc]

/-- The window grows. -/
theorem Holds.insert (h : Holds str b p w s) (hc : str[b + w.length]? = some c) (hnot : c ∉ w) :
    ∃ s', windowBody str s = .inl s' ∧ Holds str b p (w ++ [c]) s' := by
  have hshort := h.length_le
  have hbound := h.bound
  have hround : windowBody str s = .inl { s with
      indexMap := Function.update s.indexMap c (some (toInt32 s.i))
      i := (s.i + 1) % 2 ^ 32 } := by
    simp only [windowBody, if_pos (h.lt_length hc), h.load hc, h.absent c hnot]
  refine ⟨_, hround, ?_⟩
  constructor
  · exact h.window.concat hc hnot
  · exact h.best
  · exact h.maxLen
  · exact h.posBegin
  · simp only [h.place, List.length_append, List.length_singleton]
    omega
  · exact hbound
  · intro j d hd
    rcases lt_or_ge j w.length with hj | hj
    · rw [List.getElem?_append_left hj] at hd
      have hne : d ≠ c := fun heq => hnot (heq ▸ List.mem_of_getElem? hd)
      simp only [Function.update_of_ne hne, h.found j d hd]
    · rw [List.getElem?_append_right hj] at hd
      obtain ⟨hlen, rfl⟩ := List.getElem?_eq_some_iff.mp hd
      obtain rfl : j = w.length := by
        simp only [List.length_singleton] at hlen
        omega
      simp [h.place]
  · intro d hd
    have hne : d ≠ c := fun heq => hd (by simp [heq])
    have hdw : d ∉ w := fun hmem => hd (List.mem_append_left _ hmem)
    simp only [Function.update_of_ne hne, h.absent d hdw]

/-- What the loop does with the map when the window is cut. -/
theorem Holds.eraseFront_eq (h : Holds str b p w s) (hk : k ≤ w.length) :
    eraseFront str b (b + k : ℕ) s.indexMap =
      some fun c => if c ∈ w.take k then none else s.indexMap c := by
  obtain ⟨x, y, hstr, rfl⟩ := h.window.split
  have herase := Str.eraseFront_eq x (w.take k) (w.drop k ++ y) s.indexMap
  have hsame : x ++ w.take k ++ (w.drop k ++ y) = str := by
    rw [hstr, List.append_assoc x, ← List.append_assoc (w.take k), List.take_append_drop,
      List.append_assoc]
  rwa [hsame, List.length_take_of_le hk, ← Int.natCast_add] at herase

/-- The best stretch in front of the place behind the earlier one of two equal characters. -/
theorem Holds.best_longer (h : Holds str b p w s) (hc : str[b + w.length]? = some c)
    (hk : w[k]? = some c) : ∃ p', BestBefore str (b + k + 1) p' (longer s.substr w) := by
  obtain ⟨hlt, -⟩ := List.getElem?_eq_some_iff.mp hk
  have hq : str[b + k]? = some c := by rw [h.window.getElem? hlt, hk]
  unfold longer
  split_ifs with hlonger
  · exact ⟨b, h.best.advance_longer h.window hc hq (by omega) (by omega) hlonger⟩
  · exact ⟨p, h.best.advance_keep hc hq (by omega) (by omega) (not_lt.mp hlonger)⟩

theorem Holds.cut (h : Holds str b p w s) (hc : str[b + w.length]? = some c)
    (hk : w[k]? = some c) (hlt : b + k + 1 < 2 ^ 31) :
    ∃ s' p', windowBody str s = .inl s' ∧ Holds str (b + k + 1) p' (w.drop (k + 1)) s' := by
  obtain ⟨hkw, -⟩ := List.getElem?_eq_some_iff.mp hk
  obtain ⟨p', hbest⟩ := h.best_longer hc hk
  have hint : toInt32 (b + k : ℕ) = (b + k : ℕ) := toInt32_natCast (by omega)
  have hnext : checked (((b + k : ℕ) : ℤ) + 1) = some ((b + (k + 1) : ℕ) : ℤ) :=
    checked_eq (by omega) (by omega)
  have hround : windowBody str s = .inl ⟨longer s.substr w, (longer s.substr w).length,
      fun c => if c ∈ w.take (k + 1) then none else s.indexMap c, (b + (k + 1) : ℕ), s.i⟩ := by
    simp only [windowBody, if_pos (h.lt_length hc), h.load hc, h.found k c hk, hint,
      foundReplicate, h.longerWindow_eq, hnext, h.posBegin, h.eraseFront_eq hkw,
      Option.bind_eq_bind, Option.bind_some]
    rfl
  refine ⟨_, p', hround, ?_⟩
  have hdisjoint : ∀ d, d ∈ w.drop (k + 1) → d ∉ w.take (k + 1) := by
    have hnodup := h.window.nodup
    rw [← List.take_append_drop (k + 1) w] at hnodup
    exact fun d hd hd' => List.disjoint_of_nodup_append hnodup hd' hd
  constructor
  · exact h.window.drop hkw
  · exact hbest
  · rfl
  · rfl
  · rw [h.place, List.length_drop]
    omega
  · exact hlt
  · intro j d hd
    have hmem := List.mem_of_getElem? hd
    rw [List.getElem?_drop] at hd
    have hplace : b + (k + 1 + j) = b + k + 1 + j := by omega
    simp only [if_neg (hdisjoint d hmem), h.found _ d hd, hplace]
  · intro d hd
    by_cases htake : d ∈ w.take (k + 1)
    · simp only [if_pos htake]
    · have hdw : d ∉ w := by
        rw [← List.take_append_drop (k + 1) w, List.mem_append]
        exact not_or.mpr ⟨htake, hd⟩
      simp only [if_neg htake, h.absent d hdw]

/-- The place of the earlier character is no `int` less one, or is negative as an `int`. -/
theorem Holds.overflow (h : Holds str b p w s) (hc : str[b + w.length]? = some c)
    (hk : w[k]? = some c) (heq : b + k + 1 = 2 ^ 31) : windowBody str s = .inr none := by
  have hint : toInt32 (b + k : ℕ) = (2 ^ 31 - 1 : ℤ) := by
    rw [toInt32_natCast (by omega)]
    omega
  have hnone : checked ((2 ^ 31 - 1 : ℤ) + 1) = none := checked_eq_none (by decide)
  simp only [windowBody, if_pos (h.lt_length hc), h.load hc, h.found k c hk, hint, foundReplicate,
    h.longerWindow_eq, hnone, Option.bind_eq_bind, Option.bind_some, Option.bind_none]

theorem Holds.exit (h : Holds str b p w s) (hend : b + w.length = str.length) :
    windowBody str s = .inr (some (longer s.substr w)) := by
  have hshort := h.length_le
  have hbound := h.bound
  have hlen : (str.length - (b : ℤ)) % 2 ^ 64 = w.length := by omega
  have hplace : ¬ s.i < str.length := by
    rw [h.place]
    omega
  unfold longer
  simp only [windowBody, if_neg hplace, h.posBegin, hlen, h.maxLen, Int.ofNat_lt,
    substring_stretch h.window hbound]
  split_ifs
  · rfl
  · rfl

/-- The window starts at a negative place, and the loop finds the same character again. -/
structure Trapped (str : Bytes) (s : WindowScan) : Prop where
  again : ∃ c second, load str s.i = some c ∧ s.indexMap c = some second ∧
    s.posBegin = second + 1
  int : -2 ^ 31 ≤ s.posBegin ∧ s.posBegin < 2 ^ 31
  short : (s.i - s.posBegin) % 2 ^ 32 ≤ s.maxLen

theorem Trapped.round (h : Trapped str s) : windowBody str s = .inl s := by
  obtain ⟨c, second, hload, hfound, hbegin⟩ := h.again
  have hlonger : longerWindow str s = some (s.substr, s.maxLen) := if_neg (not_lt.mpr h.short)
  have hnext : checked (second + 1) = some s.posBegin := by
    rw [← hbegin]
    exact checked_eq h.int.1 h.int.2
  have herase : eraseFront str s.posBegin s.posBegin s.indexMap = some s.indexMap :=
    forUp_of_le le_rfl
  have hlt := (load_bounds hload).2
  simp only [windowBody, if_pos hlt, hload, hfound, foundReplicate, hlonger, hnext, herase,
    Option.bind_eq_bind, Option.bind_some]
  rfl

/-- An earlier character behind the range of `int` has a negative place in the map. -/
theorem Holds.trap (h : Holds str b p w s) (hc : str[b + w.length]? = some c)
    (hk : w[k]? = some c) (hbig : 2 ^ 31 < b + k + 1) :
    ∃ s', windowBody str s = .inl s' ∧ Trapped str s' := by
  obtain ⟨hkw, -⟩ := List.getElem?_eq_some_iff.mp hk
  have hshort := h.length_le
  have hbound := h.bound
  have hint : toInt32 (b + k : ℕ) = (b + k : ℕ) - 2 ^ 32 := by
    obtain ⟨m, hm, hlo, hhi⟩ := exists_toInt32 (b + k : ℕ)
    omega
  have hnext : checked (((b + k : ℕ) : ℤ) - 2 ^ 32 + 1) = some (((b + k : ℕ) : ℤ) - 2 ^ 32 + 1) :=
    checked_eq (by omega) (by omega)
  have herase : eraseFront str b (((b + k : ℕ) : ℤ) - 2 ^ 32 + 1) s.indexMap = some s.indexMap :=
    forUp_of_le (by omega)
  have hround : windowBody str s = .inl ⟨longer s.substr w, (longer s.substr w).length, s.indexMap,
      ((b + k : ℕ) : ℤ) - 2 ^ 32 + 1, s.i⟩ := by
    simp only [windowBody, if_pos (h.lt_length hc), h.load hc, h.found k c hk, hint,
      foundReplicate, h.longerWindow_eq, hnext, h.posBegin, herase, Option.bind_eq_bind,
      Option.bind_some]
    rfl
  have hlonger := length_le_longer s.substr w
  refine ⟨_, hround, ?_⟩
  constructor
  · refine ⟨c, _, h.load hc, ?_, rfl⟩
    rw [h.found k c hk, hint]
  · constructor
    · dsimp only
      omega
    · dsimp only
      omega
  · simp only [h.place]
    omega

end Round

section Result

variable {str w : Bytes} {s : WindowScan} {b p : ℕ}

theorem holds_start (str : Bytes) : Holds str 0 0 [] ⟨[], 0, fun _ => none, 0, 0⟩ where
  window := stretch_nil (Nat.zero_le _)
  best := bestBefore_zero str
  maxLen := rfl
  posBegin := rfl
  place := rfl
  bound := by decide
  found j c h := by simp at h
  absent c h := rfl

theorem Holds.best_longer_exit (h : Holds str b p w s) (hend : b + w.length = str.length) :
    Best str (longer s.substr w) := by
  unfold longer
  split_ifs with hlonger
  · exact h.best.finish_longer h.window hend hlonger
  · exact h.best.finish_keep hend (not_lt.mp hlonger)

theorem Holds.lt_of_nodup (h : Holds str b p w s) {c : UInt8} {k : ℕ}
    (hdistinct : (str.drop (2 ^ 31 - 1)).Nodup) (hc : str[b + w.length]? = some c)
    (hk : w[k]? = some c) : b + k + 1 < 2 ^ 31 := by
  by_contra hbig
  obtain ⟨hkw, -⟩ := List.getElem?_eq_some_iff.mp hk
  obtain ⟨hlen, -⟩ := List.getElem?_eq_some_iff.mp hc
  have hq : str[b + k]? = some c := by rw [h.window.getElem? hkw, hk]
  have hstretch : Stretch str (2 ^ 31 - 1) (str.drop (2 ^ 31 - 1)) :=
    ⟨hdistinct, str.take (2 ^ 31 - 1), [], by simp, List.length_take_of_le (by omega)⟩
  have hle := hstretch.le_of_repeated hq hc (by omega) (by omega)
  rw [List.length_drop] at hle
  omega

theorem Holds.ends (h : Holds str b p w s) (hdistinct : (str.drop (2 ^ 31 - 1)).Nodup) :
    ∃ r, Best str r ∧ Loop.Ends (windowBody str) s (some r) := by
  induction hn : (str.length - b) + (str.length - (b + w.length)) using Nat.strong_induction_on
    generalizing b p w s with
  | _ n ih =>
    have hle := h.window.add_length_le
    rcases hle.lt_or_eq with hlt | hend
    · have hc := List.getElem?_eq_getElem hlt
      by_cases hmem : str[b + w.length] ∈ w
      · obtain ⟨k, hk⟩ := List.mem_iff_getElem?.mp hmem
        obtain ⟨hkw, -⟩ := List.getElem?_eq_some_iff.mp hk
        obtain ⟨s', p', hround, hholds⟩ := h.cut hc hk (h.lt_of_nodup hdistinct hc hk)
        obtain ⟨r, hbest, hends⟩ := ih _ (by simp only [List.length_drop]; omega) hholds rfl
        exact ⟨r, hbest, .round hround hends⟩
      · obtain ⟨s', hround, hholds⟩ := h.insert hc hmem
        obtain ⟨r, hbest, hends⟩ := ih _
          (by simp only [List.length_append, List.length_singleton]; omega) hholds rfl
        exact ⟨r, hbest, .round hround hends⟩
    · exact ⟨_, h.best_longer_exit hend, .exit (h.exit hend)⟩

theorem Holds.nodup_of_end (h : Holds str b p w s) (hend : b + w.length = str.length) :
    (str.drop (2 ^ 31 - 1)).Nodup := by
  have hbound := h.bound
  obtain ⟨x, y, rfl, rfl⟩ := h.window.split
  obtain rfl : y = [] := by
    simp only [List.length_append] at hend
    exact List.length_eq_zero_iff.mp (by omega)
  have hsuffix : (x ++ w ++ []).drop (2 ^ 31 - 1) <:+ (x ++ w ++ []).drop x.length :=
    List.drop_suffix_drop_left _ (by omega)
  rw [List.append_nil, List.drop_left] at hsuffix
  rw [List.append_nil]
  exact h.window.nodup.sublist hsuffix.sublist

/-- The loop holds a window, or is trapped. -/
def Scanning (str : Bytes) (s : WindowScan) : Prop :=
  (∃ b p w, Holds str b p w s) ∨ Trapped str s

theorem scanning_round (hrepeat : ¬ (str.drop (2 ^ 31 - 1)).Nodup) (h : Scanning str s) :
    (∃ s', windowBody str s = .inl s' ∧ Scanning str s') ∨ windowBody str s = .inr none := by
  rcases h with ⟨b, p, w, hholds⟩ | htrap
  · rcases hholds.window.add_length_le.lt_or_eq with hlt | hend
    · have hc := List.getElem?_eq_getElem hlt
      by_cases hmem : str[b + w.length] ∈ w
      · obtain ⟨k, hk⟩ := List.mem_iff_getElem?.mp hmem
        rcases lt_trichotomy (b + k + 1) (2 ^ 31) with hfit | heq | hbig
        · obtain ⟨s', p', hround, hnext⟩ := hholds.cut hc hk hfit
          exact .inl ⟨s', hround, .inl ⟨_, p', _, hnext⟩⟩
        · exact .inr (hholds.overflow hc hk heq)
        · obtain ⟨s', hround, htrap⟩ := hholds.trap hc hk hbig
          exact .inl ⟨s', hround, .inr htrap⟩
      · obtain ⟨s', hround, hnext⟩ := hholds.insert hc hmem
        exact .inl ⟨s', hround, .inl ⟨b, p, _, hnext⟩⟩
    · exact absurd (hholds.nodup_of_end hend) hrepeat
  · exact .inl ⟨s, htrap.round, .inr htrap⟩

theorem not_ends (hrepeat : ¬ (str.drop (2 ^ 31 - 1)).Nodup) (r : Bytes) :
    ¬ Loop.Ends (windowBody str) ⟨[], 0, fun _ => none, 0, 0⟩ (some r) := by
  intro h
  have hnone : some r = none := by
    apply h.invariant (I := Scanning str) (J := (· = none)) (.inl ⟨0, 0, [], holds_start str⟩)
    · intro s s' hs hround
      rcases scanning_round hrepeat hs with ⟨t, ht, hnext⟩ | hfault
      · obtain rfl := Sum.inl.inj (ht.symm.trans hround)
        exact hnext
      · cases hfault.symm.trans hround
    · intro s res hs hround
      rcases scanning_round hrepeat hs with ⟨t, ht, hnext⟩ | hfault
      · cases ht.symm.trans hround
      · exact (Sum.inr.inj (hfault.symm.trans hround)).symm
  cases hnone

/-- The function returns the leftmost of the longest substrings without repetition. -/
def Longest (str : Bytes) : Prop :=
  ∃ r, Best str r ∧ ∃ n₀, ∀ n ≥ n₀, maxSubStr n str = some r

/-- `maxSubStr` is right for the strings without a repetition from the last place on that has a
successor in `int`, and for no other. These are all strings of at most 2^31 characters. -/
theorem maxSubStr_longest_iff (str : Bytes) :
    Longest str ↔ (str.drop (2 ^ 31 - 1)).Nodup := by
  constructor
  · rintro ⟨r, -, n, hn⟩
    by_contra hrepeat
    exact not_ends hrepeat r (Loop.ends_of_join (hn n le_rfl))
  · intro hdistinct
    obtain ⟨r, hbest, hends⟩ := (holds_start str).ends hdistinct
    exact ⟨r, hbest, hends.exists_join⟩

/-- Of 2^31 + 1 equal characters the last two have no successor in `int`. -/
theorem maxSubStr_equal : ¬ Longest (List.replicate (2 ^ 31 + 1) 97) := by
  have hrest : 2 ^ 31 + 1 - (2 ^ 31 - 1) = 2 := rfl
  rw [maxSubStr_longest_iff, List.drop_replicate, hrest]
  decide

end Result

example : maxSubStr 20 [97, 98, 99, 97, 98, 99, 98, 98] = some [97, 98, 99] := by decide

end Vs17.Str
