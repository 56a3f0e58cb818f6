import Vs17.Library.CString

/-! # Words and pieces of text

A stream is read word by word, with blanks between the words, and a file in pieces that end with a
newline or where the buffer is full.
-/

namespace Vs17.Tokens

open CString Text

/-- `isspace` -/
def isSpace (c : UInt8) : Bool := c = 32 || (9 ≤ c && c ≤ 13)

def skip (s : Bytes) : Bytes := s.dropWhile isSpace

/-- The first word. -/
def word (s : Bytes) : Bytes := (skip s).takeWhile (!isSpace ·)

/-- What follows the first word. -/
def behind (s : Bytes) : Bytes := (skip s).dropWhile (!isSpace ·)

/-- Some blanks, or none. -/
def IsBlank (g : Bytes) : Prop := ∀ c ∈ g, isSpace c

structure IsWord (w : Bytes) : Prop where
  ne_nil : w ≠ []
  not_isSpace : ∀ c ∈ w, ¬ isSpace c

/-- What is read with `fgets`, for the piece that has been begun, and pieces of at most `n`
bytes. -/
def pieces (n : ℕ) : Bytes → Bytes → List Bytes
  | [], cur => if cur = [] then [] else [cur]
  | c :: s, cur =>
    if c = newline ∨ cur.length + 1 = n then (cur ++ [c]) :: pieces n s []
    else pieces n s (cur ++ [c])

variable {g w r s cur : Bytes} {c : UInt8} {n : ℕ}

theorem IsBlank.head (hg : IsBlank g) (hne : g ≠ []) : ∀ c ∈ (g ++ r).head?, isSpace c := by
  intro c hc
  cases g with
  | nil => exact absurd rfl hne
  | cons x g =>
    cases hc
    exact hg c (List.mem_cons_self ..)

theorem skip_append (hg : IsBlank g) (hw : IsWord w) : skip (g ++ (w ++ r)) = w ++ r := by
  obtain ⟨c, w, rfl⟩ := List.exists_cons_of_ne_nil hw.ne_nil
  rw [skip, List.dropWhile_append_of_pos hg, List.cons_append,
    List.dropWhile_cons_of_neg (hw.not_isSpace c (List.mem_cons_self ..))]

theorem word_append (hg : IsBlank g) (hw : IsWord w) (hr : ∀ c ∈ r.head?, isSpace c) :
    word (g ++ (w ++ r)) = w := by
  have hpos : ∀ c ∈ w, (!isSpace c) = true := by simpa using hw.not_isSpace
  rw [word, skip_append hg hw, List.takeWhile_append_of_pos hpos]
  cases r with
  | nil => simp
  | cons c r => simp [hr c rfl]

theorem behind_append (hg : IsBlank g) (hw : IsWord w) (hr : ∀ c ∈ r.head?, isSpace c) :
    behind (g ++ (w ++ r)) = r := by
  have hpos : ∀ c ∈ w, (!isSpace c) = true := by simpa using hw.not_isSpace
  rw [behind, skip_append hg hw, List.dropWhile_append_of_pos hpos]
  cases r with
  | nil => rfl
  | cons c r => simp [hr c rfl]

/-- Digits with no digit behind them. -/
theorem atoi_append (hw : ∀ c ∈ w, isDigit c) (hr : ∀ c ∈ r.head?, ¬ isDigit c) :
    atoi (w ++ r) = atoi w := by
  have hnil : r.takeWhile isDigit = [] := by
    cases r with
    | nil => rfl
    | cons c r => simp [hr c rfl]
  have hdigits : digits (w ++ r) = digits w := by
    rw [digits, List.takeWhile_append_of_pos hw, hnil, List.append_nil, digits,
      List.takeWhile_eq_self_iff.mpr hw]
  rw [atoi, atoi, hdigits]

/-- A newline ends a piece, whatever follows it. -/
theorem pieces_append (n : ℕ) (s r cur : Bytes) : pieces n (s ++ newline :: r) cur =
    pieces n (s ++ [newline]) cur ++ pieces n r [] := by
  induction s generalizing cur with
  | nil => simp [pieces]
  | cons c s ih =>
    rw [List.cons_append, List.cons_append, pieces, pieces]
    split_ifs
    · rw [ih, List.cons_append]
    · rw [ih]

/-- A line that fits is one piece. -/
theorem pieces_line (hs : newline ∉ s) (hn : cur.length + s.length < n) :
    pieces n (s ++ [newline]) cur = [cur ++ (s ++ [newline])] := by
  induction s generalizing cur with
  | nil => simp [pieces]
  | cons c s ih =>
    obtain ⟨hc, hs⟩ := not_or.mp (mt List.mem_cons.mpr hs)
    rw [List.length_cons] at hn
    rw [List.cons_append, pieces, if_neg (not_or.mpr ⟨Ne.symm hc, by omega⟩),
      ih hs (by simp; omega)]
    simp

theorem subset_of_mem_pieces {p : Bytes} (hp : p ∈ pieces n s cur) : p ⊆ cur ++ s := by
  induction s generalizing cur with
  | nil =>
    rw [pieces] at hp
    split_ifs at hp
    · cases hp
    · rw [List.mem_singleton.mp hp, List.append_nil]
      exact List.Subset.refl _
  | cons c s ih =>
    rw [List.append_cons]
    rw [pieces] at hp
    split_ifs at hp
    · rcases List.mem_cons.mp hp with rfl | hp
      · exact List.subset_append_left ..
      · exact List.Subset.trans (ih hp) (List.subset_append_right ..)
    · exact ih hp

/-- A piece ends where the buffer is full. -/
theorem pieces_full (hs : newline ∉ s) (hne : s ≠ []) (hn : cur.length + s.length = n) :
    pieces n (s ++ r) cur = (cur ++ s) :: pieces n r [] := by
  induction s generalizing cur with
  | nil => exact absurd rfl hne
  | cons c s ih =>
    obtain ⟨hc, hs⟩ := not_or.mp (mt List.mem_cons.mpr hs)
    rw [List.length_cons] at hn
    rw [List.cons_append, pieces]
    by_cases hnil : s = []
    · subst hnil
      rw [if_pos (.inr (by simpa using hn)), List.nil_append]
    · have hpos := List.length_pos_iff.mpr hnil
      rw [if_neg (not_or.mpr ⟨Ne.symm hc, by omega⟩), ih hs hnil (by simp; omega),
        List.append_assoc, List.singleton_append]

theorem IsBlank.append (hg : IsBlank g) (hr : IsBlank r) : IsBlank (g ++ r) :=
  fun c hc => (List.mem_append.mp hc).elim (hg c) (hr c)

theorem IsBlank.subset (hg : IsBlank g) (hr : r ⊆ g) : IsBlank r := fun c hc => hg c (hr hc)

theorem IsBlank.zero_not_mem (hg : IsBlank g) : (0 : UInt8) ∉ g := fun h =>
  absurd (hg 0 h) (by decide)

theorem isBlank_newline : IsBlank [newline] := fun c hc => by
  rw [List.mem_singleton.mp hc]
  rfl

/-- Blanks in front fill pieces of their own, but for the last of them. -/
theorem exists_pieces_blank (hn : 0 < n) (hg : IsBlank g) (hnl : newline ∉ g) (r : Bytes) :
    ∃ ps g', pieces n (g ++ r) [] = ps ++ pieces n (g' ++ r) [] ∧ (∀ p ∈ ps, IsBlank p) ∧
      g' ⊆ g ∧ g'.length = g.length % n := by
  induction hm : g.length using Nat.strongRecOn generalizing g with
  | ind m ih =>
    subst hm
    rcases lt_or_ge g.length n with hlt | hge
    · exact ⟨[], g, rfl, by simp, List.Subset.refl g, (Nat.mod_eq_of_lt hlt).symm⟩
    · have htake : (g.take n).length = n := List.length_take_of_le hge
      obtain ⟨ps, g', hps, hblank, hsub, hlen⟩ := ih (g.drop n).length
        (by rw [List.length_drop]; omega) (hg.subset (List.drop_subset ..))
        (fun h => hnl (List.mem_of_mem_drop h)) rfl
      refine ⟨g.take n :: ps, g', ?_, ?_, List.Subset.trans hsub (List.drop_subset ..), ?_⟩
      · conv_lhs => rw [← List.take_append_drop n g, List.append_assoc]
        rw [pieces_full (fun h => hnl (List.mem_of_mem_take h))
          (List.ne_nil_of_length_pos (by omega)) (by rw [htake]; exact Nat.zero_add n), hps]
        rfl
      · exact List.forall_mem_cons.mpr ⟨hg.subset (List.take_subset ..), hblank⟩
      · rw [hlen, List.length_drop, ← Nat.mod_eq_sub_mod hge]

/-- A text that the buffer holds is in one piece with some of the blanks behind it. -/
theorem exists_pieces_line (hs : newline ∉ s) (hne : s ≠ []) (hlen : s.length ≤ n)
    (hr : IsBlank r) (hnl : newline ∉ r) : ∃ r' ps,
      pieces n (s ++ (r ++ [newline])) [] = (s ++ r') :: ps ∧ IsBlank r' ∧
        ∀ p ∈ ps, IsBlank p := by
  have hsr : newline ∉ s ++ r := by simp [hs, hnl]
  rcases lt_or_ge (s ++ r).length n with hlt | hge
  · refine ⟨r ++ [newline], [], ?_, hr.append isBlank_newline, by simp⟩
    rw [← List.append_assoc, pieces_line hsr (by simpa using hlt)]
    simp
  · rw [List.length_append] at hge
    refine ⟨r.take (n - s.length), pieces n (r.drop (n - s.length) ++ [newline]) [], ?_,
      hr.subset (List.take_subset ..), fun p hp => ?_⟩
    · conv_lhs => rw [← List.take_append_drop (n - s.length) r, List.append_assoc,
        ← List.append_assoc s]
      refine pieces_full (fun h => hsr ?_) (by simp [hne]) ?_
      · exact (List.mem_append.mp h).elim (List.mem_append_left r)
          fun h => List.mem_append_right s (List.mem_of_mem_take h)
      · rw [List.length_append, List.length_take_of_le (by omega), List.length_nil]
        omega
    · have hrest : IsBlank (r.drop (n - s.length) ++ [newline]) :=
        (hr.subset (List.drop_subset ..)).append isBlank_newline
      exact hrest.subset (by simpa using subset_of_mem_pieces hp)

/-- The pieces of a line whose text is not cut: it is in one of them, and the others are blank. -/
theorem exists_pieces (hn : 0 < n) (hg : IsBlank g) (hgnl : newline ∉ g) (hs : newline ∉ s)
    (hne : s ≠ []) (hlen : g.length % n + s.length ≤ n) (hr : IsBlank r) (hrnl : newline ∉ r) :
    ∃ ps g' r' ps', pieces n (g ++ (s ++ (r ++ [newline]))) [] =
        ps ++ (g' ++ (s ++ r')) :: ps' ∧
      (∀ p ∈ ps, IsBlank p) ∧ IsBlank g' ∧ IsBlank r' ∧ ∀ p ∈ ps', IsBlank p := by
  obtain ⟨ps, g', hps, hblank, hsub, hlen'⟩ :=
    exists_pieces_blank hn hg hgnl (s ++ (r ++ [newline]))
  have hgs : newline ∉ g' ++ s := by simpa [hs] using fun h => hgnl (hsub h)
  have hfits : (g' ++ s).length ≤ n := by rwa [List.length_append, hlen']
  obtain ⟨r', ps', hline, hr', hblank'⟩ := exists_pieces_line hgs (by simp [hne]) hfits hr hrnl
  refine ⟨ps, g', r', ps', ?_, hblank, hg.subset hsub, hr', hblank'⟩
  rw [hps, ← List.append_assoc, hline, List.append_assoc]

end Vs17.Tokens
