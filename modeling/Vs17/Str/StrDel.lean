import Vs17.Library.CString
import Vs17.Library.Ints
import Vs17.Library.Loop
import Vs17.Library.Removal
import Vs17.Library.Shifting

/-! # Deleting a string from a string

`strDel` first collects the places where the pattern occurs, and then moves the rest of the
string over each occurrence, from the last to the first. Each time it moves up to the byte in
front of the last one of the string, so that only a pattern of two bytes takes the terminator
along and nothing behind it.
-/

namespace Vs17.Str

open Text CString Arrays Counted Ints Shifting Removal

/-- A round of the loop that collects the places: `strstr`, from the place reached on. -/
def findBody (src pat : Bytes) (s : ℕ × List ℕ) : (ℕ × List ℕ) ⊕ List ℕ :=
  match find pat (cstr (src.drop s.1)) with
  | none => .inr s.2
  | some k => .inl (s.1 + k + pat.length, s.2 ++ [s.1 + k])

/-- `for (tmp = pos; tmp < src + len - 1; tmp++) *tmp = *(tmp + strlen(str));` -/
def moveOver (m len : ℤ) (pos : ℕ) (src : Bytes) : Option Bytes :=
  forUp (pull m) pos (len - 1) src

def strDel (n : ℕ) (src str : Bytes) : Option (ℤ × Bytes) := do
  let m ← strlen str
  let index ← Loop.run (findBody src (cstr str)) n (0, [])
  let len ← strlen src
  let src ← forDown (fun i src => do
    let pos ← load index i
    moveOver m (toInt32 len) pos src) (toInt32 (index.length - 1) + 1) 0 src
  return (0, src)

section Finding

variable {pat t u tail : Bytes}

theorem find_ends (hne : pat ≠ []) (h₀ : (0 : UInt8) ∉ u) (t tail : Bytes) (index : List ℕ) :
    ∃ places, Places pat t.length u places ∧
      Loop.Ends (findBody (t ++ (u ++ 0 :: tail)) pat) (t.length, index) (index ++ places) := by
  induction hn : u.length using Nat.strong_induction_on generalizing t u index with
  | _ n ih =>
    have hrest : cstr ((t ++ (u ++ 0 :: tail)).drop t.length) = u := by
      rw [List.drop_left, cstr_text h₀]
    cases hfind : find pat u with
    | none =>
      refine ⟨[], .none hfind, .exit ?_⟩
      simp only [findBody, hrest, hfind, List.append_nil]
    | some k =>
      obtain ⟨a, v, rfl, rfl, hrem⟩ := find_some hne hfind
      have hpos := List.length_pos_iff.mpr hne
      have hv : (0 : UInt8) ∉ v := fun h => h₀ (List.mem_append_right _ h)
      have hlt : v.length < n := by
        rw [← hn, List.length_append, List.length_append]
        omega
      obtain ⟨places, hplaces, hends⟩ :=
        ih v.length hlt hv (t ++ a ++ pat) (index ++ [t.length + a.length]) rfl
      have hlen : (t ++ a ++ pat).length = t.length + a.length + pat.length := by
        rw [List.length_append, List.length_append]
      rw [hlen] at hplaces hends
      have hround : findBody (t ++ (a ++ pat ++ v ++ 0 :: tail)) pat (t.length, index) =
          .inl (t.length + a.length + pat.length, index ++ [t.length + a.length]) := by
        simp only [findBody, hrest, hfind]
      exact ⟨(t.length + a.length) :: places, .next hrem hplaces,
        .round hround (by simpa using hends)⟩

theorem find_nil_not_ends (src : Bytes) (s : ℕ × List ℕ) (r : List ℕ) :
    ¬ Loop.Ends (findBody src []) s r := by
  apply Loop.not_ends_of_trap (fun _ => True) _ trivial
  intro s _
  have hfind : ∀ b : Bytes, find [] b = some 0 := by
    intro b
    cases b <;> simp [find]
  exact ⟨_, by simp only [findBody, hfind]; rfl, trivial⟩

end Finding

section Moving

variable {pat u : Bytes} {base : ℕ} {index : List ℕ} {m len : ℤ} {L : ℕ}

/-- When the last byte moved is the terminator, all occurrences are removed. -/
theorem moveOver_all (len : ℤ) (h : Places pat base u index) {t : Bytes} (hbase : t.length = base)
    (hlen : len + pat.length = t.length + u.length + 2) :
    ∃ junk, (remove pat u).length + junk.length = u.length ∧
      index.foldrM (moveOver pat.length len) (t ++ (u ++ [0])) =
        some (t ++ (remove pat u ++ 0 :: junk)) := by
  induction h generalizing t with
  | none hfind => exact ⟨[], by rw [find_none hfind]; rfl, by rw [find_none hfind]; rfl⟩
  | @next base a v index hrem hplaces ih =>
    subst hbase
    simp only [List.length_append] at hlen
    obtain ⟨junk, hjunk, hrest⟩ := ih (t := t ++ a ++ pat) (by simp; omega) (by simp; omega)
    have hend : ((t ++ a).length : ℤ) + (remove pat v ++ 0 :: junk).length = len - 1 := by
      simp only [List.length_append, List.length_cons]
      omega
    have hmove := forUp_pull (t ++ a) pat (remove pat v ++ 0 :: junk) []
    rw [hend] at hmove
    refine ⟨junk ++ (pat ++ (remove pat v ++ 0 :: junk)).drop (remove pat v ++ 0 :: junk).length,
      ?_, ?_⟩
    · rw [hrem]
      simp only [List.length_append, List.length_drop, List.length_cons]
      omega
    · have hsame : t ++ (a ++ pat ++ v ++ [0]) = t ++ a ++ pat ++ (v ++ [0]) := by simp
      rw [List.foldrM_cons, hsame, hrest, hrem, Option.bind_eq_bind, Option.bind_some, moveOver,
        ← List.length_append]
      simpa using hmove

/-- Otherwise a move reads past the terminator or leaves it where it is. -/
theorem moveOver_avoids {src src' : Bytes} {pos : ℕ} (h : moveOver m len pos src = some src')
    (hlen : src.length = L + 1) (hne : m + len ≠ L + 2)
    (hsrc : ∀ l < (L : ℤ), load src l ≠ some 0) :
    src'.length = L + 1 ∧ ∀ l < (L : ℤ), load src' l ≠ some 0 := by
  rw [moveOver] at h
  rcases lt_or_ge (pos : ℤ) (len - 1) with hlt | hge
  · have hread := forUp_pull_bounds h hlt
    constructor
    · exact (length_of_forUp_pull h hlt.le).trans hlen
    · exact forUp_pull_avoids h hlt.le (by omega) hsrc
  · rw [forUp_of_le hge] at h
    obtain rfl := Option.some.inj h
    exact ⟨hlen, hsrc⟩

end Moving

section Result

variable {s pat : Bytes}

/-- `strDel` removes the occurrences of the pattern, and all its accesses are in the strings
and their terminators. -/
def Deletes (s pat : Bytes) : Prop :=
  ∃ junk, (remove pat s).length + junk.length = s.length ∧
    ∃ n₀, ∀ n ≥ n₀, strDel n (s ++ [0]) (pat ++ [0]) = some (0, remove pat s ++ 0 :: junk)

theorem not_deletes_nil (s : Bytes) : ¬ Deletes s [] := by
  rintro ⟨junk, -, n₀, hn₀⟩
  have hrun := hn₀ n₀ le_rfl
  rw [strDel, Option.bind_eq_bind] at hrun
  obtain ⟨m, -, hrun⟩ := Option.bind_eq_some_iff.mp hrun
  obtain ⟨index, hindex, -⟩ := Option.bind_eq_some_iff.mp hrun
  exact find_nil_not_ends _ _ _ (Loop.ends_of_run hindex)

theorem strDel_eq (hs : (0 : UInt8) ∉ s) (hpat : (0 : UInt8) ∉ pat) (hne : pat ≠ []) :
    ∃ places, Places pat 0 s places ∧ ∃ n₀, ∀ n ≥ n₀, strDel n (s ++ [0]) (pat ++ [0]) =
      (forDown (fun i src => (load places i).bind fun pos =>
        moveOver pat.length (toInt32 s.length) pos src)
          (toInt32 (places.length - 1) + 1) 0 (s ++ [0])).map fun src => (0, src) := by
  obtain ⟨places, hplaces, hends⟩ := find_ends hne hs [] [] []
  obtain ⟨n₀, hn₀⟩ := hends.exists_run
  refine ⟨places, hplaces, n₀, fun n hn => ?_⟩
  have hrun := hn₀ n hn
  rw [List.nil_append, List.length_nil, List.nil_append] at hrun
  rw [strDel, strlen_text hpat, Option.bind_eq_bind, Option.bind_some, cstr_text hpat, hrun,
    Option.bind_eq_bind, Option.bind_some, strlen_text hs, Option.bind_eq_bind, Option.bind_some]
  exact (Option.map_eq_bind ..).symm

theorem deletes_of_eq (hs : (0 : UInt8) ∉ s) (hpat : (0 : UInt8) ∉ pat) (hne : pat ≠ [])
    (hlen : pat.length + toInt32 s.length = s.length + 2) : Deletes s pat := by
  obtain ⟨places, hplaces, n₀, hn₀⟩ := strDel_eq hs hpat hne
  obtain ⟨junk, hjunk, hmove⟩ := moveOver_all (toInt32 s.length) hplaces (t := []) rfl
    (by rw [List.length_nil]; omega)
  refine ⟨junk, hjunk, n₀, fun n hn => ?_⟩
  have hcount : toInt32 (places.length - 1) + 1 = places.length := by
    have hmul := hplaces.length_mul_le
    have hpos := List.length_pos_iff.mpr hne
    obtain ⟨_, _, _, hhi⟩ := exists_toInt32 s.length
    rw [toInt32_eq (by omega), sub_add_cancel]
    by_contra hbig
    have hle : (2 ^ 31 + 1) * pat.length ≤ places.length * pat.length :=
      Nat.mul_le_mul_right _ (by omega)
    omega
  have hload := forDown_load (moveOver pat.length (toInt32 s.length)) places [] (s ++ [0])
  rw [List.append_nil] at hload
  rw [hn₀ n hn, hcount, hload]
  exact congrArg (Option.map fun src => ((0 : ℤ), src)) hmove

theorem deletes_of_not_infix (hs : (0 : UInt8) ∉ s) (hpat : (0 : UInt8) ∉ pat) (hne : pat ≠ [])
    (hin : ¬ pat <:+: s) : Deletes s pat := by
  obtain ⟨places, hplaces, n₀, hn₀⟩ := strDel_eq hs hpat hne
  obtain rfl := hplaces.eq_nil hin
  have hsame : remove pat s = s := find_none (find_eq_none_iff.mpr hin)
  refine ⟨[], by rw [hsame]; rfl, n₀, fun n hn => ?_⟩
  have hzero : toInt32 (([] : List ℕ).length - 1) + 1 ≤ 0 := by decide
  rw [hn₀ n hn, forDown_of_le hzero, hsame]
  rfl

theorem not_deletes_of_ne (hs : (0 : UInt8) ∉ s) (hpat : (0 : UInt8) ∉ pat) (hne : pat ≠ [])
    (hin : pat <:+: s) (hlen : pat.length + toInt32 s.length ≠ s.length + 2) :
    ¬ Deletes s pat := by
  rintro ⟨junk, hjunk, n₁, hn₁⟩
  obtain ⟨places, -, n₀, hn₀⟩ := strDel_eq hs hpat hne
  have hrun := (hn₀ (max n₀ n₁) (le_max_left _ _)).symm.trans (hn₁ _ (le_max_right _ _))
  obtain ⟨src, hsrc, hpair⟩ := Option.map_eq_some_iff.mp hrun
  obtain rfl := (Prod.mk.inj hpair).2
  obtain ⟨-, havoids⟩ := forDown_invariant
    (fun src => src.length = s.length + 1 ∧ ∀ l < (s.length : ℤ), load src l ≠ some 0) hsrc
    ⟨by rw [List.length_append, List.length_singleton], fun l hl hzero => by
      rw [load_append hl] at hzero
      exact hs (mem_of_load hzero)⟩
    fun i src src' _ _ hI hround => by
      obtain ⟨pos, -, hmove⟩ := Option.bind_eq_some_iff.mp hround
      exact moveOver_avoids hmove hI.1 hlen hI.2
  have hlt := length_remove_lt hne hin
  exact havoids (remove pat s).length (by omega) (load_at _ _ _)

/-- `strDel` deletes a pattern that does not occur, and one whose length makes the last move
end with the terminator: for a string shorter than 2^31 bytes, the length 2. -/
theorem strDel_deletes_iff (hs : (0 : UInt8) ∉ s) (hpat : (0 : UInt8) ∉ pat) :
    Deletes s pat ↔
      pat ≠ [] ∧ (¬ pat <:+: s ∨ pat.length + toInt32 s.length = s.length + 2) := by
  constructor
  · intro h
    have hne : pat ≠ [] := by
      rintro rfl
      exact not_deletes_nil s h
    refine ⟨hne, ?_⟩
    by_contra hnot
    obtain ⟨hin, hlen⟩ := not_or.mp hnot
    exact not_deletes_of_ne hs hpat hne (not_not.mp hin) hlen h
  · rintro ⟨hne, hin | hlen⟩
    · exact deletes_of_not_infix hs hpat hne hin
    · exact deletes_of_eq hs hpat hne hlen

theorem strDel_two_bytes : Deletes [97, 98, 99, 97, 98] [97, 98] ↔
    ([97, 98] : Bytes) ≠ [] ∧ (¬ ([97, 98] : Bytes) <:+: [97, 98, 99, 97, 98] ∨
      ([97, 98] : Bytes).length + toInt32 ([97, 98, 99, 97, 98] : Bytes).length =
        ([97, 98, 99, 97, 98] : Bytes).length + 2) :=
  strDel_deletes_iff (by decide) (by decide)

/-- One byte is removed by moving the last byte of the string, not its terminator. -/
theorem strDel_one_byte : strDel 20 [97, 98, 99, 0] [98, 0] = some (0, [97, 99, 99, 0]) ∧
    ¬ Deletes [97, 98, 99] [98] := by
  refine ⟨by decide, not_deletes_of_ne (by decide) (by decide) (by decide) ?_ (by decide)⟩
  exact ⟨[97], [99], rfl⟩

end Result

/-- Three bytes take along what stands behind the terminator. -/
example : strDel 20 [97, 98, 99, 100, 0] [97, 98, 99, 0] = none := by decide

end Vs17.Str
