import Mathlib.Data.List.Basic
import Mathlib.Data.List.Count
import Mathlib.Data.List.DropRight

/-! # Escaped texts

Each special character of a text gets an escape character in front of it. The escape
character is special itself, and then the text can be read back.
-/

namespace Vs17.Escape

variable {α : Type*} (special : α → Bool) (e : α)

def escape (s : List α) : List α :=
  s.flatMap fun c => if special c then [e, c] else [c]

/-- Drop the escape character in front of each character that has one. -/
def unescape [DecidableEq α] : List α → List α
  | [] => []
  | [c] => [c]
  | c :: d :: s => if c = e then d :: unescape s else c :: unescape (d :: s)

/-- The places of the special characters, where the text begins at this place. -/
def positions : ℤ → List α → List ℤ
  | _, [] => []
  | i, c :: s => if special c then i :: positions (i + 1) s else positions (i + 1) s

variable {special e} {s t : List α} {c : α}

theorem escape_append : escape special e (s ++ t) = escape special e s ++ escape special e t :=
  List.flatMap_append

theorem escape_cons_of_special (h : special c) :
    escape special e (c :: s) = e :: c :: escape special e s := by
  simp [escape, h]

theorem escape_cons_of_not (h : ¬ special c) :
    escape special e (c :: s) = c :: escape special e s := by
  simp [escape, h]

theorem escape_eq_self (h : ∀ c ∈ s, ¬ special c) : escape special e s = s := by
  induction s with
  | nil => rfl
  | cons c s ih =>
    rw [escape_cons_of_not (h c List.mem_cons_self),
      ih fun c hc => h c (List.mem_cons_of_mem _ hc)]

/-- What has been escaped can be read back. -/
theorem unescape_escape [DecidableEq α] (he : special e) (s : List α) :
    unescape e (escape special e s) = s := by
  induction s with
  | nil => rfl
  | cons c s ih =>
    by_cases hc : special c
    · rw [escape_cons_of_special hc, unescape, if_pos rfl, ih]
    · have hce : c ≠ e := by
        rintro rfl
        exact hc he
      rw [escape_cons_of_not hc]
      cases hs : escape special e s with
      | nil =>
        rw [hs] at ih
        rw [← ih, unescape, unescape]
      | cons d t => rw [unescape, if_neg hce, ← hs, ih]

theorem positions_append (i : ℤ) : positions special i (s ++ t) =
    positions special i s ++ positions special (i + s.length) t := by
  induction s generalizing i with
  | nil => simp [positions]
  | cons c s ih =>
    have hplace : i + ((c :: s).length : ℤ) = i + 1 + s.length := by
      rw [List.length_cons]
      omega
    rw [List.cons_append, positions, positions, ih, hplace]
    split <;> rfl

theorem positions_eq_nil (i : ℤ) (h : ∀ c ∈ s, ¬ special c) : positions special i s = [] := by
  induction s generalizing i with
  | nil => rfl
  | cons c s ih =>
    rw [positions, if_neg (h c List.mem_cons_self)]
    exact ih _ fun c hc => h c (List.mem_cons_of_mem _ hc)

/-- The escaped text is longer by one character for each place. -/
theorem length_escape (i : ℤ) : (escape special e s).length =
    s.length + (positions special i s).length := by
  induction s generalizing i with
  | nil => rfl
  | cons c s ih =>
    by_cases hc : special c
    · rw [escape_cons_of_special hc, positions, if_pos hc, List.length_cons, List.length_cons,
        ih (i + 1), List.length_cons, List.length_cons]
      omega
    · rw [escape_cons_of_not hc, positions, if_neg hc, List.length_cons, ih (i + 1),
        List.length_cons]
      omega

/-- A text with special characters is cut at the last of them. -/
theorem exists_last (h : ∃ c ∈ s, special c) :
    ∃ pre c post, s = pre ++ c :: post ∧ special c ∧ ∀ d ∈ post, ¬ special d := by
  induction s using List.reverseRecOn with
  | nil => simp at h
  | append_singleton s c ih =>
    by_cases hc : special c
    · exact ⟨s, c, [], rfl, hc, by simp⟩
    · have hs : ∃ c ∈ s, special c := by
        obtain ⟨d, hd, hdspecial⟩ := h
        rcases List.mem_append.mp hd with hd | hd
        · exact ⟨d, hd, hdspecial⟩
        · rw [List.mem_singleton.mp hd] at hdspecial
          exact absurd hdspecial hc
      obtain ⟨pre, d, post, rfl, hd, hpost⟩ := ih hs
      refine ⟨pre, d, post ++ [c], by simp, hd, fun x hx => ?_⟩
      rcases List.mem_append.mp hx with hx | hx
      · exact hpost x hx
      · rwa [List.mem_singleton.mp hx]

end Vs17.Escape
