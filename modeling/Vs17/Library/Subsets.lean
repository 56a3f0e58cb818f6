import Mathlib.Data.List.Sublists
import Mathlib.Data.Nat.Bitwise

/-! # Sublists by choice and by bit mask

The sublists of a list, one for each subset of its places: by going through the list and
taking or leaving each element, and by counting through the masks of its places.
-/

namespace Vs17.Subsets

variable {α : Type*}

/-- The sublists that take the first element stand in front of those that leave it. -/
def choices : List α → List (List α)
  | [] => [[]]
  | x :: l => (choices l).map (x :: ·) ++ choices l

/-- The elements at the places whose bits are set. -/
def select : ℕ → List α → List α
  | _, [] => []
  | mask, x :: l => if mask % 2 = 1 then x :: select (mask / 2) l else select (mask / 2) l

theorem choices_perm_sublists (l : List α) : (choices l).Perm l.sublists := by
  refine .trans ?_ (List.sublists_perm_sublists' l).symm
  induction l with
  | nil => exact .refl _
  | cons x l ih =>
    rw [List.sublists'_cons]
    exact ((ih.map (x :: ·)).append ih).trans List.perm_append_comm

theorem range_two_mul (n : ℕ) : (List.range (2 * n)).Perm
    ((List.range n).map (2 * · + 1) ++ (List.range n).map (2 * ·)) := by
  induction n with
  | zero => exact .refl _
  | succ n ih =>
    have hrange : List.range (2 * (n + 1)) = List.range (2 * n) ++ [2 * n, 2 * n + 1] := by
      rw [Nat.mul_succ, List.range_succ, List.range_succ, List.append_assoc]
      rfl
    rw [hrange, List.range_succ, List.perm_iff_count]
    intro a
    have hcount := List.perm_iff_count.mp ih a
    simp only [List.count_append, List.map_append, List.map_cons, List.map_nil, List.count_cons,
      List.count_nil] at hcount ⊢
    omega

/-- Counting through the masks goes through all choices. -/
theorem select_perm_choices (l : List α) :
    ((List.range (2 ^ l.length)).map (select · l)).Perm (choices l) := by
  induction l with
  | nil => exact .refl _
  | cons x l ih =>
    have hodd : (select · (x :: l)) ∘ (2 * · + 1) = (x :: ·) ∘ (select · l) := by
      ext1 m
      show select (2 * m + 1) (x :: l) = x :: select m l
      rw [select, if_pos (by omega), show (2 * m + 1) / 2 = m by omega]
    have heven : (select · (x :: l)) ∘ (2 * ·) = (select · l) := by
      ext1 m
      show select (2 * m) (x :: l) = select m l
      rw [select, if_neg (by omega), Nat.mul_div_cancel_left m Nat.two_pos]
    have hsplit := (range_two_mul (2 ^ l.length)).map (select · (x :: l))
    rw [List.map_append, List.map_map, List.map_map, hodd, heven, ← List.map_map] at hsplit
    rw [List.length_cons, Nat.pow_succ']
    exact hsplit.trans ((ih.map (x :: ·)).append ih)

end Vs17.Subsets
