import Mathlib.Data.List.Basic
import Mathlib.Data.List.Perm.Basic
import Mathlib.Data.List.Count
import Mathlib.Order.Defs.LinearOrder

/-! # Rearrangements that keep the order of equivalent records

Records are compared by a key. A rearrangement is stable when it keeps, for each key, the
list of the records that have it.
-/

namespace Vs17.Stable

variable {α κ : Type} [DecidableEq κ]

/-- The records of each key stand in the same order in both lists. -/
def KeepsOrder (key : α → κ) (a b : List α) : Prop :=
  ∀ k, b.filter (key · = k) = a.filter (key · = k)

variable {key : α → κ} {a b c : List α} {x : α}

theorem KeepsOrder.refl (key : α → κ) (a : List α) : KeepsOrder key a a :=
  fun _ => rfl

theorem KeepsOrder.trans (h : KeepsOrder key a b) (h' : KeepsOrder key b c) : KeepsOrder key a c :=
  fun k => (h' k).trans (h k)

theorem KeepsOrder.append (h : KeepsOrder key a b) (pre post : List α) :
    KeepsOrder key (pre ++ a ++ post) (pre ++ b ++ post) := by
  intro k
  simp only [List.filter_append, h k]

theorem KeepsOrder.perm (h : KeepsOrder key a b) : b.Perm a := by
  classical
  rw [List.perm_iff_count]
  intro x
  have hfilter := congrArg (List.count x) (h (key x))
  rwa [List.count_filter (by simp), List.count_filter (by simp)] at hfilter

/-- A record may go over records of other keys. -/
theorem KeepsOrder.move (h : ∀ y ∈ a, key y ≠ key x) : KeepsOrder key (a ++ [x]) (x :: a) := by
  intro k
  rw [List.filter_append, List.filter_cons, List.filter_singleton]
  by_cases hk : key x = k
  · have hnil : a.filter (key · = k) = [] := by
      rw [List.filter_eq_nil_iff]
      intro y hy
      simpa [← hk] using h y hy
    simp [hk, hnil]
  · simp [hk]

/-- Sorted lists with the same order of equivalent records are one list. -/
theorem KeepsOrder.eq_of_sorted {key : α → κ} {a b : List α} [PartialOrder κ]
    (h : KeepsOrder key a b) (ha : a.Pairwise (key · ≤ key ·))
    (hb : b.Pairwise (key · ≤ key ·)) : b = a := by
  induction a generalizing b with
  | nil => exact h.perm.eq_nil
  | cons x a ih =>
    cases b with
    | nil => exact absurd h.perm.symm.eq_nil (List.cons_ne_nil x a)
    | cons y b =>
      have hxy : key x = key y := by
        apply le_antisymm
        · have hy : y ∈ x :: a := h.perm.mem_iff.mp List.mem_cons_self
          rcases List.mem_cons.mp hy with rfl | hy
          · exact le_rfl
          · exact List.rel_of_pairwise_cons ha hy
        · have hx : x ∈ y :: b := h.perm.mem_iff.mpr List.mem_cons_self
          rcases List.mem_cons.mp hx with rfl | hx
          · exact le_rfl
          · exact List.rel_of_pairwise_cons hb hx
      have hhead := h (key x)
      rw [List.filter_cons_of_pos (by simp [hxy]), List.filter_cons_of_pos (by simp)] at hhead
      obtain ⟨rfl, _⟩ := List.cons.inj hhead
      have htail : KeepsOrder key a b := by
        intro k
        have hk := h k
        rw [List.filter_cons, List.filter_cons] at hk
        split at hk
        · exact (List.cons.inj hk).2
        · exact hk
      rw [ih htail ha.of_cons hb.of_cons]

end Vs17.Stable
