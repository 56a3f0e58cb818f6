import Mathlib.Algebra.BigOperators.Group.List.Basic
import Mathlib.Algebra.Order.BigOperators.Group.List
import Mathlib.Algebra.Order.Group.Nat

/-! # Populations of agents

The agents of a system stand in a list, each under its index, and every agent contributes
something to a total: one to a count, its steps left to a rank, what it holds to a multiset.
A step moves one agent, or moves all of them at once, or adds one.
-/

namespace Vs17.Population

variable {α M : Type*} [AddCommMonoid M]

/-- The sum of what the agents contribute. -/
def total (f : α → M) (l : List α) : M := (l.map f).sum

variable {f g : α → M} {l : List α} {i : ℕ} {a b : α}

@[simp] theorem total_nil : total f [] = 0 := rfl

theorem total_cons : total f (a :: l) = f a + total f l := rfl

@[simp] theorem total_append (l' : List α) : total f (l ++ l') = total f l + total f l' := by
  simp [total]

theorem total_map (m : α → α) : total f (l.map m) = total (f ∘ m) l := by
  simp [total]

theorem total_congr (h : ∀ a ∈ l, f a = g a) : total f l = total g l := by
  unfold total
  rw [List.map_congr_left h]

theorem total_eq_zero (h : ∀ a ∈ l, f a = 0) : total f l = 0 := by
  unfold total
  rw [List.map_congr_left h]
  simp

/-- One agent moves: its old contribution goes and its new one comes. -/
theorem total_set (ha : l[i]? = some a) : total f (l.set i b) + f a = total f l + f b := by
  induction l generalizing i with
  | nil => simp at ha
  | cons c l ih =>
    cases i with
    | zero =>
      simp only [List.getElem?_cons_zero, Option.some.injEq] at ha
      rw [List.set_cons_zero, total_cons, total_cons, ha, add_right_comm, add_comm (f b),
        add_right_comm]
    | succ i =>
      rw [List.getElem?_cons_succ] at ha
      rw [List.set_cons_succ, total_cons, total_cons, add_assoc, ih ha, add_assoc]

theorem total_set_of_eq (ha : l[i]? = some a) (h : f b = f a) :
    total f (l.set i b) = total f l := by
  induction l generalizing i with
  | nil => simp at ha
  | cons c l ih =>
    cases i with
    | zero =>
      simp only [List.getElem?_cons_zero, Option.some.injEq] at ha
      rw [List.set_cons_zero, total_cons, total_cons, ha, h]
    | succ i =>
      rw [List.getElem?_cons_succ] at ha
      rw [List.set_cons_succ, total_cons, total_cons, ih ha]

theorem total_map_of_eq {m : α → α} (h : ∀ a, f (m a) = f a) : total f (l.map m) = total f l := by
  rw [total_map]
  exact total_congr fun a _ => h a

theorem total_modify_of_eq {m : α → α} (h : ∀ a, f (m a) = f a) :
    total f (l.modify i m) = total f l := by
  induction l generalizing i with
  | nil => simp
  | cons c l ih =>
    cases i with
    | zero => rw [List.modify_zero_cons, total_cons, total_cons, h]
    | succ i => rw [List.modify_succ_cons, total_cons, total_cons, ih]

/-- An agent that does not move stays. -/
theorem mem_set_of_ne (ha : l[i]? = some a) {c : α} (hc : c ∈ l) (hne : c ≠ a) : c ∈ l.set i b := by
  obtain ⟨j, hj⟩ := List.mem_iff_getElem?.mp hc
  have hij : i ≠ j := by
    rintro rfl
    exact hne (Option.some.inj (hj.symm.trans ha))
  exact List.mem_of_getElem? ((List.getElem?_set_ne hij).trans hj)

theorem mem_modify_of_eq {m : α → α} (ha : a ∈ l) (hm : m a = a) : a ∈ l.modify i m := by
  obtain ⟨j, hj⟩ := List.mem_iff_getElem?.mp ha
  refine List.mem_of_getElem? (i := j) ?_
  rw [List.getElem?_modify, hj]
  split <;> simp [hm]

theorem mem_map_of_eq {m : α → α} (ha : a ∈ l) (hm : m a = a) : a ∈ l.map m :=
  List.mem_map.mpr ⟨a, ha, hm⟩

section Counts

variable {f g : α → ℕ}

theorem total_eq_zero_iff : total f l = 0 ↔ ∀ a ∈ l, f a = 0 := by
  simp [total, List.sum_eq_zero_iff]

theorem le_total (ha : a ∈ l) : f a ≤ total f l :=
  List.single_le_sum (by simp) _ (List.mem_map_of_mem ha)

theorem total_le (h : ∀ a ∈ l, f a ≤ g a) : total f l ≤ total g l :=
  List.sum_le_sum h

end Counts

end Vs17.Population
