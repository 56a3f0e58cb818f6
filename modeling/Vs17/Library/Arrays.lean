import Mathlib.Data.List.Basic
import Mathlib.Logic.Equiv.Basic
import Mathlib.Order.Basic

/-! # Arrays with checked accesses

Indices are integers, as in a program that also computes indices below the first one. An
access outside the array has no result. The order of two elements is stated by their
indices, so that an exchange only renames the indices.
-/

namespace Vs17.Arrays

variable {α κ : Type}

def load (a : List α) (i : ℤ) : Option α :=
  if 0 ≤ i then a[i.toNat]? else none

def store (a : List α) (i : ℤ) (x : α) : Option (List α) :=
  if 0 ≤ i ∧ i < a.length then some (a.set i.toNat x) else none

/-- Exchange two elements. -/
def swap (a : List α) (i j : ℤ) : Option (List α) := do
  let x ← load a i
  let y ← load a j
  let a ← store a i y
  store a j x

section Access

variable {a b : List α} {i j : ℤ} {x y : α}

theorem load_nat (a : List α) (n : ℕ) : load a n = a[n]? := by
  simp [load]

theorem load_at (pre : List α) (x : α) (post : List α) :
    load (pre ++ x :: post) pre.length = some x := by
  rw [load_nat, List.getElem?_append_right (Nat.le_refl _), Nat.sub_self, List.getElem?_cons_zero]

theorem exists_load (hi : 0 ≤ i) (h : i < a.length) : ∃ x, load a i = some x := by
  rw [load, if_pos hi]
  exact ⟨_, List.getElem?_eq_getElem (by omega)⟩

/-- An index inside the array splits it. -/
theorem exists_split (hi : 0 ≤ i) (h : i < a.length) :
    ∃ pre x post, a = pre ++ x :: post ∧ i = pre.length := by
  have hlt : i.toNat < a.length := by omega
  refine ⟨a.take i.toNat, a[i.toNat], a.drop (i.toNat + 1), ?_, ?_⟩
  · rw [← List.drop_eq_getElem_cons, List.take_append_drop]
  · rw [List.length_take]
    omega

theorem load_bounds (h : load a i = some x) : 0 ≤ i ∧ i < a.length := by
  rw [load] at h
  split at h
  · obtain ⟨hlt, _⟩ := List.getElem?_eq_some_iff.mp h
    omega
  · simp at h

theorem mem_of_load (h : load a i = some x) : x ∈ a := by
  rw [load] at h
  split at h
  · exact List.mem_of_getElem? h
  · cases h

theorem store_eq (hi : 0 ≤ i) (h : i < a.length) (x : α) :
    store a i x = some (a.set i.toNat x) :=
  if_pos ⟨hi, h⟩

theorem store_at (pre : List α) (x y : α) (post : List α) :
    store (pre ++ x :: post) pre.length y = some (pre ++ y :: post) := by
  have hlen : (pre.length : ℤ) < (pre ++ x :: post).length := by
    rw [List.length_append, List.length_cons]
    omega
  rw [store_eq (by omega) hlen, Int.toNat_natCast,
    List.set_append_right _ _ (Nat.le_refl _), Nat.sub_self, List.set_cons_zero]

theorem load_set (hi : 0 ≤ i) (h : i < a.length) (x : α) (l : ℤ) :
    load (a.set i.toNat x) l = if l = i then some x else load a l := by
  rw [load, load, List.getElem?_set]
  split_ifs <;> first | rfl | omega

/-- An exchange inside the array permutes it, and renames the indices of what is read. -/
theorem swap_spec (hi : 0 ≤ i) (hi' : i < a.length) (hj : 0 ≤ j) (hj' : j < a.length) :
    ∃ a', swap a i j = some a' ∧ a'.Perm a ∧ ∀ l, load a' l = load a (Equiv.swap i j l) := by
  obtain ⟨x, hx⟩ := exists_load hi hi'
  obtain ⟨y, hy⟩ := exists_load hj hj'
  have hlen : j < (a.set i.toNat y).length := by
    rwa [List.length_set]
  refine ⟨(a.set i.toNat y).set j.toNat x, ?_, ?_, fun l => ?_⟩
  · simp [swap, hx, hy, store_eq hi hi', store_eq hj hlen]
  · rw [load, if_pos hi] at hx
    rw [load, if_pos hj] at hy
    obtain ⟨hin, rfl⟩ := List.getElem?_eq_some_iff.mp hx
    obtain ⟨hjn, rfl⟩ := List.getElem?_eq_some_iff.mp hy
    exact List.set_set_perm hin hjn
  · rw [load_set hj hlen, load_set hi hi', Equiv.swap_apply_def]
    split_ifs with hlj hli hli
    · rw [← hx, ← hli, hlj]
    · exact hx.symm
    · exact hy.symm
    · rfl

/-- An exchange of neighbours. -/
theorem swap_adjacent (pre : List α) (x y : α) (post : List α) :
    swap (pre ++ x :: y :: post) pre.length (pre.length + 1) = some (pre ++ y :: x :: post) := by
  have hnext : (pre.length : ℤ) + 1 = (pre ++ [x]).length := by simp
  have hnext' : (pre.length : ℤ) + 1 = (pre ++ [y]).length := by simp
  have hy : load (pre ++ x :: y :: post) (pre.length + 1) = some y := by
    rw [hnext, List.append_cons pre x (y :: post)]
    exact load_at ..
  have hx : store (pre ++ y :: y :: post) (pre.length + 1) x = some (pre ++ y :: x :: post) := by
    rw [hnext', List.append_cons pre y (y :: post), store_at, ← List.append_cons]
  simp only [swap, load_at, store_at, hy, hx, Option.bind_eq_bind, Option.bind_some]

theorem load_append (h : i < a.length) (b : List α) : load (a ++ b) i = load a i := by
  rw [load, load]
  split
  · exact List.getElem?_append_left (by omega)
  · rfl

theorem store_append (h : i < a.length) (b : List α) (x : α) :
    store (a ++ b) i x = (store a i x).map (· ++ b) := by
  rw [store, store, List.length_append]
  by_cases hi : 0 ≤ i
  · rw [if_pos ⟨hi, by omega⟩, if_pos ⟨hi, h⟩, List.set_append_left _ _ (by omega), Option.map_some]
  · rw [if_neg (by omega), if_neg (by omega), Option.map_none]

theorem length_of_store {a' : List α} (h : store a i x = some a') : a'.length = a.length := by
  rw [store] at h
  split at h
  · obtain rfl := Option.some.inj h
    exact List.length_set
  · simp at h

/-- An exchange in the front part of an array leaves the rest alone. -/
theorem swap_append (hi : i < a.length) (hj : j < a.length) (b : List α) :
    swap (a ++ b) i j = (swap a i j).map (· ++ b) := by
  rw [swap, swap, load_append hi, load_append hj]
  cases load a i with
  | none => rfl
  | some x =>
    cases load a j with
    | none => rfl
    | some y =>
      simp only [Option.bind_eq_bind, Option.bind_some, store_append hi]
      cases hs : store a i y with
      | none => rfl
      | some a' => exact store_append (by rwa [length_of_store hs]) b x

end Access

section Order

variable [Preorder κ] {key : α → κ} {a a' : List α} {i j l : ℤ}

/-- The element at the first index is not above the one at the second. -/
def Below (key : α → κ) (a : List α) (i j : ℤ) : Prop :=
  ∀ x y, load a i = some x → load a j = some y → key x ≤ key y

theorem Below.of_load {x y : α} (hx : load a i = some x) (hy : load a j = some y)
    (h : key x ≤ key y) : Below key a i j := by
  intro x' y' hx' hy'
  obtain rfl := Option.some.inj (hx.symm.trans hx')
  obtain rfl := Option.some.inj (hy.symm.trans hy')
  exact h

theorem Below.refl (key : α → κ) (a : List α) (i : ℤ) : Below key a i i := by
  intro x y hx hy
  obtain rfl := Option.some.inj (hx.symm.trans hy)
  exact le_rfl

theorem Below.trans (hij : Below key a i j) (hjl : Below key a j l) (hj : 0 ≤ j)
    (h : j < a.length) : Below key a i l := by
  intro x z hx hz
  obtain ⟨y, hy⟩ := exists_load hj h
  exact (hij x y hx hy).trans (hjl y z hy hz)

theorem Below.rename {σ : ℤ → ℤ} (hσ : ∀ l, load a' l = load a (σ l))
    (h : Below key a (σ i) (σ j)) : Below key a' i j := by
  intro x y hx hy
  rw [hσ] at hx hy
  exact h x y hx hy

/-- With every index below the later ones the array is sorted. -/
theorem sorted_of_below (h : ∀ i j : ℤ, 0 ≤ i → i < j → j < a.length → Below key a i j) :
    a.Pairwise (key · ≤ key ·) := by
  rw [List.pairwise_iff_getElem]
  intro i j hi hj hij
  apply h i j (by omega) (by omega) (by omega)
  · rw [load_nat, List.getElem?_eq_getElem]
  · rw [load_nat, List.getElem?_eq_getElem]

end Order

end Vs17.Arrays
