import Mathlib.Data.List.TakeWhile
import Mathlib.Order.Lattice

/-! # Maps with equal keys

A map that keeps its entries in the order of their keys, and entries with equal keys in the order
in which they were inserted. A lookup gets to the first entry with a key.
-/

namespace Vs17.Multimap

variable {κ α : Type*} [LinearOrder κ]

def insert (m : List (κ × α)) (k : κ) (v : α) : List (κ × α) :=
  m.takeWhile (·.1 ≤ k) ++ (k, v) :: m.dropWhile (·.1 ≤ k)

def count (k : κ) (m : List (κ × α)) : ℕ := m.countP (·.1 = k)

/-- The entries from the first one with this key on. -/
def find (k : κ) (m : List (κ × α)) : List (κ × α) := m.dropWhile (·.1 ≠ k)

/-- The entries are in the order of their keys. -/
def Sorted (m : List (κ × α)) : Prop := m.Pairwise (·.1 ≤ ·.1)

variable {m : List (κ × α)} {k j : κ} {v : α} {x : κ × α}

theorem lt_of_mem_dropWhile (h : Sorted m) (hx : x ∈ m.dropWhile (·.1 ≤ k)) : k < x.1 := by
  induction m with
  | nil => cases hx
  | cons y m ih =>
    obtain ⟨hy, hm⟩ := List.pairwise_cons.mp h
    rw [List.dropWhile_cons] at hx
    split_ifs at hx with hle
    · exact ih hm hx
    · have hlt : k < y.1 := by simpa using hle
      rcases List.mem_cons.mp hx with rfl | hx
      · exact hlt
      · exact hlt.trans_le (hy x hx)

theorem le_of_mem_takeWhile (hx : x ∈ m.takeWhile (·.1 ≤ k)) : x.1 ≤ k := by
  simpa using List.mem_takeWhile_imp hx

theorem sorted_insert (h : Sorted m) : Sorted (insert m k v) := by
  have htake : Sorted (m.takeWhile (·.1 ≤ k)) := h.sublist (List.takeWhile_sublist _)
  have hdrop : Sorted (m.dropWhile (·.1 ≤ k)) := h.sublist (List.dropWhile_sublist _)
  refine List.pairwise_append.mpr ⟨htake, List.pairwise_cons.mpr ⟨fun x hx => ?_, hdrop⟩, ?_⟩
  · exact (lt_of_mem_dropWhile h hx).le
  · intro x hx y hy
    have hxk := le_of_mem_takeWhile hx
    rcases List.mem_cons.mp hy with rfl | hy
    · exact hxk
    · exact hxk.trans (lt_of_mem_dropWhile h hy).le

/-- A new entry comes behind those with the same key. -/
theorem filter_insert (h : Sorted m) : (insert m k v).filter (·.1 = j) =
    m.filter (·.1 = j) ++ if k = j then [(k, v)] else [] := by
  conv_rhs => rw [← List.takeWhile_append_dropWhile (p := fun x => x.1 ≤ k) (l := m)]
  rw [insert, List.filter_append, List.filter_append, List.filter_cons]
  split_ifs with hdec hkj hkj
  · have hnone : (m.dropWhile (·.1 ≤ k)).filter (·.1 = j) = [] := by
      rw [List.filter_eq_nil_iff]
      intro x hx hxj
      have hlt := lt_of_mem_dropWhile h hx
      simp [← hkj] at hxj
      exact hlt.ne' hxj
    rw [hnone, List.append_nil]
  · simp [hkj] at hdec
  · simp [hkj] at hdec
  · rw [List.append_nil]

/-- In front of which no smaller key is, the entries with a key come first. -/
theorem take_count (h : Sorted m) (hk : ∀ x ∈ m, k ≤ x.1) :
    m.take (count k m) = m.filter (·.1 = k) := by
  induction m with
  | nil => rfl
  | cons x m ih =>
    obtain ⟨hx, hm⟩ := List.pairwise_cons.mp h
    by_cases hxk : x.1 = k
    · rw [count, List.countP_cons_of_pos (by simpa using hxk), List.take_succ_cons,
        List.filter_cons_of_pos (by simpa using hxk)]
      exact congrArg _ (ih hm fun y hy => hk y (List.mem_cons_of_mem _ hy))
    · have hlt : k < x.1 := lt_of_le_of_ne (hk x (List.mem_cons_self ..)) (Ne.symm hxk)
      have hnone : ∀ y ∈ x :: m, ¬ decide (y.1 = k) := by
        intro y hy hyk
        rcases List.mem_cons.mp hy with rfl | hy
        · exact hxk (of_decide_eq_true hyk)
        · exact (hlt.trans_le (hx y hy)).ne' (of_decide_eq_true hyk)
      rw [List.filter_eq_nil_iff.mpr hnone, count, List.countP_eq_zero.mpr hnone, List.take_zero]

/-- The lookup gets to the first of the entries with a key, and they are as many as counted. -/
theorem take_count_find (h : Sorted m) : (find k m).take (count k m) = m.filter (·.1 = k) := by
  induction m with
  | nil => rfl
  | cons x m ih =>
    obtain ⟨hx, hm⟩ := List.pairwise_cons.mp h
    by_cases hxk : x.1 = k
    · rw [find, List.dropWhile_cons_of_neg (by simpa using hxk)]
      apply take_count h
      intro y hy
      rcases List.mem_cons.mp hy with rfl | hy
      · exact hxk.ge
      · exact hxk ▸ hx y hy
    · have hcount : count k (x :: m) = count k m :=
        List.countP_cons_of_neg (by simpa using hxk)
      rw [find, List.dropWhile_cons_of_pos (by simpa using hxk), hcount,
        List.filter_cons_of_neg (by simpa using hxk)]
      exact ih hm

end Vs17.Multimap
