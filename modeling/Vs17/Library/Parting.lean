import Mathlib.Data.List.Infix
import Mathlib.Data.List.Lex
import Mathlib.Order.Lattice

/-! # Where two lists part

The elements at which two lists part, where a list that has ended has none, decide how the
lists compare lexicographically.
-/

namespace Vs17.Parting

variable {α β : Type*}

/-- The lists agree up to a place where they have these elements. -/
inductive Parts : List α → List α → Option α → Option α → Prop
  | same (p : List α) : Parts p p none none
  | left_ends (p : List α) (d : α) (t : List α) : Parts p (p ++ d :: t) none (some d)
  | right_ends (p : List α) (c : α) (s : List α) : Parts (p ++ c :: s) p (some c) none
  | differ (p : List α) {c d : α} (s t : List α) : c ≠ d →
      Parts (p ++ c :: s) (p ++ d :: t) (some c) (some d)

variable {a b : List α} {x y : Option α}

theorem Parts.cons (e : α) (h : Parts a b x y) : Parts (e :: a) (e :: b) x y := by
  cases h with
  | same => exact .same (e :: a)
  | left_ends _ d t => exact .left_ends (e :: a) d t
  | right_ends _ c s => exact .right_ends (e :: b) c s
  | differ p s t hne => exact .differ (e :: p) s t hne

theorem exists_parts [DecidableEq α] (a b : List α) : ∃ x y, Parts a b x y := by
  induction a generalizing b with
  | nil =>
    cases b with
    | nil => exact ⟨none, none, .same []⟩
    | cons d b => exact ⟨none, some d, .left_ends [] d b⟩
  | cons c a ih =>
    cases b with
    | nil => exact ⟨some c, none, .right_ends [] c a⟩
    | cons d b =>
      by_cases hcd : c = d
      · subst hcd
        obtain ⟨x, y, h⟩ := ih b
        exact ⟨x, y, h.cons c⟩
      · exact ⟨some c, some d, .differ [] a b hcd⟩

theorem Parts.symm (h : Parts a b x y) : Parts b a y x := by
  cases h with
  | same => exact .same a
  | left_ends _ d t => exact .right_ends a d t
  | right_ends _ c s => exact .left_ends b c s
  | differ p s t hne => exact .differ p t s hne.symm

theorem Parts.map {f : α → β} (hf : f.Injective) (h : Parts a b x y) :
    Parts (a.map f) (b.map f) (x.map f) (y.map f) := by
  cases h with
  | same => exact .same _
  | left_ends _ d t =>
    rw [List.map_append]
    exact .left_ends ..
  | right_ends _ c s =>
    rw [List.map_append]
    exact .right_ends ..
  | differ p s t hne =>
    rw [List.map_append, List.map_append]
    exact .differ _ _ _ (hf.ne hne)

theorem Parts.mem_left {c : α} (h : Parts a b (some c) y) : c ∈ a := by
  cases h with
  | right_ends _ _ s => simp
  | differ p s t hne => simp

theorem Parts.mem_right {d : α} (h : Parts a b x (some d)) : d ∈ b :=
  h.symm.mem_left

theorem Parts.eq_iff (h : Parts a b x y) : a = b ↔ x = y := by
  cases h with
  | same => simp
  | left_ends _ d t => simp
  | right_ends _ c s => simp
  | differ p s t hne => simp [hne]

theorem append_lt_append_iff [LinearOrder α] (p a b : List α) : p ++ a < p ++ b ↔ a < b := by
  induction p with
  | nil => rfl
  | cons c p ih =>
    rw [List.cons_append, List.cons_append, List.cons_lt_cons_iff, ih]
    simp

/-- The order of two lists is that of the elements at which they part. -/
theorem Parts.lt_iff [LinearOrder α] (h : Parts a b x y) : a < b ↔ x < y := by
  cases h with
  | same => simp
  | left_ends _ d t => simpa using append_lt_append_iff a [] (d :: t)
  | right_ends _ c s => simpa using append_lt_append_iff b (c :: s) []
  | @differ p c d s t hne =>
    rw [append_lt_append_iff, List.cons_lt_cons_iff, Option.some_lt_some]
    exact or_iff_left fun hsame => hne hsame.1

/-- One list goes on behind the other one exactly where that one has ended. -/
theorem Parts.prefix_iff (h : Parts a b x y) : a <+: b ↔ x = none := by
  cases h with
  | same => simp
  | left_ends _ d t => simp
  | right_ends _ c s =>
    constructor
    · intro hpre
      exact absurd hpre.length_le (by simp)
    · intro hnone
      cases hnone
  | differ p s t hne =>
    rw [List.prefix_append_right_inj, List.cons_prefix_cons]
    simp [hne]

end Vs17.Parting
