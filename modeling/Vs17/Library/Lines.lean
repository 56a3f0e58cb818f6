import Mathlib.Data.List.Basic

/-! # Pieces between separators

A list is cut behind every separator into the pieces that are complete and a tail that
is not. Cutting the tail together with what follows it goes on with the cutting. The
first pieces are the fields of a record whose rest is not cut.
-/

namespace Vs17.Lines

variable {α : Type*} (sep : α)

/-- Pieces with the separators that end them. -/
def join (ls : List (List α)) : List α := ls.flatMap (· ++ [sep])

@[simp] theorem join_nil : join sep [] = [] := rfl

theorem join_cons (l : List α) (ls : List (List α)) :
    join sep (l :: ls) = l ++ sep :: join sep ls := by
  rw [join, List.flatMap_cons, List.append_assoc, List.singleton_append, join]

theorem getLast?_join {ls : List (List α)} (h : ls ≠ []) : (join sep ls).getLast? = some sep := by
  obtain ⟨ls, l, rfl⟩ := (List.eq_nil_or_concat ls).resolve_left h
  simp [join]

/-- Without the last separator they stand between the pieces. -/
theorem dropLast_join (ls : List (List α)) :
    (join sep ls).dropLast = List.intercalate [sep] ls := by
  induction ls with
  | nil => rfl
  | cons l ls ih =>
    cases ls with
    | nil => simp [join]
    | cons l' ls =>
      rw [join_cons, ← List.singleton_append, List.dropLast_append_of_ne_nil (by simp),
        List.dropLast_append_of_ne_nil (by simp [join_cons]), ih]
      simp [List.intercalate]

variable [DecidableEq α]

/-- The pieces that a separator ends. -/
def lines (b : List α) : List (List α) := (b.splitOn sep).dropLast

/-- What follows the last separator. -/
def tail (b : List α) : List α := (b.splitOn sep).getLast (List.splitOn_ne_nil sep b)

/-- The first pieces, at most the given number of them. -/
def fields (n : ℕ) (b : List α) : List (List α) := (lines sep b).take n

/-- What follows the first pieces. -/
def behind (n : ℕ) (b : List α) : List α := b.drop (join sep (fields sep n b)).length

variable {sep} {b c l : List α}

theorem splitOn_eq (b : List α) : b.splitOn sep = lines sep b ++ [tail sep b] :=
  (List.dropLast_append_getLast _).symm

theorem lines_of_not_mem (h : sep ∉ b) : lines sep b = [] := by
  rw [lines, List.splitOn_eq_singleton h, List.dropLast_singleton]

theorem tail_of_not_mem (h : sep ∉ b) : tail sep b = b := by
  simp [tail, List.splitOn_eq_singleton h]

theorem lines_append_cons (h : sep ∉ l) (b : List α) :
    lines sep (l ++ sep :: b) = l :: lines sep b := by
  rw [lines, List.splitOn_append_cons_self_of_not_mem h,
    List.dropLast_cons_of_ne_nil (List.splitOn_ne_nil sep b), lines]

theorem tail_append_cons (h : sep ∉ l) (b : List α) :
    tail sep (l ++ sep :: b) = tail sep b := by
  simp [tail, List.splitOn_append_cons_self_of_not_mem h]

variable (sep) in
/-- Induction over the pieces: a list without separators, or one piece more. -/
theorem induction {motive : List α → Prop} (last : ∀ b, sep ∉ b → motive b)
    (line : ∀ l b, sep ∉ l → motive b → motive (l ++ sep :: b)) (b : List α) : motive b := by
  induction hn : b.length using Nat.strongRecOn generalizing b with
  | ind n ih =>
    by_cases hb : sep ∈ b
    · obtain ⟨l, c, rfl, hl⟩ := List.eq_append_cons_of_mem hb
      apply line l c hl
      apply ih c.length _ c rfl
      rw [← hn, List.length_append, List.length_cons]
      omega
    · exact last b hb

theorem not_mem_tail (b : List α) : sep ∉ tail sep b := by
  induction b using induction sep with
  | last b hb => rwa [tail_of_not_mem hb]
  | line l b hl ih => rwa [tail_append_cons hl]

variable (sep) in
theorem join_append_tail (b : List α) : join sep (lines sep b) ++ tail sep b = b := by
  induction b using induction sep with
  | last b hb => rw [lines_of_not_mem hb, tail_of_not_mem hb, join_nil, List.nil_append]
  | line l b hl ih =>
    rw [lines_append_cons hl, tail_append_cons hl, join_cons, List.append_assoc,
      List.cons_append, ih]

theorem mem_of_mem_lines {x : α} (h : l ∈ lines sep b) (hx : x ∈ l) : x ∈ b := by
  rw [← join_append_tail sep b]
  apply List.mem_append_left
  exact List.mem_flatMap.mpr ⟨l, h, List.mem_append_left _ hx⟩

theorem mem_of_mem_tail {x : α} (h : x ∈ tail sep b) : x ∈ b := by
  rw [← join_append_tail sep b]
  exact List.mem_append_right _ h

/-- More input goes on with the tail. -/
theorem lines_append (b c : List α) :
    lines sep (b ++ c) = lines sep b ++ lines sep (tail sep b ++ c) := by
  induction b using induction sep with
  | last b hb => rw [lines_of_not_mem hb, tail_of_not_mem hb, List.nil_append]
  | line l b hl ih =>
    rw [List.append_assoc, List.cons_append, lines_append_cons hl, lines_append_cons hl,
      tail_append_cons hl, ih, List.cons_append]

theorem tail_append (b c : List α) : tail sep (b ++ c) = tail sep (tail sep b ++ c) := by
  induction b using induction sep with
  | last b hb => rw [tail_of_not_mem hb]
  | line l b hl ih =>
    rw [List.append_assoc, List.cons_append, tail_append_cons hl, tail_append_cons hl, ih]

section Fields

variable {n : ℕ}

theorem fields_of_not_mem (h : sep ∉ b) : fields sep n b = [] := by
  rw [fields, lines_of_not_mem h, List.take_nil]

theorem behind_of_not_mem (h : sep ∉ b) : behind sep n b = b := by
  rw [behind, fields_of_not_mem h]
  rfl

@[simp] theorem fields_zero : fields sep 0 b = [] := rfl

@[simp] theorem behind_zero : behind sep 0 b = b := rfl

theorem fields_append_cons (h : sep ∉ l) (b : List α) :
    fields sep (n + 1) (l ++ sep :: b) = l :: fields sep n b := by
  rw [fields, lines_append_cons h, List.take_succ_cons, fields]

theorem behind_append_cons (h : sep ∉ l) (b : List α) :
    behind sep (n + 1) (l ++ sep :: b) = behind sep n b := by
  have happ : ∀ c : List α, l ++ sep :: c = (l ++ [sep]) ++ c := by
    intro c
    rw [List.append_assoc, List.singleton_append]
  rw [behind, fields_append_cons h, join_cons, happ b, happ (join sep _), List.length_append,
    ← List.drop_drop, List.drop_left, behind]

theorem mem_of_mem_behind {x : α} (h : x ∈ behind sep n b) : x ∈ b := List.mem_of_mem_drop h

end Fields

end Vs17.Lines
