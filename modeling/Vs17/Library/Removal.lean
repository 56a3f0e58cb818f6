import Mathlib.Data.List.Infix

/-! # Removing the occurrences of a pattern

The occurrences are found from the left to the right, each behind the one before it.
-/

namespace Vs17.Removal

variable {α : Type*} [DecidableEq α] (pat : List α)

/-- The place of the first occurrence. -/
def find : List α → Option ℕ
  | [] => if pat = [] then some 0 else none
  | c :: s => if pat <+: c :: s then some 0 else (find s).map (· + 1)

/-- The elements that are kept, behind so many that are still part of an occurrence. -/
def removeFrom : ℕ → List α → List α
  | _, [] => []
  | k + 1, _ :: s => removeFrom k s
  | 0, c :: s =>
    if pat ≠ [] ∧ pat <+: c :: s then removeFrom (pat.length - 1) s else c :: removeFrom 0 s

/-- The empty pattern removes nothing. -/
def remove (s : List α) : List α :=
  removeFrom pat 0 s

variable {pat} {s t a : List α} {k : ℕ}

theorem removeFrom_append (t s : List α) : removeFrom pat t.length (t ++ s) = remove pat s := by
  induction t with
  | nil => rfl
  | cons c t ih => exact ih

theorem remove_append (hne : pat ≠ []) (s : List α) : remove pat (pat ++ s) = remove pat s := by
  obtain ⟨c, t, rfl⟩ := List.exists_cons_of_ne_nil hne
  rw [remove, List.cons_append, removeFrom, if_pos ⟨hne, s, rfl⟩]
  exact removeFrom_append t s

theorem removeFrom_sublist (k : ℕ) (s : List α) : (removeFrom pat k s).Sublist s := by
  induction s generalizing k with
  | nil => exact .slnil
  | cons c s ih =>
    cases k with
    | succ k => exact (ih k).cons c
    | zero =>
      rw [removeFrom]
      split
      · exact (ih _).cons c
      · exact (ih 0).cons_cons c

/-- The first occurrence cuts the list, and what is in front of it is kept. -/
theorem find_some (hne : pat ≠ []) (h : find pat s = some k) :
    ∃ a t, s = a ++ pat ++ t ∧ a.length = k ∧ remove pat s = a ++ remove pat t := by
  induction s generalizing k with
  | nil => simp [find, hne] at h
  | cons c s ih =>
    rw [find] at h
    split at h
    · rename_i hpre
      obtain ⟨t, ht⟩ := hpre
      refine ⟨[], t, ht.symm, Option.some.inj h, ?_⟩
      rw [← ht, remove_append hne]
      rfl
    · rename_i hpre
      obtain ⟨j, hj, rfl⟩ := Option.map_eq_some_iff.mp h
      obtain ⟨a, t, rfl, rfl, hrem⟩ := ih hj
      refine ⟨c :: a, t, rfl, rfl, ?_⟩
      rw [remove, removeFrom, if_neg fun h => hpre h.2, List.cons_append, ← hrem]
      rfl

theorem find_none (h : find pat s = none) : remove pat s = s := by
  induction s with
  | nil => rfl
  | cons c s ih =>
    rw [find] at h
    split at h
    · cases h
    · rename_i hpre
      rw [remove, removeFrom, if_neg fun h => hpre h.2]
      exact congrArg (c :: ·) (ih (Option.map_eq_none_iff.mp h))

theorem find_eq_none_iff : find pat s = none ↔ ¬ pat <:+: s := by
  induction s with
  | nil => simp [find]
  | cons c s ih =>
    rw [find, List.infix_cons_iff, not_or, ← ih]
    split
    · simp [*]
    · simp [*]

/-- Where the pattern occurs something is removed. -/
theorem length_remove_lt (hne : pat ≠ []) (h : pat <:+: s) : (remove pat s).length < s.length := by
  cases hfind : find pat s with
  | none => exact absurd h (find_eq_none_iff.mp hfind)
  | some k =>
    obtain ⟨a, t, rfl, -, hrem⟩ := find_some hne hfind
    have hpos := List.length_pos_iff.mpr hne
    have hle : (remove pat t).length ≤ t.length := (removeFrom_sublist 0 t).length_le
    rw [hrem, List.length_append, List.length_append, List.length_append]
    omega

/-- The places of the occurrences in a text, the first place of which has this number. -/
inductive Places (pat : List α) : ℕ → List α → List ℕ → Prop
  | none {base : ℕ} {s : List α} : find pat s = none → Places pat base s []
  | next {base : ℕ} {a t : List α} {index : List ℕ} :
      remove pat (a ++ pat ++ t) = a ++ remove pat t →
      Places pat (base + a.length + pat.length) t index →
      Places pat base (a ++ pat ++ t) ((base + a.length) :: index)

variable {base : ℕ} {index : List ℕ}

theorem Places.length_mul_le (h : Places pat base s index) :
    index.length * pat.length ≤ s.length := by
  induction h with
  | none _ => simp
  | next _ _ ih =>
    rw [List.length_cons, Nat.succ_mul]
    simp only [List.length_append]
    omega

theorem Places.ne_nil (h : Places pat base s index) (hin : pat <:+: s) : index ≠ [] := by
  cases h with
  | none hfind => exact absurd hin (find_eq_none_iff.mp hfind)
  | next _ _ => exact List.cons_ne_nil _ _

theorem Places.eq_nil (h : Places pat base s index) (hin : ¬ pat <:+: s) : index = [] := by
  cases h with
  | none _ => rfl
  | @next _ a t _ _ _ => exact absurd ⟨a, t, rfl⟩ hin

end Vs17.Removal
