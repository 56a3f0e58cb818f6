import Mathlib.Data.List.Infix

/-! # Runs of one element

Of each run of blanks only the first is kept.
-/

namespace Vs17.Squeeze

variable {α : Type*} [DecidableEq α] (b : α)

/-- The elements kept, where the flag tells whether a blank stands in front. -/
def squeezeBehind : Bool → List α → List α
  | _, [] => []
  | behind, c :: s =>
    if c = b then if behind then squeezeBehind true s else c :: squeezeBehind true s
    else c :: squeezeBehind false s

def squeeze (s : List α) : List α :=
  squeezeBehind b false s

variable {b} {s : List α} {c : α} {behind : Bool}

theorem squeezeBehind_of_ne (h : c ≠ b) :
    squeezeBehind b behind (c :: s) = c :: squeezeBehind b false s := by
  rw [squeezeBehind, if_neg h]

theorem squeezeBehind_blank :
    squeezeBehind b false (b :: s) = b :: squeezeBehind b true s := by
  rw [squeezeBehind, if_pos rfl, if_neg Bool.false_ne_true]

theorem squeezeBehind_blank_blank :
    squeezeBehind b true (b :: s) = squeezeBehind b true s := by
  rw [squeezeBehind, if_pos rfl, if_pos rfl]

theorem squeezeBehind_idem (behind : Bool) (s : List α) :
    squeezeBehind b behind (squeezeBehind b behind s) = squeezeBehind b behind s := by
  induction s generalizing behind with
  | nil => rfl
  | cons c s ih =>
    by_cases hc : c = b
    · subst hc
      cases behind with
      | false => rw [squeezeBehind_blank, squeezeBehind_blank, ih]
      | true => rw [squeezeBehind_blank_blank, ih]
    · rw [squeezeBehind_of_ne hc, squeezeBehind_of_ne hc, ih]

theorem squeeze_idem (s : List α) : squeeze b (squeeze b s) = squeeze b s :=
  squeezeBehind_idem false s

theorem squeezeBehind_sublist (behind : Bool) (s : List α) :
    (squeezeBehind b behind s).Sublist s := by
  induction s generalizing behind with
  | nil => exact .slnil
  | cons c s ih =>
    by_cases hc : c = b
    · subst hc
      cases behind with
      | false =>
        rw [squeezeBehind_blank]
        exact (ih true).cons_cons c
      | true =>
        rw [squeezeBehind_blank_blank]
        exact (ih true).cons c
    · rw [squeezeBehind_of_ne hc]
      exact (ih false).cons_cons c

theorem mem_of_mem_squeeze (h : c ∈ squeeze b s) : c ∈ s :=
  (squeezeBehind_sublist false s).subset h

/-- A text with two blanks side by side gets shorter, and only such a text. -/
theorem length_squeezeBehind_lt (h : [b, b] <:+: s ∨ behind = true ∧ s.head? = some b) :
    (squeezeBehind b behind s).length < s.length := by
  induction s generalizing behind with
  | nil => simp at h
  | cons c s ih =>
    by_cases hc : c = b
    · subst hc
      cases behind with
      | true =>
        rw [squeezeBehind_blank_blank]
        exact Nat.lt_succ_of_le (squeezeBehind_sublist true s).length_le
      | false =>
        rw [squeezeBehind_blank]
        apply Nat.succ_lt_succ
        apply ih
        rcases h.resolve_right (by simp) with ⟨x, y, hxy⟩
        cases x with
        | nil =>
          obtain ⟨_, rfl⟩ := List.cons.inj hxy
          exact .inr ⟨rfl, rfl⟩
        | cons d x =>
          obtain ⟨_, rfl⟩ := List.cons.inj hxy
          exact .inl ⟨x, y, rfl⟩
    · rw [squeezeBehind_of_ne hc]
      apply Nat.succ_lt_succ
      apply ih
      rcases h with ⟨x, y, hxy⟩ | ⟨_, hhead⟩
      · cases x with
        | nil => exact absurd (List.cons.inj hxy).1.symm hc
        | cons d x =>
          obtain ⟨_, rfl⟩ := List.cons.inj hxy
          exact .inl ⟨x, y, rfl⟩
      · exact absurd (Option.some.inj hhead) hc

theorem squeezeBehind_eq_self (h : ¬ [b, b] <:+: s) (hhead : behind = true → s.head? ≠ some b) :
    squeezeBehind b behind s = s := by
  induction s generalizing behind with
  | nil => rfl
  | cons c s ih =>
    have hs : ¬ [b, b] <:+: s := fun hin => h (hin.trans (List.suffix_cons c s).isInfix)
    by_cases hc : c = b
    · subst hc
      cases behind with
      | true => exact absurd rfl (hhead rfl)
      | false =>
        rw [squeezeBehind_blank, ih hs fun _ hsome => h ?_]
        obtain ⟨t, rfl⟩ := List.head?_eq_some_iff.mp hsome
        exact ⟨[], t, rfl⟩
    · rw [squeezeBehind_of_ne hc, ih hs fun hfalse => absurd hfalse Bool.false_ne_true]

theorem squeeze_eq_self (h : ¬ [b, b] <:+: s) : squeeze b s = s :=
  squeezeBehind_eq_self h fun hfalse => absurd hfalse Bool.false_ne_true

theorem length_squeeze_lt (h : [b, b] <:+: s) : (squeeze b s).length < s.length :=
  length_squeezeBehind_lt (.inl h)

/-- No two blanks are left side by side. -/
theorem not_pair_squeeze (s : List α) : ¬ [b, b] <:+: squeeze b s := by
  intro h
  have hlt := length_squeeze_lt h
  rw [squeeze_idem] at hlt
  exact lt_irrefl _ hlt

end Vs17.Squeeze
