import Mathlib.Data.Set.Insert
import Mathlib.Logic.Function.Basic

/-! # Things that are held

Each holder has one thing or none. Nothing is held by two, and nothing is left that nobody holds.
-/

namespace Vs17

variable {κ α : Type*} {f : κ → Option α} {S : Set α} {k l : κ} {a b : α}

/-- The things in `S` are held, each of them once, and no others are. -/
structure Held (f : κ → Option α) (S : Set α) : Prop where
  mem : ∀ {k a}, f k = some a → a ∈ S
  exists_holder : ∀ a ∈ S, ∃ k, f k = some a
  unique : ∀ {k l a}, f k = some a → f l = some a → k = l

namespace Held

theorem ne_of_ne (hf : Held f S) (hk : f k = some a) (hl : f l = some b) (hkl : k ≠ l) :
    a ≠ b := by
  rintro rfl
  exact hkl (hf.unique hk hl)

variable [DecidableEq κ]

theorem give (hf : Held f S) (hk : f k = none) (ha : a ∉ S) :
    Held (Function.update f k (some a)) (insert a S) where
  mem {l b} hl := by
    rcases eq_or_ne l k with rfl | hlk
    · rw [Function.update_self, Option.some.injEq] at hl
      exact .inl hl.symm
    · rw [Function.update_of_ne hlk] at hl
      exact .inr (hf.mem hl)
  exists_holder b hb := by
    rcases hb with rfl | hb
    · exact ⟨k, Function.update_self ..⟩
    · obtain ⟨l, hl⟩ := hf.exists_holder b hb
      have hlk : l ≠ k := by
        rintro rfl
        rw [hk] at hl
        cases hl
      exact ⟨l, by rw [Function.update_of_ne hlk, hl]⟩
  unique {l l' b} hl hl' := by
    rcases eq_or_ne k l with rfl | hlk <;> rcases eq_or_ne k l' with rfl | hlk'
    · rfl
    · rw [Function.update_self, Option.some.injEq] at hl
      rw [Function.update_of_ne hlk'.symm] at hl'
      exact absurd (hl ▸ hf.mem hl') ha
    · rw [Function.update_self, Option.some.injEq] at hl'
      rw [Function.update_of_ne hlk.symm] at hl
      exact absurd (hl' ▸ hf.mem hl) ha
    · rw [Function.update_of_ne hlk.symm] at hl
      rw [Function.update_of_ne hlk'.symm] at hl'
      exact hf.unique hl hl'

theorem take (hf : Held f S) (hk : f k = some a) : Held (Function.update f k none) (S \ {a}) where
  mem {l b} hl := by
    rcases eq_or_ne l k with rfl | hlk
    · rw [Function.update_self] at hl
      cases hl
    · rw [Function.update_of_ne hlk] at hl
      exact ⟨hf.mem hl, hf.ne_of_ne hl hk hlk⟩
  exists_holder b hb := by
    obtain ⟨l, hl⟩ := hf.exists_holder b hb.1
    have hlk : l ≠ k := by
      rintro rfl
      rw [hk, Option.some.injEq] at hl
      exact hb.2 hl.symm
    exact ⟨l, by rw [Function.update_of_ne hlk, hl]⟩
  unique {l l' b} hl hl' := by
    rcases eq_or_ne l k with rfl | hlk
    · rw [Function.update_self] at hl
      cases hl
    · rcases eq_or_ne l' k with rfl | hlk'
      · rw [Function.update_self] at hl'
        cases hl'
      · rw [Function.update_of_ne hlk] at hl
        rw [Function.update_of_ne hlk'] at hl'
        exact hf.unique hl hl'

end Held

/-! ### Holders that belong to groups

Each group is looked at alone: of the things, it leaves out those that the others hold. -/

namespace Held

variable {ι : Type*} {f : ι → κ → Option α} {g : κ → Option α} {S T : Set α} {j : ι}

/-- What is held outside of a group. -/
def rest (f : ι → κ → Option α) (j : ι) : Set α := {a | ∃ l ≠ j, ∃ k, f l k = some a}

theorem rest_subset (hf : Held (Function.uncurry f) S) : rest f j ⊆ S := by
  rintro a ⟨l, -, k, hk⟩
  exact hf.mem (k := (l, k)) hk

theorem part (hf : Held (Function.uncurry f) S) (j : ι) : Held (f j) (S \ rest f j) where
  mem {k a} hk := by
    refine ⟨hf.mem (k := (j, k)) hk, ?_⟩
    rintro ⟨l, hl, k', hk'⟩
    exact hl (congrArg Prod.fst (hf.unique (k := (l, k')) (l := (j, k)) hk' hk))
  exists_holder a ha := by
    obtain ⟨⟨l, k⟩, hk⟩ := hf.exists_holder a ha.1
    have hl : l = j := by
      by_contra hl
      exact ha.2 ⟨l, hl, k, hk⟩
    exact ⟨k, hl ▸ hk⟩
  unique {k l a} hk hl :=
    congrArg Prod.snd (hf.unique (k := (j, k)) (l := (j, l)) hk hl)

/-- Holders of one group are exchanged, and the others keep what they have. -/
theorem join [DecidableEq ι] (hf : Held (Function.uncurry f) S) (hg : Held g (T \ rest f j))
    (hT : rest f j ⊆ T) : Held (Function.uncurry (Function.update f j g)) T where
  mem := by
    rintro ⟨l, k⟩ a hk
    rw [Function.uncurry_apply_pair] at hk
    rcases eq_or_ne l j with rfl | hl
    · rw [Function.update_self] at hk
      exact (hg.mem hk).1
    · rw [Function.update_of_ne hl] at hk
      exact hT ⟨l, hl, k, hk⟩
  exists_holder a ha := by
    by_cases hrest : a ∈ rest f j
    · obtain ⟨l, hl, k, hk⟩ := hrest
      refine ⟨(l, k), ?_⟩
      rw [Function.uncurry_apply_pair, Function.update_of_ne hl]
      exact hk
    · obtain ⟨k, hk⟩ := hg.exists_holder a ⟨ha, hrest⟩
      refine ⟨(j, k), ?_⟩
      rw [Function.uncurry_apply_pair, Function.update_self]
      exact hk
  unique := by
    rintro ⟨l, k⟩ ⟨l', k'⟩ a hk hk'
    rw [Function.uncurry_apply_pair] at hk hk'
    rcases eq_or_ne j l with rfl | hl <;> rcases eq_or_ne j l' with rfl | hl'
    · rw [Function.update_self] at hk hk'
      rw [hg.unique hk hk']
    · rw [Function.update_self] at hk
      rw [Function.update_of_ne hl'.symm] at hk'
      exact absurd ⟨l', hl'.symm, k', hk'⟩ (hg.mem hk).2
    · rw [Function.update_of_ne hl.symm] at hk
      rw [Function.update_self] at hk'
      exact absurd ⟨l, hl.symm, k, hk⟩ (hg.mem hk').2
    · rw [Function.update_of_ne hl.symm] at hk
      rw [Function.update_of_ne hl'.symm] at hk'
      exact hf.unique (k := (l, k)) (l := (l', k')) hk hk'

end Held

end Vs17
