import Mathlib.Data.List.Basic

/-! # Readers that put out results

A reader takes one item after another and puts out results as it goes. Some items it does not
accept. Reading a list is reading one part of it and then the other.
-/

namespace Vs17.Transducers

variable {ρ α β : Type*} {next : ρ → α → Option (ρ × List β)} {r r' : ρ} {a : α} {l m : List α}
  {out : List β}

/-- The state behind all the items, and what has been put out. -/
def run (next : ρ → α → Option (ρ × List β)) : ρ → List α → Option (ρ × List β)
  | r, [] => some (r, [])
  | r, a :: l => (next r a).bind fun p => (run next p.1 l).map fun q => (q.1, p.2 ++ q.2)

@[simp]
theorem run_nil : run next r [] = some (r, []) := rfl

theorem run_cons_eq_some : run next r (a :: l) = some (r', out) ↔
    ∃ r₁ out₁ out₂, next r a = some (r₁, out₁) ∧ run next r₁ l = some (r', out₂) ∧
      out = out₁ ++ out₂ := by
  simp only [run, Option.bind_eq_some_iff, Option.map_eq_some_iff, Prod.exists, Prod.mk.injEq]
  constructor
  · rintro ⟨r₁, out₁, hnext, r₂, out₂, hrun, rfl, rfl⟩
    exact ⟨r₁, out₁, out₂, hnext, hrun, rfl⟩
  · rintro ⟨r₁, out₁, out₂, hnext, hrun, rfl⟩
    exact ⟨r₁, out₁, hnext, r', out₂, hrun, rfl, rfl⟩

theorem run_append_eq_some : run next r (l ++ m) = some (r', out) ↔
    ∃ r₁ out₁ out₂, run next r l = some (r₁, out₁) ∧ run next r₁ m = some (r', out₂) ∧
      out = out₁ ++ out₂ := by
  induction l generalizing r out with
  | nil => simp
  | cons a l ih =>
    simp only [List.cons_append, run_cons_eq_some, ih]
    constructor
    · rintro ⟨r₁, out₁, _, hnext, ⟨r₂, out₂, out₃, hl, hm, rfl⟩, rfl⟩
      exact ⟨r₂, out₁ ++ out₂, out₃, ⟨r₁, out₁, out₂, hnext, hl, rfl⟩, hm,
        (List.append_assoc ..).symm⟩
    · rintro ⟨r₂, _, out₃, ⟨r₁, out₁, out₂, hnext, hl, rfl⟩, hm, rfl⟩
      exact ⟨r₁, out₁, _, hnext, ⟨r₂, out₂, out₃, hl, hm, rfl⟩, List.append_assoc ..⟩

theorem run_singleton : run next r [a] = next r a := by
  cases h : next r a <;> simp [run, h]

/-- What a reader does not get through, it does not get through with more behind it. -/
theorem isSome_of_append (h : (run next r (l ++ m)).isSome) : (run next r l).isSome := by
  obtain ⟨⟨r', out⟩, h⟩ := Option.isSome_iff_exists.mp h
  obtain ⟨r₁, out₁, out₂, hl, -, -⟩ := run_append_eq_some.mp h
  exact Option.isSome_iff_exists.mpr ⟨_, hl⟩

end Vs17.Transducers
