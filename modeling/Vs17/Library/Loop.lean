import Mathlib.Logic.Relation
import Mathlib.Data.Nat.Basic

/-! # Loops with an explicit body

The body of a loop either goes on with a new state or leaves the loop with a
result. `Ends` is its meaning without a bound on the number of rounds, `run` the
executable version with fuel. A state the body maps back to an equivalent one
never ends.
-/

namespace Vs17.Loop

variable {σ ρ : Type*} (body : σ → σ ⊕ ρ)

/-- Run at most the given number of rounds. -/
def run : ℕ → σ → Option ρ
  | 0, _ => none
  | n + 1, s =>
    match body s with
    | .inl s' => run n s'
    | .inr r => some r

/-- The loop started in this state leaves with this result. -/
inductive Ends : σ → ρ → Prop
  | exit {s : σ} {r : ρ} : body s = .inr r → Ends s r
  | round {s s' : σ} {r : ρ} : body s = .inl s' → Ends s' r → Ends s r

/-- The second state is at the top of the loop in some later round. -/
def Reaches : σ → σ → Prop :=
  Relation.ReflTransGen fun s s' => body s = .inl s'

variable {body}

theorem ends_of_run {n : ℕ} {s : σ} {r : ρ} (h : run body n s = some r) : Ends body s r := by
  induction n generalizing s with
  | zero => simp [run] at h
  | succ n ih =>
    rw [run] at h
    cases hb : body s with
    | inl s' => exact .round hb (ih (by simpa [hb] using h))
    | inr r' =>
      obtain rfl : r' = r := by simpa [hb] using h
      exact .exit hb

/-- With a variant that a round started in an ending state lowers, the variant's
value is fuel enough. -/
theorem run_of_ends (μ : σ → ℕ)
    (hμ : ∀ s s' r, body s = .inl s' → Ends body s' r → μ s' < μ s)
    {s : σ} {r : ρ} (h : Ends body s r) : ∀ {n : ℕ}, μ s < n → run body n s = some r := by
  induction h with
  | exit hb =>
    intro n hn
    obtain ⟨m, rfl⟩ : ∃ m, n = m + 1 := ⟨n - 1, by omega⟩
    simp [run, hb]
  | @round s s' r hb he ih =>
    intro n hn
    obtain ⟨m, rfl⟩ : ∃ m, n = m + 1 := ⟨n - 1, by omega⟩
    have hlt := hμ s s' r hb he
    simpa [run, hb] using ih (n := m) (by omega)

theorem Ends.deterministic {s : σ} {r r' : ρ} (h : Ends body s r) (h' : Ends body s r') :
    r = r' := by
  induction h with
  | exit hb =>
    cases h' with
    | exit hb' => exact Sum.inr.inj (hb.symm.trans hb')
    | round hb' _ => simp [hb] at hb'
  | round hb _ ih =>
    cases h' with
    | exit hb' => simp [hb] at hb'
    | round hb' he' =>
      obtain rfl := Sum.inl.inj (hb.symm.trans hb')
      exact ih he'

/-- A set of states the body never leaves holds no ending state. -/
theorem not_ends_of_trap (T : σ → Prop) (hT : ∀ s, T s → ∃ s', body s = .inl s' ∧ T s')
    {s : σ} {r : ρ} (hs : T s) : ¬ Ends body s r := by
  intro h
  induction h with
  | exit hb =>
    obtain ⟨s', hb', _⟩ := hT _ hs
    simp [hb] at hb'
  | round hb _ ih =>
    obtain ⟨s', hb', hs'⟩ := hT _ hs
    obtain rfl := Sum.inl.inj (hb.symm.trans hb')
    exact ih hs'

/-- A loop that ends does so with any fuel from some amount on. -/
theorem Ends.exists_run {s : σ} {r : ρ} (h : Ends body s r) :
    ∃ n₀, ∀ n ≥ n₀, run body n s = some r := by
  induction h with
  | exit hb =>
    refine ⟨1, fun n hn => ?_⟩
    obtain ⟨m, rfl⟩ := Nat.exists_eq_add_of_le' hn
    simp [run, hb]
  | round hb _ ih =>
    obtain ⟨n₀, hn₀⟩ := ih
    refine ⟨n₀ + 1, fun n hn => ?_⟩
    obtain ⟨m, rfl⟩ := Nat.exists_eq_add_of_le' hn
    simpa [run, hb, ← Nat.add_assoc] using hn₀ (m + n₀) (Nat.le_add_left _ _)

section Join

variable {body : σ → σ ⊕ Option ρ}

/-- A loop that may be left without a result, run with enough fuel. -/
theorem Ends.exists_join {s : σ} {r : ρ} (h : Ends body s (some r)) :
    ∃ n₀, ∀ n ≥ n₀, (run body n s).join = some r := by
  obtain ⟨n₀, hn₀⟩ := h.exists_run
  exact ⟨n₀, fun n hn => by rw [hn₀ n hn, Option.join_some]⟩

theorem ends_of_join {n : ℕ} {s : σ} {r : ρ} (h : (run body n s).join = some r) :
    Ends body s (some r) :=
  ends_of_run (Option.join_eq_some_iff.mp h)

theorem Ends.join_none {s : σ} (h : Ends body s none) (n : ℕ) : (run body n s).join = none := by
  cases hrun : (run body n s).join with
  | none => rfl
  | some r => cases h.deterministic (ends_of_join hrun)

end Join

theorem Reaches.refl {s : σ} : Reaches body s s :=
  Relation.ReflTransGen.refl

theorem Reaches.head {s s' t : σ} (hb : body s = .inl s') (h : Reaches body s' t) :
    Reaches body s t :=
  Relation.ReflTransGen.head hb h

theorem Reaches.tail {s t t' : σ} (h : Reaches body s t) (hb : body t = .inl t') :
    Reaches body s t' :=
  Relation.ReflTransGen.tail h hb

/-- A loop that gets to an ending state ends. -/
theorem Reaches.ends {s t : σ} {r : ρ} (h : Reaches body s t) (he : Ends body t r) :
    Ends body s r := by
  induction h using Relation.ReflTransGen.head_induction_on with
  | refl => exact he
  | head hb _ ih => exact .round hb ih

/-- What holds at the first round and is kept by the body holds at every round. -/
theorem Reaches.invariant {I : σ → Prop} {s t : σ} (h : Reaches body s t) (hs : I s)
    (hI : ∀ s s', I s → body s = .inl s' → I s') : I t := by
  induction h with
  | refl => exact hs
  | tail _ hb ih => exact hI _ _ ih hb

/-- What holds at the first round and is kept by the body is carried over to the result. -/
theorem Ends.invariant {I : σ → Prop} {J : ρ → Prop} {s : σ} {r : ρ} (h : Ends body s r)
    (hs : I s) (hI : ∀ s s', I s → body s = .inl s' → I s')
    (hJ : ∀ s r, I s → body s = .inr r → J r) : J r := by
  induction h with
  | exit hb => exact hJ _ _ hs hb
  | round hb _ ih => exact ih (hI _ _ hs hb)

end Vs17.Loop
