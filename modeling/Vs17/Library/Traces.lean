import Mathlib.Data.List.Forall2
import Mathlib.Data.Option.Defs

/-! # Operations on a state, one after another

An operation changes the state and has a result, or it is not defined there. Two systems whose
operations agree on related states have related traces.
-/

namespace Vs17.Traces

variable {σ τ ε ρ : Type*}

/-- The state and the result behind each of the operations. -/
def trace (step : σ → ε → Option (σ × ρ)) : σ → List ε → Option (List (σ × ρ))
  | _, [] => some []
  | s, e :: es => (step s e).bind fun p => (trace step p.1 es).map (p :: ·)

/-- The states are related, and the results are the same. -/
def Agree (R : σ → τ → Prop) (p : σ × ρ) (q : τ × ρ) : Prop :=
  R p.1 q.1 ∧ p.2 = q.2

theorem rel_bind {α β γ δ : Type*} {R : α → β → Prop} {S : γ → δ → Prop} {x : Option α}
    {y : Option β} {f : α → Option γ} {g : β → Option δ} (h : Option.Rel R x y)
    (hfg : ∀ a b, R a b → Option.Rel S (f a) (g b)) : Option.Rel S (x.bind f) (y.bind g) := by
  cases h with
  | none => exact .none
  | some hab => exact hfg _ _ hab

theorem rel_map {α β γ δ : Type*} {R : α → β → Prop} {S : γ → δ → Prop} {x : Option α}
    {y : Option β} {f : α → γ} {g : β → δ} (h : Option.Rel R x y)
    (hfg : ∀ a b, R a b → S (f a) (g b)) : Option.Rel S (x.map f) (y.map g) := by
  cases h with
  | none => exact .none
  | some hab => exact .some (hfg _ _ hab)

variable {R : σ → τ → Prop} {step : σ → ε → Option (σ × ρ)} {step' : τ → ε → Option (τ × ρ)}

/-- Both traces are defined and agree behind every operation, or neither is defined. -/
theorem trace_agree (h : ∀ s t e, R s t → Option.Rel (Agree R) (step s e) (step' t e))
    {s : σ} {t : τ} (hst : R s t) (es : List ε) :
    Option.Rel (List.Forall₂ (Agree R)) (trace step s es) (trace step' t es) := by
  induction es generalizing s t with
  | nil => exact .some .nil
  | cons e es ih =>
    apply rel_bind (h s t e hst)
    intro p q hpq
    apply rel_map (ih hpq.1)
    intro ps qs hrest
    exact .cons hpq hrest

end Vs17.Traces
