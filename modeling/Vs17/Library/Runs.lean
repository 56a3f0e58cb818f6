import Mathlib.Logic.Basic
import Mathlib.Data.List.Basic

/-! # Runs of an event-driven system

A step relation says which state an event may lead to. A run records, for each of
its steps, the state the event met. An invariant holds along every run; a property
that a step keeps exactly when it meets a guard holds along a run exactly when
every step of the run meets it.
-/

namespace Vs17.Runs

variable {σ ε : Type*} (step : σ → ε → σ → Prop)

/-- `Run step s₀ tr s`: the steps `tr`, oldest first, lead from `s₀` to `s`. -/
inductive Run (s₀ : σ) : List (σ × ε) → σ → Prop
  | start : Run s₀ [] s₀
  | next {tr : List (σ × ε)} {s t : σ} {e : ε} :
      Run s₀ tr s → step s e t → Run s₀ (tr ++ [(s, e)]) t

/-- The property holds in every state of a run with these steps and this last state. -/
def Throughout (P : σ → Prop) (tr : List (σ × ε)) (s : σ) : Prop :=
  (∀ x ∈ tr, P x.1) ∧ P s

/-- Every step of the run meets the guard. -/
def AllSteps (ok : σ → ε → Prop) (tr : List (σ × ε)) : Prop :=
  ∀ x ∈ tr, ok x.1 x.2

variable {step} {s₀ s : σ} {tr : List (σ × ε)}

theorem throughout_append {P : σ → Prop} {e : ε} {t : σ} :
    Throughout P (tr ++ [(s, e)]) t ↔ Throughout P tr s ∧ P t := by
  simp only [Throughout, List.forall_mem_append, List.forall_mem_singleton]

theorem Throughout.imp {P Q : σ → Prop} (h : Throughout P tr s) (hPQ : ∀ s, P s → Q s) :
    Throughout Q tr s :=
  ⟨fun x hx => hPQ _ (h.1 x hx), hPQ _ h.2⟩

theorem allSteps_append {ok : σ → ε → Prop} {e : ε} :
    AllSteps ok (tr ++ [(s, e)]) ↔ AllSteps ok tr ∧ ok s e := by
  simp only [AllSteps, List.forall_mem_append, List.forall_mem_singleton]

theorem Run.invariant {I : σ → Prop} (h : Run step s₀ tr s) (h₀ : I s₀)
    (hI : ∀ s e t, I s → step s e t → I t) : Throughout I tr s := by
  induction h with
  | start => exact ⟨by simp, h₀⟩
  | next _ hs ih => exact throughout_append.mpr ⟨ih, hI _ _ _ ih.2 hs⟩

/-- Every step of a run was possible in the state it met. -/
theorem Run.exists_step (h : Run step s₀ tr s) {x : σ × ε} (hx : x ∈ tr) :
    ∃ t, step x.1 x.2 t := by
  induction h with
  | start => cases hx
  | next _ hs ih =>
    rcases List.mem_append.mp hx with hx | hx
    · exact ih hx
    · cases List.mem_singleton.mp hx
      exact ⟨_, hs⟩

/-- An invariant of the system, and a property that a step from a good state keeps
exactly when it meets the guard: the property holds throughout exactly when every
step meets the guard. -/
theorem Run.throughout_iff {I P : σ → Prop} {ok : σ → ε → Prop}
    (h : Run step s₀ tr s) (hI₀ : I s₀) (hI : ∀ s e t, I s → step s e t → I t)
    (h₀ : P s₀) (hP : ∀ s e t, I s → P s → step s e t → (P t ↔ ok s e)) :
    Throughout P tr s ↔ AllSteps ok tr := by
  induction h with
  | start => exact ⟨fun _ => by simp [AllSteps], fun _ => ⟨by simp, h₀⟩⟩
  | next hr hs ih =>
    rw [throughout_append, allSteps_append, ← ih]
    refine and_congr_right fun hp => hP _ _ _ ?_ hp.2 hs
    exact (hr.invariant hI₀ hI).2

/-- A property that, once lost, stays lost, and that a step loses exactly when it misses
the guard: it holds in the end exactly when every step meets the guard. -/
theorem Run.final_iff {I P : σ → Prop} {ok : σ → ε → Prop}
    (h : Run step s₀ tr s) (hI₀ : I s₀) (hI : ∀ s e t, I s → step s e t → I t)
    (h₀ : P s₀) (hP : ∀ s e t, I s → step s e t → (P t ↔ P s ∧ ok s e)) :
    P s ↔ AllSteps ok tr := by
  induction h with
  | start => exact iff_of_true h₀ (by simp [AllSteps])
  | next hr hs ih =>
    rw [hP _ _ _ (hr.invariant hI₀ hI).2 hs, ih, allSteps_append]

/-- A run whose steps all meet a guard is a run of the system restricted to such steps. -/
theorem Run.restrict {ok : σ → ε → Prop} (h : Run step s₀ tr s) (hok : AllSteps ok tr) :
    Run (fun s e t => step s e t ∧ ok s e) s₀ tr s := by
  induction h with
  | start => exact .start
  | next hr hs ih =>
    rw [allSteps_append] at hok
    exact (ih hok.1).next ⟨hs, hok.2⟩

section Inevitable

variable (step)

/-- Every continuation from this state reaches a good one: none avoids it for ever, and
none comes to an end before it. -/
inductive Inevitable (P : σ → Prop) : σ → Prop
  | now {s : σ} : P s → Inevitable P s
  | later {s : σ} : (∃ e t, step s e t) → (∀ e t, step s e t → Inevitable P t) → Inevitable P s

variable {step}

/-- An invariant under which some step is possible until the state is good, and under
which every step lowers a rank, makes a good state inevitable. -/
theorem Inevitable.of_rank {I P : σ → Prop} (μ : σ → ℕ)
    (hprogress : ∀ s, I s → ¬ P s → ∃ e t, step s e t)
    (hstep : ∀ s e t, I s → ¬ P s → step s e t → I t ∧ μ t < μ s) (hs : I s) :
    Inevitable step P s := by
  induction hn : μ s using Nat.strongRecOn generalizing s with
  | ind n ih =>
    by_cases hP : P s
    · exact .now hP
    · refine .later (hprogress s hs hP) fun e t h => ?_
      obtain ⟨ht, hlt⟩ := hstep s e t hs hP h
      exact ih (μ t) (hn ▸ hlt) ht rfl

end Inevitable

section Follows

variable (enabled : σ → ε → Prop) (next : σ → ε → σ)

/-- The events are enabled one after another. -/
def Follows : σ → List ε → Prop
  | _, [] => True
  | s, e :: es => enabled s e ∧ Follows (next s e) es

/-- The steps these events make. -/
def steps : σ → List ε → List (σ × ε)
  | _, [] => []
  | s, e :: es => (s, e) :: steps (next s e) es

instance {ok : σ → ε → Prop} [∀ s e, Decidable (ok s e)] (tr : List (σ × ε)) :
    Decidable (AllSteps ok tr) :=
  inferInstanceAs (Decidable (∀ x ∈ tr, ok x.1 x.2))

instance [∀ s e, Decidable (enabled s e)] : ∀ s es, Decidable (Follows enabled next s es)
  | _, [] => .isTrue trivial
  | s, e :: es =>
    have := instDecidableFollows (next s e) es
    inferInstanceAs (Decidable (enabled s e ∧ Follows enabled next (next s e) es))

variable {enabled next}

/-- A run goes on with events that are enabled one after another. -/
theorem Run.follow (hnext : ∀ s e, enabled s e → step s e (next s e)) {es : List ε}
    (h : Run step s₀ tr s) (hes : Follows enabled next s es) :
    Run step s₀ (tr ++ steps next s es) (es.foldl next s) := by
  induction es generalizing tr s with
  | nil => simpa [steps] using h
  | cons e es ih =>
    obtain ⟨he, hes⟩ := hes
    have hrun := ih (h.next (hnext s e he)) hes
    rwa [List.append_assoc, List.singleton_append] at hrun

end Follows

end Vs17.Runs
