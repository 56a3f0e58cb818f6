import Mathlib.Logic.Basic

/-! # Mutual exclusion

A mutex records the thread that holds it, and each thread is inside or outside of its
critical section. The two agree as long as threads enter by taking the mutex when it is
free and leave by giving it back.
-/

namespace Vs17.Mutex

variable {τ : Type*} {owner : Option τ} {inside inside' : τ → Prop} {t u : τ}

/-- The holder of the mutex is the one thread inside its critical section, if any is. -/
def Guards (owner : Option τ) (inside : τ → Prop) : Prop := ∀ t, owner = some t ↔ inside t

theorem Guards.unique (h : Guards owner inside) (ht : inside t) (hu : inside u) : t = u :=
  Option.some.inj (((h t).mpr ht).symm.trans ((h u).mpr hu))

/-- The mutex is free when no thread is inside. -/
theorem Guards.free (h : Guards owner inside) (hout : ∀ t, ¬ inside t) : owner = none := by
  cases howner : owner with
  | none => rfl
  | some t => exact absurd ((h t).mp howner) (hout t)

theorem Guards.congr (h : Guards owner inside) (hin : ∀ u, inside' u ↔ inside u) :
    Guards owner inside' :=
  fun u => (h u).trans (hin u).symm

section OneThread

variable (hother : ∀ u, u ≠ t → (inside' u ↔ inside u))

include hother

/-- One thread takes the mutex, which is free, and goes inside. -/
theorem Guards.acquire (h : Guards owner inside) (hfree : owner = none) (ht : inside' t) :
    Guards (some t) inside' := by
  intro u
  by_cases hu : u = t
  · subst hu
    exact iff_of_true rfl ht
  · rw [hother u hu, ← h u, hfree]
    simp [Ne.symm hu]

/-- The thread inside goes out and gives the mutex back. -/
theorem Guards.release (h : Guards owner inside) (hin : inside t) (ht : ¬ inside' t) :
    Guards none inside' := by
  intro u
  by_cases hu : u = t
  · subst hu
    exact iff_of_false (by rintro ⟨⟩) ht
  · rw [hother u hu]
    exact iff_of_false (by rintro ⟨⟩) fun hin' => hu (h.unique hin' hin)

/-- One thread moves on, inside or outside. -/
theorem Guards.move (h : Guards owner inside) (ht : inside' t ↔ inside t) :
    Guards owner inside' := by
  apply h.congr
  intro u
  by_cases hu : u = t
  · rwa [hu]
  · exact hother u hu

end OneThread

end Vs17.Mutex
