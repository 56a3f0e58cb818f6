import Mathlib.Data.Nat.Notation

/-! # Calls that change a state and may throw

A call is a computation of `EStateM`. What it does is said from one state at a time: a value that
it returns comes with one property of the state behind it, and what it throws with another.
-/

namespace Vs17.Calls

variable {ε σ α β : Type} {x : EStateM ε σ α} {s : σ} {Q Q' : α → σ → Prop} {E E' : ε → σ → Prop}

/-- From `s`, the call returns as `Q` says or throws as `E` says. -/
def Ends (x : EStateM ε σ α) (s : σ) (Q : α → σ → Prop) (E : ε → σ → Prop) : Prop :=
  match x s with
  | .ok a t => Q a t
  | .error e t => E e t

theorem Ends.mono (h : Ends x s Q E) (hQ : ∀ a t, Q a t → Q' a t)
    (hE : ∀ e t, E e t → E' e t) : Ends x s Q' E' := by
  unfold Ends at h ⊢
  cases hx : x s with
  | ok a t =>
    rw [hx] at h
    exact hQ a t h
  | error e t =>
    rw [hx] at h
    exact hE e t h

theorem Ends.of_ok (h : Ends x s Q E) {a : α} {t : σ} (hx : x s = .ok a t) : Q a t := by
  unfold Ends at h
  rwa [hx] at h

theorem Ends.of_error (h : Ends x s Q E) {e : ε} {t : σ} (hx : x s = .error e t) : E e t := by
  unfold Ends at h
  rwa [hx] at h

/-- The end of a call, and that it is the end of it. -/
theorem Ends.eq_ok_and (h : Ends x s Q E) : Ends x s (fun a t => x s = .ok a t ∧ Q a t) E := by
  unfold Ends at h ⊢
  cases hx : x s with
  | ok a t =>
    rw [hx] at h
    exact ⟨rfl, h⟩
  | error e t =>
    rw [hx] at h
    exact h

/-- A call that does not throw returns. -/
theorem Ends.exists_ok (h : Ends x s Q fun _ _ => False) : ∃ a t, x s = .ok a t ∧ Q a t := by
  unfold Ends at h
  cases hx : x s with
  | ok a t =>
    rw [hx] at h
    exact ⟨a, t, rfl, h⟩
  | error e t =>
    rw [hx] at h
    exact h.elim

theorem Ends.and (h : Ends x s Q E) (h' : Ends x s Q' E') :
    Ends x s (fun a t => Q a t ∧ Q' a t) fun e t => E e t ∧ E' e t := by
  unfold Ends at h h' ⊢
  cases hx : x s with
  | ok a t =>
    rw [hx] at h h'
    exact ⟨h, h'⟩
  | error e t =>
    rw [hx] at h h'
    exact ⟨h, h'⟩

/-- Every call ends. -/
theorem not_ends_false : ¬Ends x s (fun _ _ => False) fun _ _ => False := by
  intro h
  obtain ⟨-, -, -, hf⟩ := h.exists_ok
  exact hf

theorem ends_of_eq {a : α} {t : σ} (hx : x s = .ok a t) : Ends x s Q E ↔ Q a t := by
  unfold Ends
  rw [hx]

theorem bind_of_ok {f : α → EStateM ε σ β} {a : α} {t : σ} (hx : x s = .ok a t) :
    (x >>= f) s = f a t := by
  change EStateM.bind x f s = f a t
  unfold EStateM.bind
  rw [hx]

theorem map_of_ok {f : α → β} {a : α} {t : σ} (hx : x s = .ok a t) :
    (f <$> x) s = .ok (f a) t := by
  change EStateM.map f x s = .ok (f a) t
  unfold EStateM.map
  rw [hx]

/-- A call that can end in one way only does so. -/
theorem Ends.eq_ok {a : α} {t : σ} (h : Ends x s (fun b u => b = a ∧ u = t) fun _ _ => False) :
    x s = .ok a t := by
  unfold Ends at h
  cases hx : x s with
  | ok b u =>
    rw [hx] at h
    rw [h.1, h.2]
  | error e u =>
    rw [hx] at h
    exact h.elim

@[simp]
theorem ends_bind {f : α → EStateM ε σ β} {R : β → σ → Prop} :
    Ends (x >>= f) s R E ↔ Ends x s (fun a t => Ends (f a) t R E) E := by
  change (match EStateM.bind x f s with | .ok a t => R a t | .error e t => E e t) ↔ _
  unfold Ends EStateM.bind
  cases x s <;> rfl

@[simp]
theorem ends_pure {a : α} : Ends (pure a : EStateM ε σ α) s Q E ↔ Q a s := Iff.rfl

@[simp]
theorem ends_throw {e : ε} : Ends (throw e : EStateM ε σ α) s Q E ↔ E e s := Iff.rfl

@[simp]
theorem ends_get {Q : σ → σ → Prop} : Ends (get : EStateM ε σ σ) s Q E ↔ Q s s := Iff.rfl

@[simp]
theorem ends_set {t : σ} {Q : PUnit → σ → Prop} :
    Ends (set t : EStateM ε σ PUnit) s Q E ↔ Q ⟨⟩ t := Iff.rfl

@[simp]
theorem ends_modify {f : σ → σ} {Q : PUnit → σ → Prop} :
    Ends (modify f : EStateM ε σ PUnit) s Q E ↔ Q ⟨⟩ (f s) := Iff.rfl

@[simp]
theorem ends_modifyGet {f : σ → α × σ} :
    Ends (modifyGet f : EStateM ε σ α) s Q E ↔ Q (f s).1 (f s).2 := Iff.rfl

@[simp]
theorem ends_tryCatch {f : ε → EStateM ε σ α} :
    Ends (tryCatch x f) s Q E ↔ Ends x s Q fun e t => Ends (f e) t Q E := by
  change (match EStateM.tryCatch x f s with | .ok a t => Q a t | .error e t => E e t) ↔ _
  unfold Ends EStateM.tryCatch
  cases x s <;> rfl

/-! ### A part of the state -/

section Zoom

variable {τ : Type} {get : σ → τ} {set : τ → σ → σ} {y : EStateM ε τ α}

/-- A call that reads and changes a part of the state. -/
def zoom (get : σ → τ) (set : τ → σ → σ) (y : EStateM ε τ α) : EStateM ε σ α := fun s =>
  match y (get s) with
  | .ok a t => .ok a (set t s)
  | .error e t => .error e (set t s)

@[simp]
theorem ends_zoom : Ends (zoom get set y) s Q E ↔
    Ends y (get s) (fun a t => Q a (set t s)) (fun e t => E e (set t s)) := by
  unfold Ends zoom
  cases y (get s) <;> rfl

end Zoom

/-! ### Loops -/

/-- The steps `0`, …, `n - 1`, one after another. -/
def upTo (f : ℕ → α → EStateM ε σ α) (a : α) : ℕ → EStateM ε σ α
  | 0 => pure a
  | n + 1 => upTo f a n >>= f n

/-- A loop that only reads. -/
theorem upTo_of_ok {f : ℕ → α → EStateM ε σ α} {n : ℕ} (g : ℕ → α)
    (hstep : ∀ i < n, f i (g i) s = .ok (g (i + 1)) s) : upTo f (g 0) n s = .ok (g n) s := by
  induction n with
  | zero => rfl
  | succ n ih =>
    rw [upTo, bind_of_ok (ih fun i hi => hstep i (Nat.lt_succ_of_lt hi))]
    exact hstep n n.lt_succ_self

/-- What holds before the first step and is kept by each of them holds behind the last one. -/
theorem ends_upTo {f : ℕ → α → EStateM ε σ α} {a : α} {n : ℕ} (I : ℕ → α → σ → Prop)
    (h0 : I 0 a s)
    (hstep : ∀ i < n, ∀ b t, I i b t → Ends (f i b) t (I (i + 1)) E) :
    Ends (upTo f a n) s (I n) E := by
  induction n with
  | zero => exact h0
  | succ n ih =>
    rw [upTo, ends_bind]
    have hn : Ends (upTo f a n) s (I n) E := ih fun i hi => hstep i (Nat.lt_succ_of_lt hi)
    exact hn.mono (hstep n n.lt_succ_self) fun _ _ he => he

end Vs17.Calls
