import Mathlib.Algebra.Order.Group.Int
import Mathlib.Data.List.Basic

/-! # Counted loops

Loops over an integer that goes up or down by one and that the body does not change. The
body may have no result, and then the loop has none.
-/

namespace Vs17.Counted

variable {σ : Type} (f : ℤ → σ → Option σ)

/-- `for (i = lo; i < hi; i++) s = f(i, s)` -/
def forUp (lo hi : ℤ) (s : σ) : Option σ :=
  (List.range (hi - lo).toNat).foldlM (fun s (k : ℕ) => f (lo + k) s) s

/-- `for (i = hi - 1; i >= lo; i--) s = f(i, s)` -/
def forDown (hi lo : ℤ) (s : σ) : Option σ :=
  (List.range (hi - lo).toNat).foldlM (fun s (k : ℕ) => f (hi - 1 - k) s) s

variable {lo hi : ℤ} {s : σ} (I : ℤ → σ → Prop)

/-- What a body on a fold over the first numbers keeps holds behind the fold. -/
theorem foldlM_range (g : σ → ℕ → Option σ) (J : ℕ → σ → Prop) (n : ℕ) (h0 : J 0 s)
    (hstep : ∀ k < n, ∀ s, J k s → ∃ s', g s k = some s' ∧ J (k + 1) s') :
    ∃ s', (List.range n).foldlM g s = some s' ∧ J n s' := by
  induction n with
  | zero => exact ⟨s, rfl, h0⟩
  | succ n ih =>
    obtain ⟨s', hs', hJ⟩ := ih fun k hk => hstep k (by omega)
    obtain ⟨s'', hs'', hJ'⟩ := hstep n (by omega) s' hJ
    exact ⟨s'', by simp [List.range_succ, List.foldlM_append, hs', hs''], hJ'⟩

/-- The invariant of a loop that counts up, indexed by the counter. -/
theorem forUp_keeps (h0 : I lo s) (hle : lo ≤ hi)
    (hstep : ∀ i s, lo ≤ i → i < hi → I i s → ∃ s', f i s = some s' ∧ I (i + 1) s') :
    ∃ s', forUp f lo hi s = some s' ∧ I hi s' := by
  have hfold := foldlM_range (fun s (k : ℕ) => f (lo + k) s) (fun k s => I (lo + k) s)
    (hi - lo).toNat (by simpa using h0) fun k hk s hI => by
      obtain ⟨s', hs', hI'⟩ := hstep (lo + k) s (by omega) (by omega) hI
      exact ⟨s', hs', by simpa [add_assoc] using hI'⟩
  obtain ⟨s', hs', hI⟩ := hfold
  refine ⟨s', hs', ?_⟩
  rwa [show lo + ((hi - lo).toNat : ℤ) = hi by omega] at hI

/-- The invariant of a loop that counts down, indexed by what the counter was before. -/
theorem forDown_keeps (h0 : I hi s) (hle : lo ≤ hi)
    (hstep : ∀ i s, lo ≤ i → i < hi → I (i + 1) s → ∃ s', f i s = some s' ∧ I i s') :
    ∃ s', forDown f hi lo s = some s' ∧ I lo s' := by
  have hfold := foldlM_range (fun s (k : ℕ) => f (hi - 1 - k) s) (fun k s => I (hi - k) s)
    (hi - lo).toNat (by simpa using h0) fun k hk s hI => by
      have hprev : hi - 1 - (k : ℤ) + 1 = hi - k := by omega
      have hnext : hi - ((k + 1 : ℕ) : ℤ) = hi - 1 - k := by omega
      obtain ⟨s', hs', hI'⟩ := hstep (hi - 1 - k) s (by omega) (by omega) (by rwa [hprev])
      exact ⟨s', hs', by rwa [hnext]⟩
  obtain ⟨s', hs', hI⟩ := hfold
  refine ⟨s', hs', ?_⟩
  rwa [show hi - ((hi - lo).toNat : ℤ) = lo by omega] at hI

variable {f}

/-- A loop whose bounds have crossed does nothing. -/
theorem forUp_of_le (h : hi ≤ lo) : forUp f lo hi s = some s := by
  rw [forUp, show (hi - lo).toNat = 0 by omega]
  rfl

/-- The last round of a loop that counts up. -/
theorem forUp_succ (h : lo ≤ hi) : forUp f lo (hi + 1) s = (forUp f lo hi s).bind (f hi) := by
  have hcount : (hi + 1 - lo).toNat = (hi - lo).toNat + 1 := by omega
  have hlast : lo + ((hi - lo).toNat : ℤ) = hi := by omega
  rw [forUp, hcount, List.range_succ, List.foldlM_append, Option.bind_eq_bind, forUp]
  congr 1
  funext s'
  rw [List.foldlM_cons, hlast]
  exact bind_pure (f hi s')

/-- The first round of a loop that counts up. -/
theorem forUp_of_lt (h : lo < hi) : forUp f lo hi s = (f lo s).bind (forUp f (lo + 1) hi) := by
  have hcount : (hi - lo).toNat = (hi - (lo + 1)).toNat + 1 := by omega
  rw [forUp, hcount, List.range_succ_eq_map, List.foldlM_cons, Option.bind_eq_bind,
    show lo + ((0 : ℕ) : ℤ) = lo by omega]
  congr 1
  funext s'
  rw [forUp, List.foldlM_map]
  congr 1
  funext t k
  rw [show lo + ((k.succ : ℕ) : ℤ) = lo + 1 + k by omega]

/-- What each round that succeeds keeps holds behind a loop that succeeds. -/
theorem forUp_invariant (I : ℤ → σ → Prop) {s' : σ} (h : forUp f lo hi s = some s')
    (hle : lo ≤ hi) (h0 : I lo s)
    (hstep : ∀ i s s', lo ≤ i → i < hi → I i s → f i s = some s' → I (i + 1) s') : I hi s' := by
  induction hk : (hi - lo).toNat generalizing lo s with
  | zero =>
    obtain rfl : lo = hi := by omega
    rw [forUp_of_le le_rfl] at h
    exact Option.some.inj h ▸ h0
  | succ k ih =>
    rw [forUp_of_lt (by omega)] at h
    obtain ⟨t, ht, hrest⟩ := Option.bind_eq_some_iff.mp h
    exact ih hrest (by omega) (hstep lo s t le_rfl (by omega) h0 ht)
      (fun i s s' hi' => hstep i s s' (by omega)) (by omega)

/-- The invariant of a loop whose body needs enough fuel in each round. -/
theorem forUp_eventually {g : ℕ → ℤ → σ → Option σ} (I : ℤ → σ → Prop) (h0 : I lo s) (hle : lo ≤ hi)
    (hstep : ∀ i s, lo ≤ i → i < hi → I i s →
      ∃ s', (∃ n₀, ∀ n ≥ n₀, g n i s = some s') ∧ I (i + 1) s') :
    ∃ s', (∃ n₀, ∀ n ≥ n₀, forUp (g n) lo hi s = some s') ∧ I hi s' := by
  induction hk : (hi - lo).toNat generalizing hi with
  | zero =>
    obtain rfl : lo = hi := by omega
    exact ⟨s, ⟨0, fun n _ => forUp_of_le le_rfl⟩, h0⟩
  | succ k ih =>
    obtain ⟨hi, rfl⟩ : ∃ h, hi = h + 1 := ⟨hi - 1, by omega⟩
    obtain ⟨s₁, ⟨n₁, hrun₁⟩, hI₁⟩ := ih (by omega : lo ≤ hi)
      (fun i s hi hlt => hstep i s hi (by omega)) (by omega)
    obtain ⟨s₂, ⟨n₂, hrun₂⟩, hI₂⟩ := hstep hi s₁ (by omega) (by omega) hI₁
    refine ⟨s₂, ⟨max n₁ n₂, fun n hn => ?_⟩, hI₂⟩
    rw [forUp_succ (by omega), hrun₁ n (by omega), Option.bind_some, hrun₂ n (by omega)]

/-- The first round of a loop that counts down. -/
theorem forDown_of_lt (h : lo < hi) :
    forDown f hi lo s = (f (hi - 1) s).bind (forDown f (hi - 1) lo) := by
  have hcount : (hi - lo).toNat = (hi - 1 - lo).toNat + 1 := by omega
  rw [forDown, hcount, List.range_succ_eq_map, List.foldlM_cons, Option.bind_eq_bind,
    show hi - 1 - ((0 : ℕ) : ℤ) = hi - 1 by omega]
  congr 1
  funext s'
  rw [forDown, List.foldlM_map]
  congr 1
  funext t k
  rw [show hi - 1 - ((k.succ : ℕ) : ℤ) = hi - 1 - 1 - k by omega]

/-- What each round that succeeds keeps holds behind a loop that succeeds. -/
theorem forDown_invariant (I : σ → Prop) {s' : σ} (h : forDown f hi lo s = some s')
    (h0 : I s) (hstep : ∀ i s s', lo ≤ i → i < hi → I s → f i s = some s' → I s') : I s' := by
  induction hk : (hi - lo).toNat generalizing hi s with
  | zero =>
    rw [forDown, hk] at h
    exact Option.some.inj h ▸ h0
  | succ k ih =>
    rw [forDown_of_lt (by omega)] at h
    obtain ⟨t, ht, hrest⟩ := Option.bind_eq_some_iff.mp h
    exact ih hrest (hstep (hi - 1) s t (by omega) (by omega) h0 ht)
      (fun i s s' hlo hlt => hstep i s s' hlo (by omega)) (by omega)

theorem forDown_of_le (h : hi ≤ lo) : forDown f hi lo s = some s := by
  rw [forDown, show (hi - lo).toNat = 0 by omega]
  rfl

end Vs17.Counted
