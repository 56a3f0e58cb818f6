import Mathlib.Data.List.Basic
import Mathlib.Data.List.Nodup
import Vs17.Library.Loop

/-! # Walks along a chain of records

Each record of a chain holds the offset of the next one, and the last one holds 0. A walk is a loop
that visits a record, moves on by its offset, and goes round again under some condition.
-/

namespace Vs17.Chains

open Loop

variable {off : ℕ → ℕ}

/-- The records from an address on, for the offset that each of them holds. -/
inductive Chain (off : ℕ → ℕ) : ℕ → List ℕ → Prop
  | last {p : ℕ} : off p = 0 → Chain off p [p]
  | link {p : ℕ} {l : List ℕ} : off p ≠ 0 → Chain off (p + off p) l → Chain off p (p :: l)

/-- A round of `do { visit; move on } while (again)`, with the record that has been visited and the
one the pointer has moved to. -/
def doWhile (off : ℕ → ℕ) (again : ℕ → ℕ → Bool) (s : ℕ × List ℕ) : (ℕ × List ℕ) ⊕ List ℕ :=
  let next := s.1 + off s.1
  let visited := s.2 ++ [s.1]
  if again s.1 next then .inl (next, visited) else .inr visited

/-- A round of `while (true) { if (last) break; move on; visit }`. -/
def whileTrue (off : ℕ → ℕ) (s : ℕ × List ℕ) : (ℕ × List ℕ) ⊕ List ℕ :=
  if off s.1 = 0 then .inr s.2 else .inl (s.1 + off s.1, s.2 ++ [s.1 + off s.1])

variable {again : ℕ → ℕ → Bool} {p : ℕ} {l v : List ℕ}

theorem Chain.le_of_mem (h : Chain off p l) : ∀ q ∈ l, p ≤ q := by
  induction h with
  | last hp => simp
  | link hp _ ih =>
    intro q hq
    rcases List.mem_cons.mp hq with rfl | hq
    · exact le_rfl
    · exact Nat.le_trans (Nat.le_add_right ..) (ih q hq)

/-- The addresses go up along a chain. -/
theorem Chain.nodup (h : Chain off p l) : l.Nodup := by
  induction h with
  | last _ => simp
  | link hp hl ih =>
    refine List.nodup_cons.mpr ⟨fun hmem => ?_, ih⟩
    have hle := hl.le_of_mem _ hmem
    omega

theorem Chain.two_le_length (h : Chain off p l) (hp : off p ≠ 0) : 2 ≤ l.length := by
  cases h with
  | last hzero => exact absurd hzero hp
  | link _ hl =>
    cases hl with
    | last _ => simp
    | link _ _ => simp

theorem Chain.eq_singleton (h : Chain off p l) (hp : off p = 0) : l = [p] := by
  cases h with
  | last _ => rfl
  | link hne _ => exact absurd hp hne

theorem doWhile_ends (h : again p (p + off p) = false) :
    Ends (doWhile off again) (p, v) (v ++ [p]) :=
  .exit (by simp [doWhile, h])

theorem doWhile_round (h : again p (p + off p) = true) :
    doWhile off again (p, v) = .inl (p + off p, v ++ [p]) := by
  simp [doWhile, h]

/-- A walk that goes by the offset of the record it has visited gets to the last one. -/
theorem doWhile_ends_current (h : Chain off p l) :
    Ends (doWhile off fun p _ => off p ≠ 0) (p, v) (v ++ l) := by
  induction h generalizing v with
  | last hp => exact doWhile_ends (by simp [hp])
  | link hp _ ih =>
    rw [List.append_cons]
    exact .round (doWhile_round (by simp [hp])) ih

/-- A walk that goes by the offset of the record it has moved to leaves the last one out. -/
theorem doWhile_ends_next (h : Chain off p l) (hp : off p ≠ 0) :
    Ends (doWhile off fun _ q => off q ≠ 0) (p, v) (v ++ l.dropLast) := by
  induction h generalizing v with
  | last hzero => exact absurd hzero hp
  | @link p l hne hl ih =>
    by_cases hnext : off (p + off p) = 0
    · rw [hl.eq_singleton hnext]
      exact doWhile_ends (by simp [hnext])
    · rw [List.dropLast_cons_of_ne_nil (by rintro rfl; cases hl), List.append_cons]
      exact .round (doWhile_round (by simp [hnext])) (ih hnext)

theorem not_doWhile_ends : ¬ Ends (doWhile off fun _ _ => true) (p, v) l :=
  not_ends_of_trap (fun _ => True) (fun s _ => ⟨_, doWhile_round (p := s.1) rfl, trivial⟩) trivial

theorem whileTrue_ends (h : Chain off p l) :
    Ends (whileTrue off) (p, v ++ [p]) (v ++ l) := by
  induction h generalizing v with
  | last hp => exact .exit (by simp [whileTrue, hp])
  | @link p l hp _ ih =>
    have hround : whileTrue off (p, v ++ [p]) = .inl (p + off p, v ++ [p] ++ [p + off p]) := by
      simp [whileTrue, hp]
    rw [List.append_cons v p l]
    exact .round hround ih

end Vs17.Chains
