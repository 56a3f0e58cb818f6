import Vs17.Library.Words
import Mathlib.Algebra.Order.BigOperators.Group.List

/-! # Records in a ring

Positions count on without end, and the cell of a position is its remainder by the capacity.
A record lies in one piece from the cell of its position on, if need be beyond the end of the
ring, and takes up a span of positions. Records whose spans lie in one window of the size of the
ring do not touch each other.
-/

namespace Vs17.Rings

open Words

variable {c : ℕ} {span : Bytes → ℕ} {mem r : Bytes} {rs : List Bytes} {u v m n : ℕ}

/-- What lies at a cell. -/
def region (mem : Bytes) (p n : ℕ) : Bytes := (mem.drop p).take n

/-- The positions that the records take up. -/
def extent (span : Bytes → ℕ) (rs : List Bytes) : ℕ := (rs.map span).sum

/-- The records lie one behind the other, from this position on. -/
def Stored (c : ℕ) (span : Bytes → ℕ) (mem : Bytes) : ℕ → List Bytes → Prop
  | _, [] => True
  | v, r :: rs => region mem (v % c) r.length = r ∧ Stored c span mem (v + span r) rs

@[simp] theorem extent_nil : extent span [] = 0 := rfl

@[simp] theorem extent_cons : extent span (r :: rs) = span r + extent span rs := by
  simp [extent]

@[simp] theorem extent_append (rs rs' : List Bytes) :
    extent span (rs ++ rs') = extent span rs + extent span rs' := by
  simp [extent]

/-- Two stretches of one window stay apart in the cells. -/
theorem apart (hm : u + m ≤ v) (hn : v + n ≤ u + c) :
    u % c + m ≤ v % c ∨ v % c + n ≤ u % c := by
  rcases Nat.eq_zero_or_pos c with rfl | hc
  · simp only [Nat.mod_zero]
    omega
  have hu := Nat.mod_lt u hc
  have hv : v % c = (u % c + (v - u)) % c := by
    rw [Nat.mod_add_mod]
    congr 1
    omega
  rcases Nat.lt_or_ge (u % c + (v - u)) c with hlt | hge
  · rw [Nat.mod_eq_of_lt hlt] at hv
    omega
  · have hlt : u % c + (v - u) - c < c := by omega
    rw [Nat.mod_eq_sub_mod hge, Nat.mod_eq_of_lt hlt] at hv
    omega

theorem region_blit_of_apart {p k : ℕ} {src : Bytes} (h : p + n ≤ k ∨ k + src.length ≤ p) :
    region (blit k src mem) p n = region mem p n := by
  unfold region
  rcases h with h | h
  · rw [List.take_drop, List.take_drop, take_blit_of_le h]
  · rw [drop_blit_of_ge h]

theorem region_blit_self {k : ℕ} {src : Bytes} (h : k + src.length ≤ mem.length) :
    region (blit k src mem) k src.length = src :=
  take_drop_blit h

theorem stored_append {rs' : List Bytes} : Stored c span mem v (rs ++ rs') ↔
    Stored c span mem v rs ∧ Stored c span mem (v + extent span rs) rs' := by
  induction rs generalizing v with
  | nil => simp [Stored]
  | cons r rs ih => rw [List.cons_append, Stored, Stored, ih, extent_cons, Nat.add_assoc, and_assoc]

/-- A block that is written behind the records, in the same window, leaves them alone. -/
theorem Stored.blit_behind (h : Stored c span mem v rs) {src : Bytes}
    (hspan : ∀ r ∈ rs, r.length ≤ span r) (hu : v + extent span rs ≤ u)
    (hroom : u + src.length ≤ v + c) : Stored c span (blit (u % c) src mem) v rs := by
  induction rs generalizing v with
  | nil => trivial
  | cons r rs ih =>
    rw [extent_cons] at hu
    have hr := hspan r (by simp)
    refine ⟨?_, ih h.2 (fun r' hr' => hspan r' (by simp [hr'])) (by omega) (by omega)⟩
    rw [region_blit_of_apart (apart (by omega) hroom)]
    exact h.1

/-- A record is added behind the others. -/
theorem Stored.push (h : Stored c span mem v rs) (hspan : ∀ r, r.length ≤ span r)
    (hroom : extent span rs + span r ≤ c)
    (hmem : (v + extent span rs) % c + r.length ≤ mem.length) :
    Stored c span (blit ((v + extent span rs) % c) r mem) v (rs ++ [r]) := by
  have hr := hspan r
  refine stored_append.mpr ⟨h.blit_behind (fun r _ => hspan r) le_rfl (by omega), ?_, trivial⟩
  exact region_blit_self hmem

end Vs17.Rings
