import Mathlib.Data.Nat.Basic
import Mathlib.Data.List.Basic

/-! # Working off a stream in blocks

A function is fed with one block of fixed length after another. What remains is shorter
than a block and waits for more. The result does not depend on how the stream is cut.
-/

namespace Vs17.Blocks

variable {σ α : Type*} (f : σ → List α → σ) (k : ℕ)

/-- Feed all whole blocks; the second component is what remains. -/
def feed (s : σ) (l : List α) : σ × List α :=
  if 0 < k ∧ k ≤ l.length then feed (f s (l.take k)) (l.drop k) else (s, l)
termination_by l.length
decreasing_by
  rw [List.length_drop]
  omega

variable {f k} {s : σ} {l : List α}

theorem feed_of_lt (h : l.length < k) : feed f k s l = (s, l) := by
  rw [feed, if_neg (by omega)]

theorem feed_of_le (hk : 0 < k) (h : k ≤ l.length) :
    feed f k s l = feed f k (f s (l.take k)) (l.drop k) := by
  rw [feed, if_pos ⟨hk, h⟩]

/-- What remains does not fill a block. -/
theorem length_feed (hk : 0 < k) : (feed f k s l).2.length = l.length % k := by
  induction hn : l.length using Nat.strongRecOn generalizing s l with
  | ind n ih =>
    subst hn
    rcases lt_or_ge l.length k with h | h
    · rw [feed_of_lt h, Nat.mod_eq_of_lt h]
    · rw [feed_of_le hk h, ih (l.drop k).length (by rw [List.length_drop]; omega) rfl,
        List.length_drop, ← Nat.mod_eq_sub_mod h]

/-- A stream may be fed in two parts: what remains of the first goes before the second. -/
theorem feed_append (hk : 0 < k) (l' : List α) :
    feed f k s (l ++ l') = feed f k (feed f k s l).1 ((feed f k s l).2 ++ l') := by
  induction hn : l.length using Nat.strongRecOn generalizing s l with
  | ind n ih =>
    subst hn
    rcases lt_or_ge l.length k with h | h
    · rw [feed_of_lt h]
    · have hle : k ≤ (l ++ l').length := by
        rw [List.length_append]
        omega
      rw [feed_of_le hk hle, feed_of_le hk h, List.take_append_of_le_length h,
        List.drop_append_of_le_length h]
      exact ih (l.drop k).length (by rw [List.length_drop]; omega) rfl

end Vs17.Blocks
