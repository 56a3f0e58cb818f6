import Vs17.Library.Words

/-! # Fields of packed records

A packed record is a block of memory with its fields one behind another. A field is read as the
bytes at its place, and written by a copy of as many bytes.
-/

namespace Vs17

open Words

structure Field where
  off : ℕ
  size : ℕ
  deriving DecidableEq

namespace Field

def get (f : Field) (b : Bytes) : Bytes := (b.drop f.off).take f.size

def set (f : Field) (src b : Bytes) : Bytes := blit f.off (src.take f.size) b

/-- One of the two fields ends before the other one begins. -/
def Apart (f g : Field) : Prop := f.off + f.size ≤ g.off ∨ g.off + g.size ≤ f.off

instance (f g : Field) : Decidable (f.Apart g) :=
  inferInstanceAs (Decidable (_ ∨ _))

variable {f g : Field} {src b c : Bytes}

@[simp] theorem length_set : (f.set src b).length = b.length := length_blit ..

theorem length_get (h : f.off + f.size ≤ b.length) : (f.get b).length = f.size := by
  simp only [get, List.length_take, List.length_drop]
  omega

/-- Bytes behind a field do not change it. -/
theorem get_append (h : f.off + f.size ≤ b.length) : f.get (b ++ c) = f.get b := by
  rw [get, get, List.drop_append_of_le_length (by omega),
    List.take_append_of_le_length (by simp only [List.length_drop]; omega)]

theorem get_take {n : ℕ} (h : f.off + f.size ≤ n) : f.get (b.take n) = f.get b := by
  rw [get, get, List.drop_take, List.take_take, Nat.min_eq_left (by omega)]

theorem get_set (hsrc : src.length = f.size) (hb : f.off + f.size ≤ b.length) :
    f.get (f.set src b) = src := by
  rw [get, set, List.take_of_length_le hsrc.le]
  conv_lhs => rw [← hsrc]
  exact take_drop_blit (by omega)

theorem get_set_of_apart (h : f.Apart g) : f.get (g.set src b) = f.get b := by
  have hsrc : (src.take g.size).length ≤ g.size := List.length_take_le ..
  rcases h with h | h
  · rw [get, get, set, List.take_drop, take_blit_of_le h, ← List.take_drop]
  · rw [get, get, set, drop_blit_of_ge (by omega)]

end Field

end Vs17
