import Vs17.Library.Arrays
import Vs17.Library.Multibyte

/-! # Destinations with a capacity

A destination is the memory from a pointer on, of which the capacity is the part a function may
use. A function that has a text to store reports -1 when it refuses it.
-/

namespace Vs17.Capacity

open Arrays Multibyte Words

/-- There is no text, or it and its terminator do not fit. -/
def Refused (text : Option Bytes) (cap : ℕ) : Prop :=
  ∀ t, text = some t → cap ≤ t.length

/-- What a call leaves: no byte behind the capacity is written, and a text that fits is stored
with its terminator. -/
structure Leaves (text : Option Bytes) (cap : ℕ) (mem : Bytes) (ret : ℤ) (mem' : Bytes) : Prop where
  length : mem'.length = mem.length
  beyond : mem'.drop cap = mem.drop cap
  refused : Refused text cap → ret = -1
  stored : ∀ t, text = some t → t.length < cap → ret ≠ -1 ∧ t ++ [0] <+: mem'

def Meets (text : Option Bytes) (cap : ℕ) (mem : Bytes) (res : Option (ℤ × Bytes)) : Prop :=
  ∃ ret mem', res = some (ret, mem') ∧ Leaves text cap mem ret mem'

/-- A destination that is refused is not touched. -/
def MeetsUntouched (text : Option Bytes) (cap : ℕ) (mem : Bytes) (res : Option (ℤ × Bytes)) :
    Prop :=
  ∃ ret mem', res = some (ret, mem') ∧ Leaves text cap mem ret mem' ∧
    (Refused text cap → mem' = mem)

variable {text : Option Bytes} {t mem mem' : Bytes} {cap : ℕ} {ret : ℤ} {res : Option (ℤ × Bytes)}

theorem MeetsUntouched.meets (h : MeetsUntouched text cap mem res) : Meets text cap mem res := by
  obtain ⟨ret, mem', hres, hleaves, -⟩ := h
  exact ⟨ret, mem', hres, hleaves⟩

theorem refused_none (cap : ℕ) : Refused none cap := by
  intro t ht
  cases ht

theorem refused_some_iff : Refused (some t) cap ↔ cap ≤ t.length := by
  constructor
  · intro h
    exact h t rfl
  · intro h t' ht'
    obtain rfl := Option.some.inj ht'
    exact h

/-- Nothing is done exactly if the text has to be refused. -/
theorem meetsUntouched_refused_iff :
    MeetsUntouched text cap mem (some (-1, mem)) ↔ Refused text cap := by
  constructor
  · rintro ⟨ret, mem', hres, hleaves, -⟩ t ht
    cases hres
    by_contra hlt
    exact (hleaves.stored t ht (not_le.mp hlt)).1 rfl
  · intro h
    refine ⟨-1, mem, rfl, ⟨rfl, rfl, fun _ => rfl, fun t ht hlt => ?_⟩, fun _ => rfl⟩
    exact absurd (h t ht) (not_le.mpr hlt)

theorem meetsUntouched_none (cap : ℕ) (mem : Bytes) :
    MeetsUntouched none cap mem (some (-1, mem)) :=
  meetsUntouched_refused_iff.mpr (refused_none cap)

theorem not_meets_none : ¬ Meets text cap mem none := by
  rintro ⟨ret, mem', hres, -⟩
  cases hres

/-- A text that does not fit must be refused. -/
theorem not_meets_of_refused (h : Refused text cap) (hret : ret ≠ -1) :
    ¬ Meets text cap mem (some (ret, mem')) := by
  rintro ⟨r, m, hres, hleaves⟩
  cases hres
  exact hret (hleaves.refused h)

theorem drop_put {src : Bytes} (h : src.length ≤ cap) :
    (src ++ mem.drop src.length).drop cap = mem.drop cap := by
  rw [List.drop_append, List.drop_eq_nil_of_le h, List.nil_append, List.drop_drop,
    Nat.add_sub_cancel' h]

theorem length_put {src : Bytes} (h : src.length ≤ mem.length) :
    (src ++ mem.drop src.length).length = mem.length := by
  rw [List.length_append, List.length_drop, Nat.add_sub_cancel' h]

theorem stored_eq (t mem : Bytes) :
    t ++ 0 :: mem.drop (t.length + 1) = (t ++ [0]) ++ mem.drop (t ++ [0]).length := by
  simp

theorem leaves_stored (hlt : t.length < cap) (hcap : cap ≤ mem.length) (hret : ret ≠ -1) :
    Leaves (some t) cap mem ret (t ++ 0 :: mem.drop (t.length + 1)) := by
  have hroom : (t ++ [0]).length ≤ cap := by
    rw [List.length_append, List.length_singleton]
    exact hlt
  rw [stored_eq]
  constructor
  · exact length_put (hroom.trans hcap)
  · exact drop_put hroom
  · intro hrefused
    exact absurd (hrefused t rfl) (not_le.mpr hlt)
  · intro t' ht' _
    obtain rfl := Option.some.inj ht'
    exact ⟨hret, List.prefix_append ..⟩

theorem meetsUntouched_stored_iff (hlt : t.length < cap) (hcap : cap ≤ mem.length) :
    MeetsUntouched (some t) cap mem (some (ret, t ++ 0 :: mem.drop (t.length + 1))) ↔ ret ≠ -1 := by
  constructor
  · rintro ⟨r, m, hres, hleaves, -⟩
    cases hres
    exact (hleaves.stored t rfl hlt).1
  · intro hret
    exact ⟨ret, _, rfl, leaves_stored hlt hcap hret, fun h => absurd (h t rfl) (not_le.mpr hlt)⟩

/-- The bytes in front of the capacity may have been changed before. -/
theorem Leaves.of_drop_eq {m : Bytes} (h : Leaves text cap m ret mem')
    (hlen : m.length = mem.length) (hdrop : m.drop cap = mem.drop cap) :
    Leaves text cap mem ret mem' where
  length := h.length.trans hlen
  beyond := h.beyond.trans hdrop
  refused := h.refused
  stored := h.stored

theorem meets_refused_put {src m : Bytes} (h : Refused text cap) (hsrc : src.length ≤ cap)
    (hcap : cap ≤ m.length) (hlen : m.length = mem.length) (hdrop : m.drop cap = mem.drop cap) :
    Meets text cap mem (some (-1, src ++ m.drop src.length)) := by
  refine ⟨-1, _, rfl, ?_⟩
  constructor
  · exact (length_put (hsrc.trans hcap)).trans hlen
  · exact (drop_put hsrc).trans hdrop
  · exact fun _ => rfl
  · exact fun t ht hlt => absurd (h t ht) (not_le.mpr hlt)

/-- The terminator behind the text. -/
theorem store_put (h : t.length < mem.length) :
    store (t ++ mem.drop t.length) t.length 0 = some (t ++ 0 :: mem.drop (t.length + 1)) := by
  rw [List.drop_eq_getElem_cons h]
  exact store_at ..

end Vs17.Capacity
