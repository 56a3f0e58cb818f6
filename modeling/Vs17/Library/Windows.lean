import Mathlib.Data.List.Nodup
import Mathlib.Data.Nat.Basic
import Mathlib.Order.Lattice

/-! # Stretches without repetition

A window that grows to the right, and is cut behind the earlier of two equal elements, passes
by the longest stretch of a list whose elements are pairwise distinct.
-/

namespace Vs17.Windows

variable {α : Type*}

/-- These elements stand in the list from this place on, and no two are equal. -/
structure Stretch (s : List α) (p : ℕ) (u : List α) : Prop where
  nodup : u.Nodup
  split : ∃ x y, s = x ++ u ++ y ∧ x.length = p

/-- No stretch is longer, and the others of the same length do not start before it. -/
def Best (s u : List α) : Prop :=
  ∃ p, Stretch s p u ∧ ∀ q v, Stretch s q v → v.length ≤ u.length ∧ (v.length = u.length → p ≤ q)

/-- The best of the stretches that start in front of a place, or the empty stretch. -/
structure BestBefore (s : List α) (b p : ℕ) (u : List α) : Prop where
  stretch : Stretch s p u
  le : p ≤ b
  best : ∀ q v, q < b → Stretch s q v → v.length ≤ u.length ∧ (v.length = u.length → p ≤ q)

variable {s u v w : List α} {b p q i k : ℕ} {c : α}

theorem Stretch.getElem? (h : Stretch s p u) (hk : k < u.length) : s[p + k]? = u[k]? := by
  obtain ⟨x, y, rfl, rfl⟩ := h.split
  rw [List.append_assoc, List.getElem?_append_right (Nat.le_add_right _ _), Nat.add_sub_cancel_left,
    List.getElem?_append_left hk]

theorem Stretch.add_length_le (h : Stretch s p u) : p + u.length ≤ s.length := by
  obtain ⟨x, y, rfl, rfl⟩ := h.split
  simp only [List.length_append]
  omega

theorem stretch_nil (h : p ≤ s.length) : Stretch s p [] where
  nodup := List.nodup_nil
  split := ⟨s.take p, s.drop p, by simp, List.length_take_of_le h⟩

/-- A stretch does not reach from one of two equal elements to the other one. -/
theorem Stretch.le_of_repeated (h : Stretch s q v) (hp : s[p]? = some c) (hi : s[i]? = some c)
    (hlt : p < i) (hq : q ≤ p) : q + v.length ≤ i := by
  by_contra hlong
  obtain ⟨j, rfl⟩ := Nat.exists_eq_add_of_le hq
  obtain ⟨k, rfl⟩ := Nat.exists_eq_add_of_le (hq.trans hlt.le)
  rw [h.getElem? (by omega)] at hp
  rw [h.getElem? (by omega)] at hi
  obtain ⟨hj, hjc⟩ := List.getElem?_eq_some_iff.mp hp
  obtain ⟨hk, hkc⟩ := List.getElem?_eq_some_iff.mp hi
  have heq := (List.Nodup.getElem_inj_iff h.nodup).mp (hjc.trans hkc.symm)
  omega

/-- The window grows by an element that is not in it. -/
theorem Stretch.concat (h : Stretch s b w) (hc : s[b + w.length]? = some c) (hnot : c ∉ w) :
    Stretch s b (w ++ [c]) where
  nodup := by
    rw [← List.concat_eq_append]
    exact h.nodup.concat hnot
  split := by
    obtain ⟨x, y, rfl, rfl⟩ := h.split
    rw [← List.length_append, List.getElem?_append_right le_rfl, Nat.sub_self] at hc
    obtain ⟨y, rfl⟩ : ∃ t, y = c :: t := by
      cases y with
      | nil => simp at hc
      | cons d t => exact ⟨t, by simpa using hc⟩
    exact ⟨x, y, by simp, rfl⟩

/-- The window is cut at its front. -/
theorem Stretch.drop (h : Stretch s b w) (hk : k ≤ w.length) : Stretch s (b + k) (w.drop k) where
  nodup := h.nodup.sublist (List.drop_sublist k w)
  split := by
    obtain ⟨x, y, rfl, rfl⟩ := h.split
    refine ⟨x ++ w.take k, y, ?_, ?_⟩
    · rw [List.append_assoc x (w.take k), List.take_append_drop]
    · rw [List.length_append, List.length_take_of_le hk]

theorem bestBefore_zero (s : List α) : BestBefore s 0 0 [] where
  stretch := stretch_nil (Nat.zero_le _)
  le := le_rfl
  best q _ hq := absurd hq (Nat.not_lt_zero q)

/-- A window that reaches up to the later of two equal elements is compared with the best stretch,
and is then cut behind the earlier one. -/
theorem BestBefore.advance_longer (h : BestBefore s b p u) (hw : Stretch s b w)
    (hi : s[b + w.length]? = some c) (hq : s[q]? = some c) (hbq : b ≤ q)
    (hlt : q < b + w.length) (hlonger : u.length < w.length) : BestBefore s (q + 1) b w where
  stretch := hw
  le := by omega
  best r v hr hv := by
    rcases lt_or_ge r b with hrb | hrb
    · have hbest := h.best r v hrb hv
      omega
    · have hle := hv.le_of_repeated hq hi hlt (by omega)
      omega

theorem BestBefore.advance_keep (h : BestBefore s b p u) (hi : s[b + w.length]? = some c)
    (hq : s[q]? = some c) (hlt : q < b + w.length) (hbq : b ≤ q) (hle : w.length ≤ u.length) :
    BestBefore s (q + 1) p u where
  stretch := h.stretch
  le := h.le.trans (by omega)
  best r v hr hv := by
    rcases lt_or_ge r b with hrb | hrb
    · exact h.best r v hrb hv
    · have hpb := h.le
      have hend := hv.le_of_repeated hq hi hlt (by omega)
      omega

/-- The window that is open at the end of the list is compared with the best stretch too. -/
theorem BestBefore.finish_longer (h : BestBefore s b p u) (hw : Stretch s b w)
    (hend : b + w.length = s.length) (hlonger : u.length < w.length) : Best s w := by
  refine ⟨b, hw, fun q v hv => ?_⟩
  rcases lt_or_ge q b with hqb | hqb
  · have hbest := h.best q v hqb hv
    omega
  · have hle := hv.add_length_le
    omega

theorem BestBefore.finish_keep (h : BestBefore s b p u) (hend : b + w.length = s.length)
    (hle : w.length ≤ u.length) : Best s u := by
  refine ⟨p, h.stretch, fun q v hv => ?_⟩
  rcases lt_or_ge q b with hqb | hqb
  · exact h.best q v hqb hv
  · have hpb := h.le
    have hend' := hv.add_length_le
    omega

end Vs17.Windows
