import Mathlib.Data.List.TakeWhile

/-! # Items of several classes in one list

What happens to the items of one class, in their order, when the first item that meets a condition
is taken out of the list.
-/

namespace Vs17.Demux

variable {α : Type*} {p q : α → Bool} {a b : α} {l m : List α}

/-- The item that is found is taken from its own class, where it is the first to meet the
condition, and from no other. -/
theorem filter_eraseP (h : l.find? q = some a) :
    (p a = true → (l.filter p).find? q = some a ∧ (l.eraseP q).filter p = (l.filter p).eraseP q) ∧
      (p a = false → (l.eraseP q).filter p = l.filter p) := by
  induction l with
  | nil => cases h
  | cons b l ih =>
    by_cases hq : q b
    · rw [List.find?_cons_of_pos hq] at h
      obtain rfl := Option.some.inj h
      rw [List.eraseP_cons_of_pos hq]
      constructor
      · intro hp
        rw [List.filter_cons_of_pos hp, List.find?_cons_of_pos hq, List.eraseP_cons_of_pos hq]
        exact ⟨rfl, rfl⟩
      · intro hp
        rw [List.filter_cons_of_neg (by simp [hp])]
    · rw [List.find?_cons_of_neg hq] at h
      obtain ⟨hpos, hneg⟩ := ih h
      rw [List.eraseP_cons_of_neg hq, List.filter_cons, List.filter_cons]
      split_ifs
      · rw [List.find?_cons_of_neg hq, List.eraseP_cons_of_neg hq]
        exact ⟨fun hp => ⟨(hpos hp).1, congrArg _ (hpos hp).2⟩, fun hp => congrArg _ (hneg hp)⟩
      · exact ⟨hpos, hneg⟩

/-- The first item of its class meets the condition: if the item that is found is of that class,
then it is this one. -/
theorem filter_eraseP_head (h : l.find? q = some a) (hp : p a = true) (hm : l.filter p = b :: m)
    (hq : q b = true) : a = b ∧ (l.eraseP q).filter p = m := by
  obtain ⟨hfind, herase⟩ := (filter_eraseP h).1 hp
  rw [hm, List.find?_cons_of_pos hq] at hfind
  rw [herase, hm, List.eraseP_cons_of_pos hq]
  exact ⟨(Option.some.inj hfind).symm, rfl⟩

/-- The first item of a class, and the rest of it. -/
theorem find?_eq_some_iff_filter : l.find? p = some a ↔ ∃ m, l.filter p = a :: m := by
  rw [← List.head?_filter, List.head?_eq_some_iff]

theorem filter_eraseP_self : (l.eraseP p).filter p = (l.filter p).tail := by
  induction l with
  | nil => rfl
  | cons a l ih =>
    by_cases hp : p a
    · rw [List.eraseP_cons_of_pos hp, List.filter_cons_of_pos hp, List.tail_cons]
    · rw [List.eraseP_cons_of_neg hp, List.filter_cons_of_neg hp, List.filter_cons_of_neg hp, ih]

theorem dropWhile_filter (h : ∀ x, q x → p x) :
    (l.filter p).dropWhile (fun x => !q x) = (l.dropWhile fun x => !q x).filter p := by
  induction l with
  | nil => rfl
  | cons a l ih =>
    by_cases hq : q a
    · rw [List.filter_cons_of_pos (h a hq), List.dropWhile_cons_of_neg (by simp [hq]),
        List.dropWhile_cons_of_neg (by simp [hq]), List.filter_cons_of_pos (h a hq)]
    · rw [List.dropWhile_cons_of_pos (by simp [hq]), ← ih, List.filter_cons]
      split_ifs
      · rw [List.dropWhile_cons_of_pos (by simp [hq])]
      · rfl

/-- What is left from the first item with the property on. -/
theorem exists_of_dropWhile_not (h : l.dropWhile (fun x => !p x) = a :: m) :
    p a = true ∧ ∃ l₁, l = l₁ ++ a :: m ∧ ∀ x ∈ l₁, p x = false := by
  have hne : l.dropWhile (fun x => !p x) ≠ [] := by simp [h]
  refine ⟨by simpa [h] using List.head_dropWhile_not (fun x => !p x) hne,
    l.takeWhile (fun x => !p x), ?_, fun x hx => by simpa using List.mem_takeWhile_imp hx⟩
  rw [← h, List.takeWhile_append_dropWhile]

end Vs17.Demux
