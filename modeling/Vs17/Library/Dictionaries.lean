import Vs17.Library.Multimap

/-! # Maps with one entry for a key

Entries are in the order of their keys. An entry whose key is there already is not inserted.
-/

namespace Vs17.Dictionaries

variable {κ α : Type*} [LinearOrder κ]

def HasKey (m : List (κ × α)) (k : κ) : Prop := ∃ e ∈ m, e.1 = k

instance (m : List (κ × α)) (k : κ) : Decidable (HasKey m k) :=
  inferInstanceAs (Decidable (∃ e ∈ m, e.1 = k))

def insertNew (m : List (κ × α)) (e : κ × α) : List (κ × α) :=
  if HasKey m e.1 then m else Multimap.insert m e.1 e.2

def ofEntries (es : List (κ × α)) : List (κ × α) := es.foldl insertNew []

def Strict (m : List (κ × α)) : Prop := m.Pairwise (·.1 < ·.1)

variable {m es : List (κ × α)} {e x : κ × α} {k : κ}

theorem Strict.sorted (h : Strict m) : Multimap.Sorted m := h.imp le_of_lt

theorem strict_insertNew (h : Strict m) : Strict (insertNew m e) := by
  unfold insertNew
  split_ifs with hk
  · exact h
  · have hbefore : ∀ x ∈ m.takeWhile (·.1 ≤ e.1), x.1 < e.1 := by
      intro x hx
      apply lt_of_le_of_ne (Multimap.le_of_mem_takeWhile hx)
      rintro hxe
      exact hk ⟨x, List.takeWhile_subset _ hx, hxe⟩
    unfold Strict Multimap.insert
    rw [List.pairwise_append, List.pairwise_cons]
    refine ⟨h.sublist (List.takeWhile_sublist _), ⟨?_, h.sublist (List.dropWhile_sublist _)⟩, ?_⟩
    · exact fun x hx => Multimap.lt_of_mem_dropWhile h.sorted hx
    · intro x hx y hy
      rcases List.mem_cons.mp hy with rfl | hy
      · exact hbefore x hx
      · exact (hbefore x hx).trans (Multimap.lt_of_mem_dropWhile h.sorted hy)

theorem mem_insertNew : x ∈ insertNew m e → x ∈ m ∨ x = e := by
  unfold insertNew Multimap.insert
  split_ifs with hk
  · exact Or.inl
  · intro hx
    rcases List.mem_append.mp hx with hx | hx
    · exact .inl (List.takeWhile_subset _ hx)
    · rcases List.mem_cons.mp hx with rfl | hx
      · exact .inr rfl
      · exact .inl (List.dropWhile_subset _ hx)

/-- A key that is greater than all the others is inserted at the end. -/
theorem insertNew_of_lt (h : ∀ x ∈ m, x.1 < e.1) : insertNew m e = m ++ [e] := by
  have hk : ¬ HasKey m e.1 := by
    rintro ⟨x, hx, hxe⟩
    exact (h x hx).ne hxe
  have hall : ∀ x ∈ m, decide (x.1 ≤ e.1) = true := fun x hx => decide_eq_true (h x hx).le
  unfold insertNew Multimap.insert
  rw [if_neg hk, List.takeWhile_eq_self_iff.mpr hall, List.dropWhile_eq_nil_iff.mpr hall]

theorem foldl_insertNew (h : Strict (m ++ es)) : es.foldl insertNew m = m ++ es := by
  induction es generalizing m with
  | nil => simp
  | cons e es ih =>
    have hlt : ∀ x ∈ m, x.1 < e.1 := by
      intro x hx
      exact (List.pairwise_append.mp h).2.2 x hx e (List.mem_cons_self ..)
    rw [List.foldl_cons, insertNew_of_lt hlt, ih (by simpa using h), List.append_assoc]
    rfl

/-- The entries of a map make up this map. -/
theorem ofEntries_of_strict (h : Strict m) : ofEntries m = m := foldl_insertNew h

theorem strict_ofEntries : Strict (ofEntries es) := by
  have hfold : ∀ m : List (κ × α), Strict m → Strict (es.foldl insertNew m) := by
    induction es with
    | nil => exact fun m h => h
    | cons e es ih => exact fun m h => ih _ (strict_insertNew h)
  exact hfold [] List.Pairwise.nil

theorem mem_ofEntries (hx : x ∈ ofEntries es) : x ∈ es := by
  have hfold : ∀ m : List (κ × α), x ∈ es.foldl insertNew m → x ∈ m ∨ x ∈ es := by
    clear hx
    induction es with
    | nil => exact fun m h => .inl h
    | cons e es ih =>
      intro m h
      rcases ih _ h with h | h
      · rcases mem_insertNew h with h | rfl
        · exact .inl h
        · exact .inr (List.mem_cons_self ..)
      · exact .inr (List.mem_cons_of_mem _ h)
  exact (hfold [] hx).resolve_left List.not_mem_nil

/-- Of the entries with a key, the first one gets into the map. -/
theorem find?_insertNew (h : Strict m) : (insertNew m e).find? (·.1 = k) =
    (m.find? (·.1 = k)).or ([e].find? (·.1 = k)) := by
  unfold insertNew
  split_ifs with hk
  · by_cases hek : e.1 = k
    · obtain ⟨x, hx, hxe⟩ := hk
      have hsome : (m.find? (·.1 = k)).isSome := by
        rw [List.find?_isSome]
        exact ⟨x, hx, by simp [hxe, hek]⟩
      rw [Option.or_of_isSome hsome]
    · rw [List.find?_cons_of_neg (by simpa using hek), List.find?_nil, Option.or_none]
  · have hfilter := Multimap.filter_insert (k := e.1) (j := k) (v := e.2) h.sorted
    rw [← List.head?_filter, hfilter, List.head?_append, List.head?_filter]
    congr 1
    by_cases hek : e.1 = k
    · rw [if_pos hek, List.find?_cons_of_pos (by simpa using hek)]
      rfl
    · rw [if_neg hek, List.find?_cons_of_neg (by simpa using hek)]
      rfl

theorem find?_ofEntries : (ofEntries es).find? (·.1 = k) = es.find? (·.1 = k) := by
  have hfold : ∀ m : List (κ × α), Strict m → (es.foldl insertNew m).find? (·.1 = k) =
      (m.find? (·.1 = k)).or (es.find? (·.1 = k)) := by
    induction es with
    | nil => simp
    | cons e es ih =>
      intro m hm
      rw [List.foldl_cons, ih _ (strict_insertNew hm), find?_insertNew hm, Option.or_assoc]
      rw [← List.find?_append]
      rfl
  rw [ofEntries, hfold [] List.Pairwise.nil]
  rfl

end Vs17.Dictionaries
