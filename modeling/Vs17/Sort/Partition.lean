import Mathlib.Data.List.DropRight
import Mathlib.Data.List.Sort
import Mathlib.Data.List.TakeWhile
import Vs17.Library.Loop

/-! # Partition around a moving hole

`sortPartition` keeps the pivot aside and moves two indices towards each other. The place
the pivot was taken from is a hole, which an element found on the wrong side fills and
leaves open where it came from.
-/

namespace Vs17.Sort

variable {α : Type}

theorem getElem?_at (pre : List α) (x : α) (post : List α) :
    (pre ++ x :: post)[pre.length]? = some x := by
  rw [List.getElem?_append_right (le_refl _), Nat.sub_self, List.getElem?_cons_zero]

theorem set_at (pre : List α) (x y : α) (post : List α) :
    (pre ++ x :: post).set pre.length y = pre ++ y :: post := by
  rw [List.set_append_right _ _ (le_refl _), Nat.sub_self, List.set_cons_zero]

variable [LinearOrder α]

/-- The array and the two indices in the outer loop of `sortPartition`. -/
structure Part (α : Type) where
  a : List α
  low : ℕ
  high : ℕ
  deriving DecidableEq, Repr

/-- `while (low < high && a[high] > pivot) high--`. No result is an access outside the array. -/
def moveHigh (a : List α) (pivot : α) (low : ℕ) : ℕ → Option ℕ
  | 0 => some 0
  | high + 1 =>
    if low < high + 1 then do
      let x ← a[high + 1]?
      if x > pivot then moveHigh a pivot low high else some (high + 1)
    else some (high + 1)

/-- `while (low < high && a[low] < pivot) low++` -/
def moveLow (a : List α) (pivot : α) (low high : ℕ) : Option ℕ :=
  if low < high then do
    let x ← a[low]?
    if x < pivot then moveLow a pivot (low + 1) high else some low
  else some low
termination_by high - low

/-- The scan from above, then `if (low < high) a[low] = a[high]`. -/
def fillLow (pivot : α) (s : Part α) : Option (Part α) := do
  let high ← moveHigh s.a pivot s.low s.high
  let a ← if s.low < high then (s.a[high]?).map (s.a.set s.low) else some s.a
  return ⟨a, s.low, high⟩

/-- The scan from below, then `if (low < high) a[high] = a[low]`. -/
def fillHigh (pivot : α) (s : Part α) : Option (Part α) := do
  let low ← moveLow s.a pivot s.low s.high
  let a ← if low < s.high then (s.a[low]?).map (s.a.set s.high) else some s.a
  return ⟨a, low, s.high⟩

def partitionRound (pivot : α) (s : Part α) : Option (Part α) :=
  (fillLow pivot s).bind (fillHigh pivot)

def partitionBody (pivot : α) (s : Part α) : Part α ⊕ Option (List α × ℕ) :=
  if s.low < s.high then
    match partitionRound pivot s with
    | some s' => .inl s'
    | none => .inr none
  else .inr (some (s.a.set s.low pivot, s.low))

/-- `sortPartition`, with fuel for the rounds of its outer loop. -/
def sortPartition (n : ℕ) (a : List α) (low high : ℤ) : Option (List α × ℤ) := do
  let l ← low.toNat?
  let h ← high.toNat?
  let pivot ← a[l]?
  let r ← (Loop.run (partitionBody pivot) n ⟨a, l, h⟩).join
  return (r.1, (r.2 : ℤ))

section Scans

variable {p x : α} {pre M post : List α}

theorem moveHigh_self (a : List α) (p : α) (l : ℕ) : moveHigh a p l l = some l := by
  cases l <;> simp [moveHigh]

theorem moveHigh_eq : moveHigh (pre ++ x :: (M ++ post)) p pre.length (pre.length + M.length) =
    some (pre.length + (M.rdropWhile (p < ·)).length) := by
  induction M using List.reverseRecOn generalizing post with
  | nil => simp [moveHigh_self]
  | append_singleton M y ih =>
    have hget : (pre ++ x :: (M ++ y :: post))[pre.length + M.length + 1]? = some y := by
      simp [Nat.add_assoc]
    rw [List.append_assoc, List.singleton_append, List.length_append, List.length_singleton,
      ← Nat.add_assoc, moveHigh, if_pos (by omega), hget]
    by_cases hy : p < y
    · simpa [hy] using ih
    · simp [hy, Nat.add_assoc]

theorem moveLow_eq : moveLow (pre ++ (M ++ post)) p pre.length (pre.length + M.length) =
    some (pre.length + (M.takeWhile (· < p)).length) := by
  induction M generalizing pre with
  | nil => rw [moveLow]; simp
  | cons y M ih =>
    have hih : moveLow (pre ++ [y] ++ (M ++ post)) p (pre ++ [y]).length
      ((pre ++ [y]).length + M.length) = _ := ih
    have hlen : pre.length + 1 + M.length = pre.length + (M.length + 1) := by omega
    simp only [List.append_assoc, List.singleton_append, List.length_append,
      List.length_singleton, hlen] at hih
    rw [List.cons_append, moveLow, if_pos (by simp), getElem?_at]
    by_cases hy : y < p
    · simp only [Option.bind_eq_bind, Option.bind_some, hy, if_true, List.length_cons, hih,
        List.takeWhile_cons, decide_true]
      congr 1
      omega
    · simp [hy]

theorem fillLow_eq (p x : α) (pre M post : List α) :
    ((∀ t ∈ M, p < t) ∧ fillLow p ⟨pre ++ x :: (M ++ post), pre.length, pre.length + M.length⟩ =
      some ⟨pre ++ x :: (M ++ post), pre.length, pre.length⟩) ∨
    ∃ D y S, M = D ++ y :: S ∧ y ≤ p ∧ (∀ t ∈ S, p < t) ∧
      fillLow p ⟨pre ++ x :: (M ++ post), pre.length, pre.length + M.length⟩ =
        some ⟨pre ++ ((y :: D) ++ y :: (S ++ post)), pre.length,
          pre.length + (y :: D).length⟩ := by
  have hS : ∀ t ∈ M.rtakeWhile (p < ·), p < t := fun t ht => by
    simpa using List.mem_rtakeWhile_imp ht
  have hsplit : M.rdropWhile (p < ·) ++ M.rtakeWhile (p < ·) = M :=
    List.rdropWhile_append_rtakeWhile ..
  have hstop := List.rdropWhile_last_not (p < ·) M
  simp only [fillLow, moveHigh_eq]
  generalize M.rdropWhile (p < ·) = D at hsplit hstop
  generalize M.rtakeWhile (p < ·) = S at hsplit hS
  subst hsplit
  rcases List.eq_nil_or_concat D with rfl | ⟨D, y, rfl⟩
  · exact .inl ⟨hS, by simp⟩
  · refine .inr ⟨D, y, S, by simp, by simpa using hstop, hS, ?_⟩
    have hget := getElem?_at (pre ++ x :: D) y (S ++ post)
    have hset := set_at pre x y (D ++ y :: (S ++ post))
    simp_all

theorem fillHigh_eq (p x : α) (pre M post : List α) :
    ((∀ t ∈ M, t < p) ∧ fillHigh p ⟨pre ++ (M ++ x :: post), pre.length, pre.length + M.length⟩ =
      some ⟨(pre ++ M) ++ x :: post, (pre ++ M).length, (pre ++ M).length⟩) ∨
    ∃ T z D, M = T ++ z :: D ∧ p ≤ z ∧ (∀ t ∈ T, t < p) ∧
      fillHigh p ⟨pre ++ (M ++ x :: post), pre.length, pre.length + M.length⟩ =
        some ⟨(pre ++ T) ++ z :: (D ++ z :: post), (pre ++ T).length,
          (pre ++ T).length + (D ++ [z]).length⟩ := by
  have hT : ∀ t ∈ M.takeWhile (· < p), t < p := fun t ht => by
    simpa using List.mem_takeWhile_imp ht
  have hsplit : M.takeWhile (· < p) ++ M.dropWhile (· < p) = M := List.takeWhile_append_dropWhile
  have hstop := List.head?_dropWhile_not (· < p) M
  simp only [fillHigh, moveLow_eq]
  generalize M.dropWhile (· < p) = D at hsplit hstop
  generalize M.takeWhile (· < p) = T at hsplit hT
  subst hsplit
  rcases D with _ | ⟨z, D⟩
  · left
    simpa using hT
  · refine .inr ⟨T, z, D, rfl, by simpa using hstop, hT, ?_⟩
    have hget := getElem?_at (pre ++ T) z (D ++ x :: post)
    have hset := set_at (pre ++ T ++ z :: D) x z post
    simp_all [Nat.add_assoc]

/-- What a round makes of the hole and of the elements behind it: those passed over are on
their side of the pivot. -/
theorem partitionRound_eq (p x : α) (pre post : List α) (hM : M ≠ []) : ∃ T y N S,
    partitionRound p ⟨pre ++ x :: (M ++ post), pre.length, pre.length + M.length⟩ =
      some ⟨(pre ++ T) ++ y :: (N ++ (S ++ post)), (pre ++ T).length,
        (pre ++ T).length + N.length⟩ ∧
    (∀ t ∈ T, t < p) ∧ (∀ t ∈ S, p < t) ∧ (T ++ N ++ S).Perm M ∧
    (p ∉ M → N.length < M.length) := by
  rw [partitionRound]
  rcases fillLow_eq p x pre M post with ⟨hM', hlow⟩ | ⟨D, y, S, rfl, hy, hS, hlow⟩
  · rw [hlow, Option.bind_some]
    have hhigh := fillHigh_eq p x pre [] (M ++ post)
    refine ⟨[], x, [], M, ?_, by simp, hM', by simp, fun _ => ?_⟩
    · simpa using hhigh
    · simpa [List.length_pos_iff] using hM
  · rw [hlow, Option.bind_some]
    have hperm : (y :: D ++ S).Perm (D ++ y :: S) := List.perm_middle.symm
    rcases fillHigh_eq p y pre (y :: D) (S ++ post) with
      ⟨hT, hhigh⟩ | ⟨T, z, N, hD, hz, hT, hhigh⟩
    · refine ⟨y :: D, y, [], S, hhigh, hT, hS, by simpa using hperm, fun _ => ?_⟩
      rw [List.length_append, List.length_cons, List.length_nil]
      omega
    · refine ⟨T, z, N ++ [z], S, by simpa using hhigh, hT, hS, ?_, fun hp => ?_⟩
      · rw [hD] at hperm
        have hmove : (T ++ (N ++ [z])).Perm (T ++ z :: N) :=
          (List.perm_append_singleton ..).append_left T
        exact (hmove.append_right S).trans hperm
      · have hyp : y < p := lt_of_le_of_ne hy (by rintro rfl; simp at hp)
        have hlen := congrArg List.length hD
        rcases T with _ | ⟨t, T⟩
        · obtain ⟨rfl, rfl⟩ := List.cons.inj hD
          exact absurd hyp (not_lt.mpr hz)
        · simp at hlen ⊢
          omega

end Scans

/-- The array at the top of the outer loop: what has been passed over, the hole, and the
elements `M` between the indices; `rest` is the range without the pivot. -/
structure Layout (p : α) (pre rest post M : List α) (s : Part α) : Prop where
  parts : ∃ L x R, s = ⟨(pre ++ L) ++ x :: (M ++ (R ++ post)), (pre ++ L).length,
      (pre ++ L).length + M.length⟩ ∧
    (∀ t ∈ L, t < p) ∧ (∀ t ∈ R, p < t) ∧ (L ++ M ++ R).Perm rest

section Loops

variable {p : α} {pre rest post M : List α} {s : Part α}

/-- A round keeps the layout. It never passes over an equal of the pivot, and without one
the indices get closer. -/
theorem Layout.round (h : Layout p pre rest post M s) (hM : M ≠ []) :
    ∃ s' N, partitionBody p s = .inl s' ∧ Layout p pre rest post N s' ∧ (p ∈ N ↔ p ∈ M) ∧
      (p ∉ M → N.length < M.length) := by
  obtain ⟨L, x, R, rfl, hL, hR, hperm⟩ := h.parts
  obtain ⟨T, y, N, S, hround, hT, hS, hTNS, hlt⟩ :=
    partitionRound_eq p x (pre ++ L) (R ++ post) hM
  refine ⟨_, N, ?_, ⟨L ++ T, y, S ++ R, rfl, ?_, ?_, ?_⟩, ?_, hlt⟩
  · rw [partitionBody, if_pos (by simpa [List.length_pos_iff] using hM), hround]
    simp
  · simpa [or_imp, forall_and] using ⟨hL, hT⟩
  · simpa [or_imp, forall_and] using ⟨hS, hR⟩
  · have hmid := (hTNS.append_left L).append_right R
    refine .trans ?_ hperm
    simpa using hmid
  · have hpT : p ∉ T := fun hp => lt_irrefl _ (hT p hp)
    have hpS : p ∉ S := fun hp => lt_irrefl _ (hS p hp)
    simp [← hTNS.mem_iff, hpT, hpS]

theorem Layout.done (h : Layout p pre rest post [] s) : ∃ L R,
    partitionBody p s = .inr (some (pre ++ (L ++ p :: R) ++ post, pre.length + L.length)) ∧
      (∀ t ∈ L, t < p) ∧ (∀ t ∈ R, p < t) ∧ (L ++ R).Perm rest := by
  obtain ⟨L, x, R, rfl, hL, hR, hperm⟩ := h.parts
  refine ⟨L, R, ?_, hL, hR, by simpa using hperm⟩
  have hset := set_at (pre ++ L) x p (R ++ post)
  rw [partitionBody, if_neg (by simp)]
  simp_all

theorem Layout.not_ends (h : Layout p pre rest post M s) (hp : p ∈ M)
    {r : Option (List α × ℕ)} : ¬ Loop.Ends (partitionBody p) s r := by
  refine Loop.not_ends_of_trap (fun s => ∃ M, Layout p pre rest post M s ∧ p ∈ M) ?_ ⟨M, h, hp⟩
  rintro s ⟨M, h, hp⟩
  obtain ⟨s', N, hb, hN, hiff, _⟩ := h.round (List.ne_nil_of_mem hp)
  exact ⟨s', hb, N, hN, hiff.mpr hp⟩

theorem Layout.run (h : Layout p pre rest post M s) (hp : p ∉ M) {n : ℕ} (hn : M.length < n) :
    ∃ L R, Loop.run (partitionBody p) n s =
        some (some (pre ++ (L ++ p :: R) ++ post, pre.length + L.length)) ∧
      (∀ t ∈ L, t < p) ∧ (∀ t ∈ R, p < t) ∧ (L ++ R).Perm rest := by
  induction n generalizing M s with
  | zero => omega
  | succ n ih =>
    by_cases hM : M = []
    · subst hM
      obtain ⟨L, R, hb, hspec⟩ := h.done
      exact ⟨L, R, by simp [Loop.run, hb], hspec⟩
    · obtain ⟨s', N, hb, hN, hiff, hlt⟩ := h.round hM
      obtain ⟨L, R, hrun, hspec⟩ := ih hN (mt hiff.mp hp) (by have := hlt hp; omega)
      exact ⟨L, R, by simp [Loop.run, hb, hrun], hspec⟩

theorem Layout.of_ends (h : Layout p pre rest post M s) {r : Option (List α × ℕ)}
    (he : Loop.Ends (partitionBody p) s r) :
    p ∉ M ∧ ∃ L R, r = some (pre ++ (L ++ p :: R) ++ post, pre.length + L.length) ∧
      (∀ t ∈ L, t < p) ∧ (∀ t ∈ R, p < t) ∧ (L ++ R).Perm rest := by
  have hp : p ∉ M := fun hp => h.not_ends hp he
  obtain ⟨L, R, hrun, hspec⟩ := h.run hp (Nat.lt_succ_self _)
  exact ⟨hp, L, R, he.deterministic (Loop.ends_of_run hrun), hspec⟩

end Loops

section Specification

variable {p : α} {pre rest post : List α} {n : ℕ}

theorem sortPartition_eq : sortPartition n (pre ++ (p :: rest) ++ post) pre.length
      (pre.length + rest.length) =
    ((Loop.run (partitionBody p) n ⟨pre ++ p :: (rest ++ post), pre.length,
      pre.length + rest.length⟩).join).map fun r => (r.1, (r.2 : ℤ)) := by
  have hpre : ((pre.length : ℤ)).toNat? = some pre.length := rfl
  have hrest : ((pre.length : ℤ) + rest.length).toNat? = some (pre.length + rest.length) := rfl
  have harr : pre ++ (p :: rest) ++ post = pre ++ p :: (rest ++ post) := by simp
  simp only [sortPartition, hpre, hrest, harr, Option.bind_eq_bind, Option.bind_some, getElem?_at,
    Option.map_eq_bind]
  rfl

theorem layout_start : Layout p pre rest post rest
    ⟨pre ++ p :: (rest ++ post), pre.length, pre.length + rest.length⟩ :=
  ⟨[], p, [], by simp⟩

theorem sortPartition_returns (pre post : List α) (hp : p ∉ rest) (hn : rest.length < n) : ∃ r,
    sortPartition n (pre ++ (p :: rest) ++ post) pre.length (pre.length + rest.length) =
      some r := by
  have hstart : Layout p pre rest post rest _ := layout_start
  obtain ⟨L, R, hrun, _⟩ := hstart.run hp hn
  exact ⟨_, by rw [sortPartition_eq, hrun]; rfl⟩

theorem sortPartition_splits {r : List α × ℤ} (h : sortPartition n
      (pre ++ (p :: rest) ++ post) pre.length (pre.length + rest.length) = some r) :
    p ∉ rest ∧ ∃ L R, r = (pre ++ (L ++ p :: R) ++ post, (pre.length + L.length : ℤ)) ∧
      (∀ t ∈ L, t < p) ∧ (∀ t ∈ R, p < t) ∧ (L ++ R).Perm rest := by
  have hstart : Layout p pre rest post rest _ := layout_start
  rw [sortPartition_eq] at h
  obtain ⟨r, hr, rfl⟩ := Option.map_eq_some_iff.mp h
  obtain ⟨hp, L, R, hLR, hspec⟩ := hstart.of_ends (Loop.ends_of_join hr)
  obtain rfl := Option.some.inj hLR
  exact ⟨hp, L, R, by simp, hspec⟩

end Specification

end Vs17.Sort
