import Mathlib.Data.List.Nodup
import Mathlib.Data.List.Sort
import Vs17.Library.Ints
import Vs17.Sort.Partition

/-! # Quicksort by recursion and by a stack of bounds

Both versions of `QuickSort` rest on `sortPartition`. What they do with a range is stated
on the parts of the array: the elements before it, in it and behind it. The bounds are `int`,
and the one behind a pivot at the largest `int` overflows.
-/

namespace Vs17.Sort

open Ints

variable {α : Type}

def slice (a : List α) (low high : ℤ) : List α := (a.take (high + 1).toNat).drop low.toNat

theorem pairwise_of_length_le_one {r : α → α → Prop} {l : List α} (h : l.length ≤ 1) :
    l.Pairwise r := by
  match l, h with
  | [], _ => exact .nil
  | [x], _ => exact List.pairwise_singleton _ _

theorem right_range {L R L' rest : List α} (pre post : List α) (p : α) (hL' : L'.length = L.length)
    (hlen : L.length + R.length = rest.length) :
    (pre ++ L' ++ (p :: R ++ post) = (pre ++ L' ++ [p]) ++ R ++ post) ∧
    (pre.length + L.length + 1 : ℤ) = (pre ++ L' ++ [p]).length ∧
    (pre.length + rest.length : ℤ) = (pre ++ L' ++ [p]).length + R.length - 1 := by
  refine ⟨by simp, ?_, ?_⟩
  all_goals
    simp only [List.length_append, List.length_singleton]
    omega

section Code

variable [LinearOrder α]

/-- `quickSort`, with fuel for the depth of the recursion and for the loops below it. A bound
that overflows gives no result. -/
def quickSort : ℕ → List α → ℤ → ℤ → Option (List α)
  | 0, _, _, _ => none
  | n + 1, a, low, high =>
    if low < high then do
      let r ← sortPartition n a low high
      let a ← quickSort n r.1 low (← checked (r.2 - 1))
      quickSort n a (← checked (r.2 + 1)) high
    else some a

/-- `values.push(low); values.push(high)` for a range of more than one element. The top of
the stack comes first. -/
def pushRange (low high : ℤ) (values : List ℤ) : List ℤ :=
  if low < high then high :: low :: values else values

/-- The partition of `left..right`, then the parts on its two sides pushed. -/
def stackRound (n : ℕ) (a : List α) (left right : ℤ) (values : List ℤ) :
    Option (List α × List ℤ) := do
  let r ← sortPartition n a left right
  let below ← checked (r.2 - 1)
  let above ← checked (r.2 + 1)
  return (r.1, pushRange above right (pushRange left below values))

/-- One round of `while (!values.empty())`. A stack of one bound, a partition that gives no
result or a bound that overflows ends it without one. -/
def stackBody (n : ℕ) (s : List α × List ℤ) : (List α × List ℤ) ⊕ Option (List α) :=
  match s.2 with
  | [] => .inr (some s.1)
  | [_] => .inr none
  | right :: left :: values =>
    match stackRound n s.1 left right values with
    | none => .inr none
    | some s' => .inl s'

/-- `nonRecursion_quickSort`, with fuel for its loop and for the partitions. -/
def nonRecursionQuickSort (n : ℕ) (a : List α) (low high : ℤ) : Option (List α) :=
  if low < high then (Loop.run (stackBody n) n (a, pushRange low high [])).join else some a

/-- The range is sorted in ascending order, holds what it held, and nothing else has
changed. -/
structure SortsRange (a : List α) (low high : ℤ) (a' : List α) : Prop where
  length_eq : a'.length = a.length
  outside : ∀ i : ℕ, i < low ∨ high < i → a'[i]? = a[i]?
  perm : (slice a' low high).Perm (slice a low high)
  sorted : (slice a' low high).Pairwise (· ≤ ·)

end Code

section Segments

variable [LinearOrder α] {pre mid rest post L R : List α} {p : α} {n : ℕ}

theorem sorted_join {L' R' : List α} (hL : ∀ t ∈ L, t < p) (hR : ∀ t ∈ R, p < t)
    (hLR : (L ++ R).Perm rest) (hL' : L'.Perm L) (hR' : R'.Perm R)
    (hsL : L'.Pairwise (· ≤ ·)) (hsR : R'.Pairwise (· ≤ ·)) :
    (L' ++ p :: R').Perm (p :: rest) ∧ (L' ++ p :: R').Pairwise (· ≤ ·) := by
  constructor
  · exact List.perm_middle.trans (((hL'.append hR').trans hLR).cons p)
  · have hlow : ∀ t ∈ L', t < p := fun t ht => hL t (hL'.mem_iff.mp ht)
    have hhigh : ∀ t ∈ R', p < t := fun t ht => hR t (hR'.mem_iff.mp ht)
    rw [List.pairwise_append, List.pairwise_cons]
    refine ⟨hsL, ⟨fun t ht => (hhigh t ht).le, hsR⟩, fun x hx y hy => ?_⟩
    rcases List.mem_cons.mp hy with rfl | hy
    · exact (hlow x hx).le
    · exact ((hlow x hx).trans (hhigh y hy)).le

theorem nodup_split (hL : ∀ t ∈ L, t < p) (hR : ∀ t ∈ R, p < t) (hLR : (L ++ R).Perm rest) :
    (p :: rest).Nodup ↔ p ∉ rest ∧ L.Nodup ∧ R.Nodup := by
  rw [List.nodup_cons, ← hLR.nodup_iff, List.nodup_append']
  refine and_congr_right fun _ => ⟨fun h => ⟨h.1, h.2.1⟩, fun h => ⟨h.1, h.2, fun t htL htR => ?_⟩⟩
  exact lt_asymm (hL t htL) (hR t htR)

theorem quickSort_of_length_le_one (h : mid.length ≤ 1) :
    quickSort (n + 1) (pre ++ mid ++ post) pre.length (pre.length + mid.length - 1) =
      some (pre ++ mid ++ post) := by
  rw [quickSort, if_neg (by omega)]

theorem bounds_checked (l : ℕ) {m k : ℕ} (hm : m ≤ k) (hint : l + (k + 1) < 2 ^ 31) :
    checked ((l + m : ℤ) - 1) = some ((l + m : ℤ) - 1) ∧
      checked ((l + m : ℤ) + 1) = some ((l + m : ℤ) + 1) :=
  ⟨checked_eq (by omega) (by omega), checked_eq (by omega) (by omega)⟩

theorem quickSort_of_ne_nil (h : rest ≠ []) :
    quickSort (n + 1) (pre ++ (p :: rest) ++ post) pre.length
        (pre.length + (p :: rest).length - 1) =
      (sortPartition n (pre ++ (p :: rest) ++ post) pre.length (pre.length + rest.length)).bind
        fun r => (checked (r.2 - 1)).bind
          fun below => (quickSort n r.1 pre.length below).bind
            fun a => (checked (r.2 + 1)).bind
              fun above => quickSort n a above (pre.length + rest.length) := by
  have hpos := List.length_pos_iff.mpr h
  have hhigh : (pre.length : ℤ) + (p :: rest).length - 1 = pre.length + rest.length := by
    rw [List.length_cons]
    omega
  rw [hhigh, quickSort, if_pos (by omega)]
  rfl

theorem quickSort_sorts {a' : List α}
    (h : quickSort n (pre ++ mid ++ post) pre.length (pre.length + mid.length - 1) = some a') :
    mid.Nodup ∧ ∃ mid', a' = pre ++ mid' ++ post ∧ mid'.Perm mid ∧ mid'.Pairwise (· ≤ ·) := by
  induction n generalizing pre mid post a' with
  | zero => simp [quickSort] at h
  | succ n ih =>
    rcases mid with _ | ⟨p, rest⟩
    · rw [quickSort_of_length_le_one (by simp)] at h
      exact ⟨List.nodup_nil, [], by simpa using h.symm, .nil, .nil⟩
    by_cases hrest : rest = []
    · subst hrest
      rw [quickSort_of_length_le_one (by simp)] at h
      exact ⟨List.nodup_singleton p, [p], by simpa using h.symm, .refl _, by simp⟩
    · rw [quickSort_of_ne_nil hrest] at h
      obtain ⟨r, hr, h⟩ := Option.bind_eq_some_iff.mp h
      obtain ⟨below, hbelow, h⟩ := Option.bind_eq_some_iff.mp h
      obtain ⟨a, hleft, h⟩ := Option.bind_eq_some_iff.mp h
      obtain ⟨above, habove, hright⟩ := Option.bind_eq_some_iff.mp h
      obtain ⟨hp, L, R, rfl, hL, hR, hLR⟩ := sortPartition_splits hr
      obtain ⟨rfl, _⟩ := of_checked hbelow
      obtain ⟨rfl, _⟩ := of_checked habove
      have hlen : L.length + R.length = rest.length := by simpa using hLR.length_eq
      have harr : pre ++ (L ++ p :: R) ++ post = pre ++ L ++ (p :: R ++ post) := by simp
      rw [harr] at hleft
      obtain ⟨hnL, L', rfl, hL', hsL⟩ := ih hleft
      obtain ⟨hsplit, hlow, hhigh⟩ := right_range pre post p hL'.length_eq hlen
      rw [hsplit, hlow, hhigh] at hright
      obtain ⟨hnR, R', rfl, hR', hsR⟩ := ih hright
      obtain ⟨hperm, hsorted⟩ := sorted_join hL hR hLR hL' hR' hsL hsR
      exact ⟨(nodup_split hL hR hLR).mpr ⟨hp, hnL, hnR⟩, L' ++ p :: R', by simp, hperm, hsorted⟩

theorem quickSort_returns (pre post : List α) (hmid : mid.Nodup)
    (hint : pre.length + mid.length < 2 ^ 31) (hn : mid.length < n) : ∃ a',
    quickSort n (pre ++ mid ++ post) pre.length (pre.length + mid.length - 1) = some a' := by
  induction n generalizing pre mid post with
  | zero => omega
  | succ n ih =>
    rcases mid with _ | ⟨p, rest⟩
    · exact ⟨_, quickSort_of_length_le_one (by simp)⟩
    by_cases hrest : rest = []
    · subst hrest
      exact ⟨_, quickSort_of_length_le_one (by simp)⟩
    · have hpos := List.length_pos_iff.mpr hrest
      rw [List.length_cons] at hn hint
      obtain ⟨r, hr⟩ := sortPartition_returns pre post (List.nodup_cons.mp hmid).1
        (Nat.lt_of_succ_lt_succ hn)
      obtain ⟨hp, L, R, rfl, hL, hR, hLR⟩ := sortPartition_splits hr
      obtain ⟨_, hnL, hnR⟩ := (nodup_split hL hR hLR).mp hmid
      have hlen : L.length + R.length = rest.length := by simpa using hLR.length_eq
      have harr : pre ++ (L ++ p :: R) ++ post = pre ++ L ++ (p :: R ++ post) := by simp
      obtain ⟨hbelow, habove⟩ := bounds_checked pre.length (by omega : L.length ≤ rest.length)
        (by omega)
      obtain ⟨a, hleft⟩ := ih pre (p :: R ++ post) hnL (by omega) (by omega)
      obtain ⟨_, L', rfl, hL', _⟩ := quickSort_sorts hleft
      obtain ⟨hsplit, hlow, hhigh⟩ := right_range pre post p hL'.length_eq hlen
      obtain ⟨a, hright⟩ := ih (pre ++ L' ++ [p]) post hnR (by simp [hL'.length_eq]; omega)
        (by omega)
      refine ⟨a, ?_⟩
      rw [quickSort_of_ne_nil hrest, hr, Option.bind_some, harr, hbelow, Option.bind_some, hleft,
        Option.bind_some, habove, Option.bind_some, hsplit, hlow, hhigh, hright]

/-- A pending range on top of the stack is sorted and taken off in at most as many rounds as
it has elements. -/
theorem stackBody_range (pre post : List α) (hmid : mid.Nodup)
    (hint : pre.length + mid.length < 2 ^ 31) (hn : mid.length ≤ n) :
    ∃ mid' c, mid'.Perm mid ∧ mid'.Pairwise (· ≤ ·) ∧ c ≤ mid.length ∧ ∀ k values,
      Loop.run (stackBody n) (k + c)
          (pre ++ mid ++ post, pushRange pre.length (pre.length + mid.length - 1) values) =
        Loop.run (stackBody n) k (pre ++ mid' ++ post, values) := by
  induction hm : mid.length using Nat.strongRecOn generalizing pre mid post with
  | ind m ih =>
    subst hm
    by_cases hmid1 : mid.length ≤ 1
    · refine ⟨mid, 0, .refl _, pairwise_of_length_le_one hmid1, by omega, fun k values => ?_⟩
      rw [pushRange, if_neg (by omega), Nat.add_zero]
    · obtain ⟨p, rest, rfl⟩ := List.exists_cons_of_length_pos (by omega : 0 < mid.length)
      rw [List.length_cons] at hn hmid1 hint
      obtain ⟨r, hr⟩ := sortPartition_returns pre post (List.nodup_cons.mp hmid).1
        (Nat.lt_of_succ_le hn)
      obtain ⟨hp, L, R, rfl, hL, hR, hLR⟩ := sortPartition_splits hr
      obtain ⟨_, hnL, hnR⟩ := (nodup_split hL hR hLR).mp hmid
      have hlen : L.length + R.length = rest.length := by simpa using hLR.length_eq
      obtain ⟨hbelow, habove⟩ := bounds_checked pre.length (by omega : L.length ≤ rest.length)
        (by omega)
      obtain ⟨hsplit, hlow, hhigh⟩ := right_range pre post p (rfl : L.length = L.length) hlen
      -- the part behind the pivot was pushed last and is sorted first
      obtain ⟨R', cR, hR', hsR, hcR, hrunR⟩ :=
        ih R.length (by simp; omega) (pre ++ L ++ [p]) post hnR (by simp; omega) (by omega) rfl
      obtain ⟨L', cL, hL', hsL, hcL, hrunL⟩ :=
        ih L.length (by simp; omega) pre (p :: R' ++ post) hnL (by omega) (by omega) rfl
      obtain ⟨hperm, hsorted⟩ := sorted_join hL hR hLR hL' hR' hsL hsR
      refine ⟨L' ++ p :: R', cL + cR + 1, hperm, hsorted, by simp; omega, fun k values => ?_⟩
      have harr : pre ++ L ++ [p] ++ R' ++ post = pre ++ L ++ (p :: R' ++ post) := by simp
      have harr' : pre ++ (L ++ p :: R) ++ post = pre ++ L ++ (p :: R ++ post) := by simp
      have htop : (pre.length : ℤ) + (p :: rest).length - 1 = pre.length + rest.length := by
        rw [List.length_cons]
        omega
      calc Loop.run (stackBody n) (k + (cL + cR + 1)) (pre ++ (p :: rest) ++ post,
            pushRange pre.length (pre.length + (p :: rest).length - 1) values)
          = Loop.run (stackBody n) (k + cL + cR) (pre ++ (L ++ p :: R) ++ post,
              pushRange (pre.length + L.length + 1) (pre.length + rest.length)
                (pushRange pre.length (pre.length + L.length - 1) values)) := by
            rw [htop, pushRange, if_pos (by omega),
              show k + (cL + cR + 1) = k + cL + cR + 1 by omega, Loop.run]
            simp only [stackBody, stackRound, hr, hbelow, habove, Option.bind_eq_bind,
              Option.bind_some, Option.pure_def]
        _ = Loop.run (stackBody n) (k + cL) (pre ++ L ++ (p :: R' ++ post),
              pushRange pre.length (pre.length + L.length - 1) values) := by
            rw [harr', hsplit, hlow, hhigh, hrunR, harr]
        _ = Loop.run (stackBody n) k (pre ++ (L' ++ p :: R') ++ post, values) := by
            rw [hrunL]
            simp

theorem nonRecursionQuickSort_sorts (pre post : List α) (hmid : mid.Nodup)
    (hint : pre.length + mid.length < 2 ^ 31) (hn : mid.length < n) :
    ∃ mid', mid'.Perm mid ∧ mid'.Pairwise (· ≤ ·) ∧
      nonRecursionQuickSort n (pre ++ mid ++ post) pre.length (pre.length + mid.length - 1) =
        some (pre ++ mid' ++ post) := by
  obtain ⟨mid', c, hperm, hsorted, hc, hrun⟩ := stackBody_range pre post hmid hint hn.le
  refine ⟨mid', hperm, hsorted, ?_⟩
  rw [nonRecursionQuickSort]
  split
  · obtain ⟨k, rfl⟩ : ∃ k, n = k + 1 + c := ⟨n - c - 1, by omega⟩
    rw [hrun, Loop.run]
    rfl
  · rw [hperm.eq_of_pairwise' hsorted (pairwise_of_length_le_one (by omega))]

/-- Enough fuel gives both versions the same result: the sorted range is unique. -/
theorem both_sort (pre post : List α) (hmid : mid.Nodup)
    (hint : pre.length + mid.length < 2 ^ 31) :
    ∃ mid', mid'.Perm mid ∧ mid'.Pairwise (· ≤ ·) ∧ ∀ n > mid.length,
      quickSort n (pre ++ mid ++ post) pre.length (pre.length + mid.length - 1) =
        some (pre ++ mid' ++ post) ∧
      nonRecursionQuickSort n (pre ++ mid ++ post) pre.length (pre.length + mid.length - 1) =
        some (pre ++ mid' ++ post) := by
  refine ⟨mid.insertionSort (· ≤ ·), List.perm_insertionSort _ _,
    List.pairwise_insertionSort _ _, fun n hn => ?_⟩
  have hunique : ∀ l : List α, l.Perm mid → l.Pairwise (· ≤ ·) →
      l = mid.insertionSort (· ≤ ·) := fun l hperm hsorted =>
    (hperm.trans (List.perm_insertionSort _ _).symm).eq_of_pairwise' hsorted
      (List.pairwise_insertionSort _ _)
  constructor
  · obtain ⟨a', ha'⟩ := quickSort_returns pre post hmid hint hn
    obtain ⟨_, l, rfl, hperm, hsorted⟩ := quickSort_sorts ha'
    rw [ha', hunique l hperm hsorted]
  · obtain ⟨l, hperm, hsorted, hl⟩ := nonRecursionQuickSort_sorts pre post hmid hint hn
    rw [hl, hunique l hperm hsorted]

/-- In a range up to the largest `int` whose first element is the largest, the bound behind the
pivot overflows. -/
theorem overflow_of_max (pre post : List α) (hrest : rest ≠ []) (hp : ∀ t ∈ rest, t < p)
    (hint : pre.length + rest.length = 2 ^ 31 - 1) (n : ℕ) :
    nonRecursionQuickSort n (pre ++ (p :: rest) ++ post) pre.length
        (pre.length + rest.length) = none ∧
      quickSort n (pre ++ (p :: rest) ++ post) pre.length (pre.length + rest.length) = none := by
  have hpos := List.length_pos_iff.mpr hrest
  have hkey : ∀ m r, sortPartition m (pre ++ (p :: rest) ++ post) pre.length
      (pre.length + rest.length) = some r → checked (r.2 + 1) = none := by
    intro m r hr
    obtain ⟨_, L, R, rfl, hL, hR, hLR⟩ := sortPartition_splits hr
    have hnil : R = [] := List.eq_nil_iff_forall_not_mem.mpr fun t ht =>
      lt_asymm (hR t ht) (hp t (hLR.mem_iff.mp (List.mem_append_right L ht)))
    have hlen : L.length = rest.length := by simpa [hnil] using hLR.length_eq
    exact checked_eq_none (by omega)
  have hround : ∀ m, stackRound m (pre ++ (p :: rest) ++ post) pre.length
      (pre.length + rest.length) [] = none := by
    intro m
    rw [stackRound]
    cases hr : sortPartition m (pre ++ (p :: rest) ++ post) pre.length
        (pre.length + rest.length) with
    | none => rfl
    | some r =>
      have := hkey m r hr
      cases hb : checked (r.2 - 1) <;> simp [this, hb]
  constructor
  · rw [nonRecursionQuickSort, if_pos (by omega), pushRange, if_pos (by omega)]
    cases n with
    | zero => rfl
    | succ n => simp only [Loop.run, stackBody, hround, Option.join_some]
  · cases n with
    | zero => rfl
    | succ n =>
      rw [quickSort, if_pos (by omega)]
      refine Option.eq_none_iff_forall_not_mem.mpr fun a' h => ?_
      obtain ⟨r, hr, h⟩ := Option.bind_eq_some_iff.mp h
      obtain ⟨below, _, h⟩ := Option.bind_eq_some_iff.mp h
      obtain ⟨a, _, h⟩ := Option.bind_eq_some_iff.mp h
      obtain ⟨above, habove, _⟩ := Option.bind_eq_some_iff.mp h
      exact Option.some_ne_none above (habove.symm.trans (hkey n r hr))

end Segments

section Ranges

variable (a : List α) {low high : ℤ}

theorem exists_range (hlow : 0 ≤ low) (hhigh : high < a.length) (h : low ≤ high + 1) :
    ∃ pre post, a = pre ++ slice a low high ++ post ∧ low = pre.length ∧
      high = pre.length + (slice a low high).length - 1 := by
  refine ⟨a.take low.toNat, a.drop (high + 1).toNat, ?_, ?_, ?_⟩
  · have htake : a.take low.toNat = (a.take (high + 1).toNat).take low.toNat := by
      rw [List.take_take, Nat.min_eq_left (by omega)]
    rw [slice, htake, List.take_append_drop, List.take_append_drop]
  · rw [List.length_take]
    omega
  · rw [slice, List.length_drop, List.length_take, List.length_take]
    omega

theorem length_slice_le_one (h : high ≤ low) : (slice a low high).length ≤ 1 := by
  rw [slice, List.length_drop, List.length_take]
  omega

theorem slice_append (pre mid post : List α) :
    slice (pre ++ mid ++ post) pre.length (pre.length + mid.length - 1) = mid := by
  have hend : ((pre.length : ℤ) + mid.length - 1 + 1).toNat = (pre ++ mid).length := by
    rw [List.length_append]
    omega
  rw [slice, hend, List.take_left, Int.toNat_natCast, List.drop_left]

variable [LinearOrder α]

theorem SortsRange.of_segments {pre mid mid' post : List α} (hperm : mid'.Perm mid)
    (hsorted : mid'.Pairwise (· ≤ ·)) : SortsRange (pre ++ mid ++ post) pre.length
      (pre.length + mid.length - 1) (pre ++ mid' ++ post) := by
  have hlen := hperm.length_eq
  have hslice := slice_append pre mid' post
  rw [hlen] at hslice
  constructor
  · simp [hlen]
  · rintro i (hi | hi)
    · simp only [List.append_assoc]
      rw [List.getElem?_append_left (by omega), List.getElem?_append_left (by omega)]
    · have hle : (pre ++ mid).length ≤ i := by
        rw [List.length_append]
        omega
      have hle' : (pre ++ mid').length ≤ i := by
        rwa [List.length_append, hlen, ← List.length_append]
      rw [List.getElem?_append_right hle', List.getElem?_append_right hle]
      simp [hlen]
  · rw [hslice, slice_append]
    exact hperm
  · rwa [hslice]

theorem SortsRange.of_le (h : high ≤ low) : SortsRange a low high a :=
  ⟨rfl, fun _ _ => rfl, .refl _, pairwise_of_length_le_one (length_slice_le_one a h)⟩

theorem quickSort_of_le (n : ℕ) (h : high ≤ low) : quickSort (n + 1) a low high = some a := by
  rw [quickSort, if_neg (by omega)]

/-- `quickSort` sorts only ranges without equal elements, and of these every one that ends
below the largest `int` or holds at most one element. -/
theorem quickSort_sorts_distinct (hlow : 0 ≤ low) (hhigh : high < a.length) :
    ((∃ a', (∃ n₀, ∀ n ≥ n₀, quickSort n a low high = some a') ∧ SortsRange a low high a') →
      (slice a low high).Nodup) ∧
    ((slice a low high).Nodup → high < 2 ^ 31 - 1 ∨ high ≤ low →
      ∃ a', (∃ n₀, ∀ n ≥ n₀, quickSort n a low high = some a') ∧ SortsRange a low high a') := by
  rcases le_or_gt high low with h | h
  · refine ⟨fun _ => pairwise_of_length_le_one (length_slice_le_one a h), fun _ _ =>
      ⟨a, ⟨1, fun n hn => ?_⟩, .of_le a h⟩⟩
    obtain ⟨n, rfl⟩ := Nat.exists_eq_add_of_le' hn
    exact quickSort_of_le a n h
  · obtain ⟨pre, post, ha, hpre, hmid⟩ := exists_range a hlow hhigh (by omega)
    generalize slice a low high = mid at ha hmid ⊢
    subst ha hmid hpre
    constructor
    · rintro ⟨a', ⟨n₀, hn₀⟩, _⟩
      exact (quickSort_sorts (hn₀ n₀ le_rfl)).1
    · intro hnodup hint
      obtain ⟨mid', hperm, hsorted, hrun⟩ := both_sort pre post hnodup (by omega)
      exact ⟨_, ⟨mid.length + 1, fun n hn => (hrun n hn).1⟩, .of_segments hperm hsorted⟩

theorem quickSort_sorts_four : ∃ a',
    (∃ n₀, ∀ n ≥ n₀, quickSort n [9, 3, 1, 2] 1 3 = some a') ∧ SortsRange [9, 3, 1, 2] 1 3 a' :=
  (quickSort_sorts_distinct [9, 3, 1, 2] (by decide) (by decide)).2 (by decide) (.inl (by decide))

theorem quickSort_equal_elements : ¬ ∃ a' n, quickSort n [1, 1] 0 1 = some a' := by
  rintro ⟨a', n, h⟩
  have hnodup := (@quickSort_sorts ℕ _ [] [1, 1] [] n a' h).1
  simp at hnodup

/-- Without equal elements, in a range that ends below the largest `int`, the stack of bounds
gives what the recursion gives: the range sorted and the rest untouched. -/
theorem nonRecursionQuickSort_eq_quickSort (hlow : 0 ≤ low) (hhigh : high < a.length)
    (hnodup : (slice a low high).Nodup) (hint : high < 2 ^ 31 - 1 ∨ high ≤ low) :
    ∃ a', SortsRange a low high a' ∧ ∃ n₀, ∀ n ≥ n₀,
      nonRecursionQuickSort n a low high = some a' ∧ quickSort n a low high = some a' := by
  rcases le_or_gt high low with h | h
  · refine ⟨a, .of_le a h, 1, fun n hn => ?_⟩
    obtain ⟨n, rfl⟩ := Nat.exists_eq_add_of_le' hn
    exact ⟨by rw [nonRecursionQuickSort, if_neg (by omega)], quickSort_of_le a n h⟩
  · obtain ⟨pre, post, ha, hpre, hmid⟩ := exists_range a hlow hhigh (by omega)
    generalize slice a low high = mid at ha hmid hnodup
    subst ha hmid hpre
    obtain ⟨mid', hperm, hsorted, hrun⟩ := both_sort pre post hnodup (by omega)
    exact ⟨_, .of_segments hperm hsorted, mid.length + 1, fun n hn => (hrun n hn).symm⟩

theorem nonRecursionQuickSort_four : ∃ a', SortsRange [9, 3, 1, 2] 1 3 a' ∧ ∃ n₀, ∀ n ≥ n₀,
    nonRecursionQuickSort n [9, 3, 1, 2] 1 3 = some a' ∧
      quickSort n [9, 3, 1, 2] 1 3 = some a' :=
  nonRecursionQuickSort_eq_quickSort [9, 3, 1, 2] (by decide) (by decide) (by decide)
    (.inl (by decide))

/-- Among all values of `int` from 0 on, with the last two exchanged, the bound behind the
pivot of the last two overflows. -/
theorem nonRecursionQuickSort_int_max :
    (List.range (2 ^ 31 - 2) ++ [2 ^ 31 - 1, 2 ^ 31 - 2]).Nodup ∧ ∀ n,
      nonRecursionQuickSort n (List.range (2 ^ 31 - 2) ++ [2 ^ 31 - 1, 2 ^ 31 - 2])
        (2 ^ 31 - 2) (2 ^ 31 - 1) = none ∧
      quickSort n (List.range (2 ^ 31 - 2) ++ [2 ^ 31 - 1, 2 ^ 31 - 2])
        (2 ^ 31 - 2) (2 ^ 31 - 1) = none := by
  have hlen : (List.range (2 ^ 31 - 2)).length = 2 ^ 31 - 2 := List.length_range
  have hmem : ∀ t ∈ List.range (2 ^ 31 - 2), t < 2 ^ 31 - 2 := fun t => List.mem_range.mp
  have hnodup := List.nodup_range (n := 2 ^ 31 - 2)
  generalize List.range (2 ^ 31 - 2) = pre at hlen hmem hnodup ⊢
  refine ⟨?_, fun n => ?_⟩
  · refine hnodup.append (by decide) fun t ht ht' => ?_
    have hlt := hmem t ht
    simp only [List.mem_cons, List.not_mem_nil, or_false] at ht'
    omega
  · have hlow : (2 ^ 31 - 2 : ℤ) = pre.length := by omega
    have hhigh : (2 ^ 31 - 1 : ℤ) = pre.length + [2 ^ 31 - 2].length := by
      rw [List.length_singleton]
      omega
    have hbelow : ∀ t ∈ [2 ^ 31 - 2], t < 2 ^ 31 - 1 := by decide
    have hedge := overflow_of_max pre [] (List.cons_ne_nil _ _) hbelow
      (by rw [List.length_singleton]; omega) n
    rw [List.append_nil] at hedge
    rw [hlow, hhigh]
    exact hedge

end Ranges

example : quickSort 4 [9, 3, 1, 2] 1 3 = some [9, 1, 2, 3] := by decide +kernel

example : nonRecursionQuickSort 4 [9, 3, 1, 2] 1 3 = some [9, 1, 2, 3] := by decide +kernel

end Vs17.Sort
