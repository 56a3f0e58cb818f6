import Vs17.Library.Arrays
import Vs17.Library.Ints
import Vs17.Library.Subsets

/-! # All sublists of a vector

`backtracing` takes or leaves each element, with the elements taken so far in the global `t` and
the sublists completed in the global `ans`. `subset` counts through the masks of the places.
-/

namespace Vs17.Backtracking

open Arrays Ints Subsets

/-- The global variables of `backtracing`. -/
structure Globals where
  t : List ℤ
  ans : List (List ℤ)
  deriving DecidableEq, Repr

/-- No result is an empty vector that should lose its last element. -/
def popBack (t : List ℤ) : Option (List ℤ) :=
  if t = [] then none else some t.dropLast

/-- No result is an access outside a vector or an arithmetic overflow. -/
def backtracing (nums : List ℤ) : ℕ → ℤ → Globals → Option Globals
  | 0, _, _ => none
  | n + 1, cur, s =>
    if cur = nums.length then some { s with ans := s.ans ++ [s.t] }
    else do
      let x ← load nums cur
      let next ← checked (cur + 1)
      let s ← backtracing nums n next { s with t := s.t ++ [x] }
      let t ← popBack s.t
      backtracing nums n next { s with t }

/-- The lines `subset` prints. A shift that leaves the range of `int` has no result. -/
def subset (nums : List ℤ) : Option (List (List ℤ)) :=
  if nums.length < 31 then
    some ((List.range (1 <<< nums.length)).map fun mask =>
      (List.range nums.length).filterMap fun i =>
        if mask &&& 1 <<< i ≠ 0 then nums[i]? else none)
  else none

variable {nums t : List ℤ} {ans : List (List ℤ)} {cur : ℤ} {k n : ℕ}

theorem popBack_append (t : List ℤ) (x : ℤ) : popBack (t ++ [x]) = some t := by
  simp [popBack]

/-- The recursion takes the choices of the elements that follow, and gives back `t`. -/
theorem backtracing_choices (hlen : nums.length < 2 ^ 31) (hk : k ≤ nums.length)
    (hn : nums.length - k < n) : backtracing nums n k ⟨t, ans⟩ =
      some ⟨t, ans ++ (choices (nums.drop k)).map (t ++ ·)⟩ := by
  induction n generalizing k t ans with
  | zero => omega
  | succ n ih =>
    rw [backtracing]
    by_cases hend : k = nums.length
    · subst hend
      rw [if_pos rfl, List.drop_length]
      simp [choices]
    · have hlt : k < nums.length := by omega
      have hcur : (k : ℤ) ≠ nums.length := by omega
      have hnext : checked ((k : ℤ) + 1) = some ((k + 1 : ℕ) : ℤ) :=
        checked_eq (by omega) (by omega)
      rw [if_neg hcur, load_nat, List.getElem?_eq_getElem hlt, List.drop_eq_getElem_cons hlt]
      simp only [Option.bind_eq_bind, Option.bind_some, hnext,
        ih (by omega : k + 1 ≤ nums.length) (by omega), popBack_append]
      simp [choices]

/-- The counter reaches the end of the range of `int` before that of the vector. -/
theorem backtracing_overflow (hlen : 2 ^ 31 ≤ nums.length) (hcur : cur < 2 ^ 31) (s : Globals) :
    backtracing nums n cur s = none := by
  induction n generalizing cur s with
  | zero => rfl
  | succ n ih =>
    rw [backtracing, if_neg (by omega)]
    cases load nums cur with
    | none => rfl
    | some x =>
      cases hnext : checked (cur + 1) with
      | none => rfl
      | some next =>
        obtain ⟨rfl, -, hlt⟩ := of_checked hnext
        simp only [Option.bind_eq_bind, Option.bind_some, ih hlt, Option.bind_none]

/-- The recursion ends with `t` as it was, and adds to `ans` the lists that go on behind `t` with
a sublist of the elements from this place on, one for each subset of their places. -/
def Appends (nums : List ℤ) (k : ℕ) (t : List ℤ) (ans : List (List ℤ)) : Prop :=
  ∃ lists, lists.Perm ((nums.drop k).sublists.map (t ++ ·)) ∧
    ∃ n₀, ∀ n ≥ n₀, backtracing nums n k ⟨t, ans⟩ = some ⟨t, ans ++ lists⟩

theorem appends_of_lt (hlen : nums.length < 2 ^ 31) (hk : k ≤ nums.length) :
    Appends nums k t ans :=
  ⟨_, (choices_perm_sublists (nums.drop k)).map (t ++ ·), nums.length - k + 1,
    fun _ hn => backtracing_choices hlen hk hn⟩

theorem not_appends (hlen : 2 ^ 31 ≤ nums.length) (hk : k < 2 ^ 31) : ¬ Appends nums k t ans := by
  rintro ⟨lists, -, n, hn⟩
  have hrun := hn n le_rfl
  rw [backtracing_overflow hlen (by exact_mod_cast hk)] at hrun
  cases hrun

theorem and_shiftLeft_ne_zero_iff (mask i : ℕ) : mask &&& 1 <<< i ≠ 0 ↔ mask.testBit i = true := by
  rw [Nat.one_shiftLeft, Nat.and_two_pow]
  cases mask.testBit i <;> simp

/-- The lines of the inner loop are the elements whose bits are set in the mask. -/
theorem filterMap_eq_select (mask : ℕ) (l : List ℤ) :
    ((List.range l.length).filterMap fun i => if mask &&& 1 <<< i ≠ 0 then l[i]? else none) =
      select mask l := by
  simp only [and_shiftLeft_ne_zero_iff]
  induction l generalizing mask with
  | nil => rfl
  | cons x l ih =>
    rw [List.length_cons, List.range_succ_eq_map, List.filterMap_cons, List.filterMap_map, select,
      ← ih (mask / 2)]
    by_cases hbit : mask % 2 = 1
    · simp [hbit, Nat.testBit_succ]
    · simp [hbit, Nat.testBit_succ]

theorem subset_eq (h : nums.length < 31) :
    subset nums = some ((List.range (2 ^ nums.length)).map (select · nums)) := by
  rw [subset, if_pos h, Nat.one_shiftLeft]
  simp only [filterMap_eq_select]

/-- The result of `backtracing`, started with empty globals, and the lines of `subset` are the
same up to their order. -/
def SameFamily (nums : List ℤ) : Prop :=
  ∃ lists lines, subset nums = some lines ∧ lists.Perm lines ∧
    ∃ n₀, ∀ n ≥ n₀, backtracing nums n 0 ⟨[], []⟩ = some ⟨[], lists⟩

/-- `backtracing` does what it should for every vector whose length is an `int`, and no other.
For the vectors `subset` can do it finds the same sublists. -/
theorem backtracing_appends_iff (hk : k ≤ nums.length) (hint : k < 2 ^ 31) (t : List ℤ)
    (ans : List (List ℤ)) : (Appends nums k t ans ↔ nums.length < 2 ^ 31) ∧
      (nums.length < 31 → SameFamily nums) := by
  constructor
  · constructor
    · intro h
      by_contra hlen
      exact not_appends (not_lt.mp hlen) hint h
    · intro hlen
      exact appends_of_lt hlen hk
  · intro hshort
    have hlen : nums.length < 2 ^ 31 := hshort.trans (by decide)
    refine ⟨choices nums, _, subset_eq hshort, (select_perm_choices nums).symm,
      nums.length + 1, fun n hn => ?_⟩
    simpa using @backtracing_choices nums [] [] 0 n hlen (Nat.zero_le _) (by omega)

theorem backtracing_appends_five :
    (Appends [3, 5, 12, 31, 44] 3 [3, 12] [[7]] ↔ [3, 5, 12, 31, 44].length < 2 ^ 31) ∧
      ([3, 5, 12, 31, 44].length < 31 → SameFamily [3, 5, 12, 31, 44]) :=
  @backtracing_appends_iff [3, 5, 12, 31, 44] 3 (by decide) (by decide) [3, 12] [[7]]

/-- With 2^31 elements the counter overflows. -/
theorem backtracing_long : ¬ Appends (List.replicate (2 ^ 31) 0) 0 [] [] := by
  apply not_appends
  · rw [List.length_replicate]
  · decide

example : backtracing [3, 5] 3 0 ⟨[], []⟩ = some ⟨[], [[3, 5], [3], [5], []]⟩ ∧
    subset [3, 5] = some [[], [3], [5], [3, 5]] := by decide

end Vs17.Backtracking
