import Mathlib.Data.List.DropRight
import Mathlib.Data.List.TakeWhile
import Mathlib.Order.Basic
import Mathlib.Tactic.Linarith
import Mathlib.Tactic.Positivity
import Mathlib.Tactic.Ring
import Vs17.Library.Arrays
import Vs17.Library.Counted
import Vs17.Library.Ints
import Vs17.Library.Stable

/-! # Insertion with a gap

`insertionSort` and the passes of `shellSort` insert each element among those a gap, twice
the gap and so on in front of it. Any gap permutes the array, and the gap 1 sorts it
without changing the order of equivalent records. The records are compared by a key.
-/

namespace Vs17.Sort

open Arrays Counted Ints Stable

variable {α κ : Type} [LinearOrder κ] (key : α → κ)

/-- `for (; n >= 0 && a[n] > x; n -= h) a[n + h] = a[n]`, then `a[n + h] = x`, with at most
the given number of rounds. -/
def insertGap (h : ℤ) (x : α) : ℕ → List α → ℤ → Option (List α)
  | 0, _, _ => none
  | r + 1, a, n =>
    if 0 ≤ n then do
      let y ← load a n
      if key y > key x then do
        let a ← store a (n + h) y
        insertGap h x r a (n - h)
      else store a (n + h) x
    else store a (n + h) x

/-- The round for the element at `k`, which is left where it is if it is above the one a
gap in front of it. -/
def insertAt (h k : ℤ) (a : List α) : Option (List α) := do
  let x ← load a k
  let y ← load a (k - h)
  if key x > key y then some a else insertGap key h x a.length a (k - h)

/-- `for (k = h; k < n; k++)` -/
def gapPass (h n : ℤ) (a : List α) : Option (List α) :=
  forUp (insertAt key h) h n a

def insertionSort (n : ℤ) (a : List α) : Option (List α) :=
  gapPass key 1 n a

/-- `for (h = 1, m = 0; h < n && m < 20; m++) { increments[m] = h; h = 3 * h + 1; }` -/
def fillIncrements (n h m : ℤ) (increments : List ℤ) : Option (ℤ × List ℤ) :=
  if h < n ∧ m < 20 then do
    let increments ← store increments m h
    fillIncrements n (toInt32 (3 * h + 1)) (m + 1) increments
  else some (m, increments)
termination_by (20 - m).toNat

/-- The table starts as 20 entries of no meaning. -/
def shellSort (n : ℤ) (a : List α) : Option (List α) := do
  let t ← fillIncrements n 1 0 (List.replicate 20 0)
  forDown (fun m a => do
    let h ← load t.2 m
    gapPass key h n a) t.1 0 a

section Gap

variable {key} {h n k : ℤ} {a : List α} {x : α}

variable (key) in
/-- Shifting by a positive gap stays in the array, and filling the hole at the end makes it
a permutation again. -/
theorem insertGap_perm {r : ℕ} (hh : 0 < h) (hn : -h ≤ n) (hlen : n + h < a.length)
    (hr : n + 1 < r) (hr' : 0 < r) :
    ∃ a', insertGap key h x r a n = some a' ∧ a'.Perm (a.set (n + h).toNat x) := by
  induction r generalizing a n with
  | zero => omega
  | succ r ih =>
    rw [insertGap]
    split
    · rename_i h0
      obtain ⟨y, hy⟩ := exists_load h0 (by omega : n < a.length)
      simp only [hy, Option.bind_eq_bind, Option.bind_some]
      split
      · rw [store_eq (by omega) hlen, Option.bind_some]
        obtain ⟨a', ha', hperm⟩ := ih (a := a.set (n + h).toNat y) (n := n - h) (by omega)
          (by rw [List.length_set]; omega) (by omega) (by omega)
        refine ⟨a', ha', hperm.trans ?_⟩
        -- the hole moves from one index to the other
        rw [show n - h + h = n by omega]
        rw [load, if_pos h0] at hy
        obtain ⟨hlt, rfl⟩ := List.getElem?_eq_some_iff.mp hy
        have hin : (n + h).toNat < (a.set (n + h).toNat x).length := by
          rw [List.length_set]
          omega
        have hjn : n.toNat < (a.set (n + h).toNat x).length := by rwa [List.length_set]
        have hswap := List.set_set_perm hin hjn
        rw [List.getElem_set_ne (by omega), List.getElem_set_self, List.set_set] at hswap
        exact hswap
      · exact ⟨_, store_eq (by omega) hlen x, .refl _⟩
    · exact ⟨_, store_eq (by omega) hlen x, .refl _⟩

variable (key) in
theorem insertAt_perm (hh : 0 < h) (hk : h ≤ k) (hlen : k < a.length) :
    ∃ a', insertAt key h k a = some a' ∧ a'.Perm a := by
  obtain ⟨x, hx⟩ := exists_load (by omega : 0 ≤ k) hlen
  obtain ⟨y, hy⟩ := exists_load (by omega : 0 ≤ k - h) (by omega : k - h < a.length)
  simp only [insertAt, hx, hy, Option.bind_eq_bind, Option.bind_some]
  split
  · exact ⟨a, rfl, .refl _⟩
  · obtain ⟨a', ha', hperm⟩ := insertGap_perm key (x := x) (r := a.length) (a := a) hh
      (by omega : -h ≤ k - h) (by omega) (by omega) (by omega)
    refine ⟨a', ha', ?_⟩
    rw [load, if_pos (by omega)] at hx
    obtain ⟨hlt, rfl⟩ := List.getElem?_eq_some_iff.mp hx
    rwa [show k - h + h = k by omega, List.set_getElem_self] at hperm

variable (key) in
theorem gapPass_perm (hh : 0 < h) (a : List α) :
    ∃ a', gapPass key h a.length a = some a' ∧ a'.Perm a := by
  rcases le_total h (a.length : ℤ) with hle | hle
  · apply forUp_keeps (insertAt key h) (fun _ (s : List α) => s.Perm a) (.refl a) hle
    intro k s hk hlt hs
    obtain ⟨s', hs', hperm⟩ := insertAt_perm key hh hk (by rwa [hs.length_eq])
    exact ⟨s', hs', hperm.trans hs⟩
  · exact ⟨a, forUp_of_le hle, .refl a⟩

end Gap

section Sorting

variable {key} {P post : List α} {x z : α}

def insertBehind (key : α → κ) (x : α) (P : List α) : List α :=
  P.rdropWhile (key x < key ·) ++ x :: P.rtakeWhile (key x < key ·)

theorem insertBehind_concat_of_lt {y : α} (h : key x < key y) :
    insertBehind key x (P ++ [y]) = insertBehind key x P ++ [y] := by
  simp [insertBehind, h]

theorem insertBehind_of_last_le (hP : ∀ y ∈ P.getLast?, key y ≤ key x) :
    insertBehind key x P = P ++ [x] := by
  rcases List.eq_nil_or_concat' P with rfl | ⟨P, y, rfl⟩
  · rfl
  · have hy : ¬ key x < key y := not_lt.mpr (hP y (by simp))
    simp [insertBehind, hy]

theorem insertGap_one {r : ℕ} (hr : P.length < r) :
    insertGap key 1 x r (P ++ z :: post) (P.length - 1) =
      some (insertBehind key x P ++ post) := by
  induction P using List.reverseRecOn generalizing z post r with
  | nil =>
    obtain ⟨r, rfl⟩ : ∃ r', r = r' + 1 := ⟨r - 1, by simp at hr; omega⟩
    rw [insertGap, if_neg (by simp)]
    exact store_at [] z x post
  | append_singleton P y ih =>
    obtain ⟨r, rfl⟩ : ∃ r', r = r' + 1 := ⟨r - 1, by omega⟩
    rw [List.length_append, List.length_singleton] at hr
    have hidx : ((P ++ [y]).length : ℤ) - 1 = P.length := by simp
    have hhole : (P.length : ℤ) + 1 = (P ++ [y]).length := by simp
    have hget : load (P ++ [y] ++ z :: post) P.length = some y := by
      rw [List.append_assoc]
      exact load_at P y (z :: post)
    rw [hidx, insertGap, if_pos (by omega), hget, hhole]
    simp only [Option.bind_eq_bind, Option.bind_some, store_at]
    split
    · rename_i hy
      have harr : P ++ [y] ++ y :: post = P ++ y :: (y :: post) := by simp
      rw [harr, ih (by omega), insertBehind_concat_of_lt hy]
      simp
    · rename_i hy
      rw [insertBehind_of_last_le (by simpa using hy)]
      simp

theorem insertBehind_sorted (hP : P.Pairwise (key · ≤ key ·)) :
    (insertBehind key x P).Pairwise (key · ≤ key ·) := by
  have hsplit : P.rdropWhile (key x < key ·) ++ P.rtakeWhile (key x < key ·) = P :=
    List.rdropWhile_append_rtakeWhile ..
  have habove : ∀ y ∈ P.rtakeWhile (key x < key ·), key x < key y := fun y hy => by
    simpa using List.mem_rtakeWhile_imp hy
  have hstop := List.rdropWhile_last_not (key x < key ·) P
  rw [insertBehind]
  generalize P.rdropWhile (key x < key ·) = L at hsplit hstop ⊢
  generalize P.rtakeWhile (key x < key ·) = S at hsplit habove ⊢
  subst hsplit
  obtain ⟨hL, hS, hLS⟩ := List.pairwise_append.mp hP
  have hbelow : ∀ y ∈ L, key y ≤ key x := by
    intro y hy
    rcases List.eq_nil_or_concat' L with rfl | ⟨L, w, rfl⟩
    · simp at hy
    · have hw : key w ≤ key x := by simpa using hstop (by simp)
      rcases List.mem_append.mp hy with hy | hy
      · exact ((List.pairwise_append.mp hL).2.2 y hy w (by simp)).trans hw
      · rwa [List.mem_singleton.mp hy]
  rw [List.pairwise_append, List.pairwise_cons]
  refine ⟨hL, ⟨fun y hy => (habove y hy).le, hS⟩, fun y hy w hw => ?_⟩
  rcases List.mem_cons.mp hw with rfl | hw
  · exact hbelow y hy
  · exact hLS y hy w hw

theorem insertBehind_keepsOrder (key : α → κ) (x : α) (P : List α) :
    KeepsOrder key (P ++ [x]) (insertBehind key x P) := by
  have hsplit : P.rdropWhile (key x < key ·) ++ P.rtakeWhile (key x < key ·) = P :=
    List.rdropWhile_append_rtakeWhile ..
  have hne : ∀ y ∈ P.rtakeWhile (key x < key ·), key y ≠ key x := by
    intro y hy
    have hxy : key x < key y := by simpa using List.mem_rtakeWhile_imp hy
    exact hxy.ne'
  have hmove := (KeepsOrder.move hne).append (P.rdropWhile (key x < key ·)) []
  rw [List.append_nil, List.append_nil, ← List.append_assoc, hsplit] at hmove
  exact hmove

theorem insertAt_one (hP : P ≠ []) :
    insertAt key 1 P.length (P ++ x :: post) = some (insertBehind key x P ++ post) := by
  obtain ⟨P, y, rfl⟩ := (List.eq_nil_or_concat' P).resolve_left hP
  have hprev : ((P ++ [y]).length : ℤ) - 1 = P.length := by simp
  have hy : load (P ++ [y] ++ x :: post) P.length = some y := by
    rw [List.append_assoc]
    exact load_at P y (x :: post)
  simp only [insertAt, load_at, hprev, hy, Option.bind_eq_bind, Option.bind_some]
  split
  · rename_i hxy
    rw [insertBehind_of_last_le (by simpa using hxy.le)]
    simp
  · rw [← hprev]
    apply insertGap_one
    simp

theorem gapPass_one (key : α → κ) (a : List α) :
    ∃ a', gapPass key 1 a.length a = some a' ∧ a'.Pairwise (key · ≤ key ·) ∧
      KeepsOrder key a a' := by
  rcases Nat.eq_zero_or_pos a.length with h0 | hpos
  · obtain rfl := List.length_eq_zero_iff.mp h0
    exact ⟨[], rfl, .nil, .refl key []⟩
  have hrun := forUp_keeps (insertAt key 1)
    (fun k s => (s.take k.toNat).Pairwise (key · ≤ key ·) ∧ KeepsOrder key a s)
    ⟨?_, .refl key a⟩ (by omega : (1 : ℤ) ≤ a.length) ?_
  · obtain ⟨a', ha', hsorted, hkeeps⟩ := hrun
    refine ⟨a', ha', ?_, hkeeps⟩
    rwa [Int.toNat_natCast, ← hkeeps.perm.length_eq, List.take_length] at hsorted
  · rcases a with _ | ⟨x, a⟩
    · simp at hpos
    · simp
  · rintro k s hk hlt ⟨hsorted, hkeeps⟩
    have hlen := hkeeps.perm.length_eq
    obtain ⟨P, x, post, rfl, rfl⟩ := exists_split (by omega) (by omega : k < s.length)
    rw [Int.toNat_natCast, List.take_left] at hsorted
    have hne : P ≠ [] := by
      rintro rfl
      simp at hk
    have hlenP : ((P.length : ℤ) + 1).toNat = (insertBehind key x P).length := by
      rw [(insertBehind_keepsOrder key x P).perm.length_eq, List.length_append,
        List.length_singleton]
      omega
    refine ⟨_, insertAt_one hne, ?_, hkeeps.trans ?_⟩
    · rw [hlenP, List.take_left]
      exact insertBehind_sorted hsorted
    · have hins := (insertBehind_keepsOrder key x P).append [] post
      simpa using hins

end Sorting

section Increments

variable {n h m : ℤ} {t : List ℤ}

/-- The first entries of the table are gaps for an array of the given length, and the first
of them is 1. -/
structure Table (n m : ℤ) (t : List ℤ) : Prop where
  length_eq : t.length = 20
  count : 0 ≤ m ∧ m ≤ 20
  entries : ∀ i, 0 ≤ i → i < m → ∃ g, load t i = some g ∧ 0 < g ∧ g < n
  first : 0 < m → load t 0 = some 1

theorem Table.store (ht : Table n m t) (hm : m < 20) (hh : 0 < h) (hn : h < n)
    (hfirst : m = 0 → h = 1) : ∃ t', store t m h = some t' ∧ Table n (m + 1) t' := by
  obtain ⟨hlen, ⟨h0, h20⟩, hentries, hone⟩ := ht
  have hmlen : m < t.length := by omega
  refine ⟨_, store_eq h0 hmlen h, by rw [List.length_set, hlen], by omega, fun i hi him => ?_,
    fun _ => ?_⟩
  · rw [load_set h0 hmlen]
    split
    · exact ⟨h, rfl, hh, hn⟩
    · exact hentries i hi (by omega)
  · rw [load_set h0 hmlen]
    split
    · rw [hfirst (by omega)]
    · exact hone (by omega)

/-- As long as an increment is still stored it has not wrapped: each is one less than a
power of three, halved. -/
theorem fillIncrements_spec (ht : Table n m t) (hfirst : m = 0 → h = 1)
    (hh : m < 20 → 2 * h + 1 = 3 ^ (m.toNat + 1)) :
    ∃ m' t', fillIncrements n h m t = some (m', t') ∧ Table n m' t' ∧ (m' = 0 → n ≤ 1) := by
  induction hk : (20 - m).toNat generalizing h m t with
  | zero =>
    have hcount := ht.count
    rw [fillIncrements, if_neg (by omega)]
    exact ⟨m, t, rfl, ht, by omega⟩
  | succ k ih =>
    have hcount := ht.count
    rw [fillIncrements]
    split
    · rename_i hlt
      have hpow := hh hlt.2
      have hpos : (0 : ℤ) < 3 ^ m.toNat := by positivity
      obtain ⟨t', ht', htable⟩ := ht.store hlt.2 (by rw [pow_succ] at hpow; omega) hlt.1 hfirst
      rw [ht', Option.bind_eq_bind, Option.bind_some]
      apply ih htable (by omega) _ (by omega)
      intro hm
      have hnext : 2 * (3 * h + 1) + 1 = (3 : ℤ) ^ ((m + 1).toNat + 1) := by
        rw [show (m + 1).toNat = m.toNat + 1 by omega, pow_succ, ← hpow]
        ring
      have hle : (3 : ℤ) ^ ((m + 1).toNat + 1) ≤ 3 ^ 20 :=
        pow_le_pow_right₀ (by norm_num) (by omega)
      rw [toInt32_eq (by omega) (by omega), hnext]
    · rename_i hstop
      refine ⟨m, t, rfl, ht, fun hm => ?_⟩
      have h1 := hfirst hm
      omega

/-- The table is filled inside its bounds, and holds the gap 1 unless there is nothing to
sort. -/
theorem fillIncrements_table (n : ℤ) : ∃ m t,
    fillIncrements n 1 0 (List.replicate 20 0) = some (m, t) ∧ Table n m t ∧ (m = 0 → n ≤ 1) := by
  apply fillIncrements_spec ⟨by simp, by omega, by omega, by omega⟩ (fun _ => rfl)
  simp

end Increments

/-- Whatever the gaps before it, the pass with the gap 1 comes last and sorts. -/
theorem shellSort_sorts (a : List α) : ∃ a', shellSort key a.length a = some a' ∧ a'.Perm a ∧
    a'.Pairwise (key · ≤ key ·) := by
  obtain ⟨m, t, hfill, htable, hzero⟩ := fillIncrements_table a.length
  have hrun := forDown_keeps (fun m a' => do let h ← load t m; gapPass key h a.length a')
    (fun i s => s.Perm a ∧ (i = 0 → 0 < m → s.Pairwise (key · ≤ key ·)))
    ⟨.refl a, by omega⟩ htable.count.1 ?_
  · obtain ⟨a', ha', hperm, hsorted⟩ := hrun
    refine ⟨a', by rw [shellSort, hfill]; exact ha', hperm, ?_⟩
    rcases htable.count.1.eq_or_lt with h0 | hpos
    · have hlen := hperm.length_eq
      have hone := hzero h0.symm
      match a', hlen with
      | [], _ => exact .nil
      | [x], _ => exact List.pairwise_singleton _ x
      | _ :: _ :: _, hlen =>
        rw [List.length_cons, List.length_cons] at hlen
        omega
    · exact hsorted rfl hpos
  · rintro i s hi him ⟨hperm, _⟩
    obtain ⟨g, hg, hpos, _⟩ := htable.entries i hi him
    rw [← hperm.length_eq]
    simp only [hg, Option.bind_eq_bind, Option.bind_some]
    by_cases h0 : i = 0
    · subst h0
      obtain rfl := Option.some.inj (hg.symm.trans (htable.first him))
      obtain ⟨s', hs', hsorted, hkeeps⟩ := gapPass_one key s
      exact ⟨s', hs', hkeeps.perm.trans hperm, fun _ _ => hsorted⟩
    · obtain ⟨s', hs', hperm'⟩ := gapPass_perm key hpos s
      exact ⟨s', hs', hperm'.trans hperm, fun hi0 => absurd hi0 h0⟩

example : shellSort id 6 [5, 2, 9, 2, 7, 1] = some [1, 2, 2, 5, 7, 9] := by decide +kernel

end Vs17.Sort
