import Mathlib.Data.List.Sort
import Vs17.Sort.Insertion

/-! # Sorting by exchanges

`selectSort` and `bubbleSort` put one element after the other in its place by exchanging
elements. They agree with `insertionSort`, and `bubbleSort` does so on records too.
-/

namespace Vs17.Sort

open Arrays Counted Stable

variable {α κ : Type} [LinearOrder κ] (key : α → κ)

/-- `if (a[j] < a[smallest]) smallest = j;` -/
def smaller (a : List α) (j smallest : ℤ) : Option ℤ := do
  let x ← load a j
  let y ← load a smallest
  return if key x < key y then j else smallest

def selectSort (n : ℤ) (a : List α) : Option (List α) :=
  forUp (fun i a => do
    let smallest ← forUp (smaller key a) i n i
    swap a smallest i) 0 n a

/-- `if (a[j - 1] > a[j]) swap(a[j - 1], a[j]);` -/
def bubble (j : ℤ) (a : List α) : Option (List α) := do
  let x ← load a (j - 1)
  let y ← load a j
  if key x > key y then swap a (j - 1) j else some a

def bubbleSort (n : ℤ) (a : List α) : Option (List α) :=
  forUp (fun i a => forDown (bubble key) n (i + 1) a) 0 n a

section Places

variable {key} {a a' : List α} {i j k : ℤ}

/-- The elements at the first indices are not above any behind them. -/
def InPlace (key : α → κ) (i : ℤ) (a : List α) : Prop :=
  ∀ p q, 0 ≤ p → p < i → p ≤ q → q < a.length → Below key a p q

theorem InPlace.sorted (h : InPlace key a.length a) : a.Pairwise (key · ≤ key ·) :=
  sorted_of_below fun p q hp hpq hq => h p q hp (by omega) hpq.le hq

theorem InPlace.next (h : InPlace key i a) (hi : ∀ q, i ≤ q → q < a.length → Below key a i q) :
    InPlace key (i + 1) a := by
  intro p q hp hpi hpq hq
  rcases (Int.lt_add_one_iff.mp hpi).lt_or_eq with hlt | rfl
  · exact h p q hp hlt hpq hq
  · exact hi q hpq hq

theorem InPlace.swap (h : InPlace key i a) (hj : i ≤ j) (hk : i ≤ k) (hj' : j < a.length)
    (hk' : k < a.length) (hlen : a'.length = a.length)
    (hσ : ∀ l, load a' l = load a (Equiv.swap j k l)) : InPlace key i a' := by
  intro p q hp hpi hpq hq
  apply Below.rename hσ
  rw [Equiv.swap_apply_of_ne_of_ne (by omega) (by omega), Equiv.swap_apply_def]
  apply h p _ hp hpi
  · split_ifs <;> omega
  · split_ifs <;> omega

end Places

section Select

variable {a : List α} {i : ℤ}

theorem smaller_spec {j s : ℤ} (hj : 0 ≤ j) (hj' : j < a.length) (hs : 0 ≤ s)
    (hs' : s < a.length) : ∃ m, smaller key a j s = some m ∧ (m = s ∨ m = j) ∧
      Below key a m s ∧ Below key a m j := by
  obtain ⟨x, hx⟩ := exists_load hj hj'
  obtain ⟨y, hy⟩ := exists_load hs hs'
  simp only [smaller, hx, hy, Option.bind_eq_bind, Option.bind_some]
  split
  · rename_i hlt
    exact ⟨j, rfl, .inr rfl, .of_load hx hy hlt.le, .refl key a j⟩
  · rename_i hle
    exact ⟨s, rfl, .inl rfl, .refl key a s, .of_load hy hx (not_lt.mp hle)⟩

theorem smallest_spec (hi : 0 ≤ i) (hlen : i < a.length) :
    ∃ s, forUp (smaller key a) i a.length i = some s ∧ i ≤ s ∧ s < a.length ∧
      ∀ q, i ≤ q → q < a.length → Below key a s q := by
  obtain ⟨s, hs, ⟨his, hslen⟩, hleast⟩ := forUp_keeps (smaller key a)
    (fun j s => (i ≤ s ∧ s < a.length) ∧ ∀ q, i ≤ q → q < j → Below key a s q)
    ⟨⟨le_rfl, hlen⟩, by omega⟩ hlen.le fun j s hij hj ⟨⟨his, hslen⟩, hleast⟩ => by
      obtain ⟨m, hm, hwhich, hms, hmj⟩ := smaller_spec key (by omega) hj (by omega) hslen
      refine ⟨m, hm, by omega, fun q hiq hq => ?_⟩
      rcases (Int.lt_add_one_iff.mp hq).lt_or_eq with hlt | rfl
      · exact hms.trans (hleast q hiq hlt) (by omega) hslen
      · exact hmj
  exact ⟨s, hs, his, hslen, hleast⟩

theorem select_spec (hi : 0 ≤ i) (hlen : i < a.length) (hplace : InPlace key i a) :
    ∃ a', (do
      let smallest ← forUp (smaller key a) i a.length i
      swap a smallest i) = some a' ∧ a'.Perm a ∧ InPlace key (i + 1) a' := by
  obtain ⟨m, hm, him, hmlen, hleast⟩ := smallest_spec key hi hlen
  obtain ⟨a', ha', hperm, hσ⟩ := swap_spec (by omega) hmlen hi hlen
  have hlen' := hperm.length_eq
  refine ⟨a', by simp [hm, ha'], hperm,
    (hplace.swap him le_rfl hmlen hlen hlen' hσ).next fun q hiq hq => ?_⟩
  apply Below.rename hσ
  rw [Equiv.swap_apply_right, Equiv.swap_apply_def]
  apply hleast
  · split_ifs <;> omega
  · split_ifs <;> omega

theorem selectSort_sorts (a : List α) : ∃ a', selectSort key a.length a = some a' ∧ a'.Perm a ∧
    a'.Pairwise (key · ≤ key ·) := by
  obtain ⟨a', ha', hperm, hplace⟩ := forUp_keeps
    (fun i s => do
      let smallest ← forUp (smaller key s) i a.length i
      swap s smallest i)
    (fun i s => s.Perm a ∧ InPlace key i s) ⟨.refl a, fun p q hp hpi => by omega⟩
    (Int.natCast_nonneg a.length) fun i s hi hilen ⟨hperm, hplace⟩ => by
      rw [← hperm.length_eq] at hilen ⊢
      obtain ⟨s', hs', hperm', hplace'⟩ := select_spec key hi hilen hplace
      exact ⟨s', hs', hperm'.trans hperm, hplace'⟩
  refine ⟨a', ha', hperm, ?_⟩
  rw [← hperm.length_eq] at hplace
  exact hplace.sorted

end Select

section Bubble

variable {key} {a a' : List α} {i j : ℤ} {x y : α}

theorem swap_keepsOrder (hx : load a (j - 1) = some x) (hy : load a j = some y)
    (hxy : key x ≠ key y) (h : swap a (j - 1) j = some a') : KeepsOrder key a a' := by
  obtain ⟨pre, x', post, rfl, hpre⟩ := exists_split (load_bounds hx).1 (load_bounds hx).2
  obtain rfl : j = pre.length + 1 := by omega
  rw [hpre, load_at] at hx
  obtain rfl := Option.some.inj hx
  rcases post with _ | ⟨y', post⟩
  · have hlt := (load_bounds hy).2
    simp at hlt
  · rw [hpre, swap_adjacent] at h
    obtain rfl := Option.some.inj h
    have hy' : load (pre ++ x' :: y' :: post) (pre.length + 1) = some y' := by
      rw [List.append_cons]
      simpa using load_at (pre ++ [x']) y' post
    obtain rfl := Option.some.inj (hy'.symm.trans hy)
    have hmove : KeepsOrder key ([x'] ++ [y']) (y' :: [x']) := .move (by simpa using hxy)
    simpa using hmove.append pre post

/-- One comparison of the inner loop: the least of what has been passed moves on. -/
theorem bubble_spec (hi : 0 ≤ i) (hij : i < j) (hj : j < a.length) (hplace : InPlace key i a)
    (hleast : ∀ q, j ≤ q → q < a.length → Below key a j q) :
    ∃ a', bubble key j a = some a' ∧ KeepsOrder key a a' ∧ InPlace key i a' ∧
      ∀ q, j - 1 ≤ q → q < a.length → Below key a' (j - 1) q := by
  obtain ⟨x, hx⟩ := exists_load (by omega : 0 ≤ j - 1) (by omega : j - 1 < a.length)
  obtain ⟨y, hy⟩ := exists_load (by omega : 0 ≤ j) hj
  simp only [bubble, hx, hy, Option.bind_eq_bind, Option.bind_some]
  split
  · rename_i hlt
    obtain ⟨a', ha', hperm, hσ⟩ := swap_spec (by omega) (by omega : j - 1 < a.length)
      (by omega : 0 ≤ j) hj
    refine ⟨a', ha', swap_keepsOrder hx hy hlt.ne' ha',
      hplace.swap (by omega) (by omega) (by omega) hj hperm.length_eq hσ, fun q hjq hq => ?_⟩
    apply Below.rename hσ
    rw [Equiv.swap_apply_left, Equiv.swap_apply_def]
    split_ifs with hq1 hq2
    · exact .refl key a j
    · exact .of_load hy (hq2 ▸ hx) hlt.le
    · exact hleast q (by omega) hq
  · rename_i hle
    refine ⟨a, rfl, .refl key a, hplace, fun q hjq hq => ?_⟩
    rcases hjq.eq_or_lt with rfl | hlt
    · exact .refl key a _
    · have hstep : Below key a (j - 1) j := .of_load hx hy (not_lt.mp hle)
      exact hstep.trans (hleast q (by omega) hq) (by omega) hj

theorem bubblePass_spec (hi : 0 ≤ i) (hlen : i < a.length) (hplace : InPlace key i a) :
    ∃ a', forDown (bubble key) a.length (i + 1) a = some a' ∧ KeepsOrder key a a' ∧
      InPlace key (i + 1) a' := by
  obtain ⟨a', ha', hkeeps, hplace', hleast⟩ := forDown_keeps (bubble key)
    (fun j s => KeepsOrder key a s ∧ InPlace key i s ∧
      ∀ q, j - 1 ≤ q → q < a.length → Below key s (j - 1) q)
    ⟨.refl key a, hplace, fun q hjq hq => by
      obtain rfl : (a.length : ℤ) - 1 = q := by omega
      exact .refl key a _⟩
    (by omega : i + 1 ≤ a.length) fun j s hij hj ⟨hkeeps, hplace, hleast⟩ => by
      have hslen := hkeeps.perm.length_eq
      rw [add_sub_cancel_right, ← hslen] at hleast
      obtain ⟨s', hs', hkeeps', hspec⟩ := bubble_spec hi (by omega) (by omega) hplace hleast
      rw [hslen] at hspec
      exact ⟨s', hs', hkeeps.trans hkeeps', hspec⟩
  rw [add_sub_cancel_right, ← hkeeps.perm.length_eq] at hleast
  exact ⟨a', ha', hkeeps, hplace'.next hleast⟩

variable (key) in
theorem bubbleSort_sorts (a : List α) : ∃ a', bubbleSort key a.length a = some a' ∧
    a'.Pairwise (key · ≤ key ·) ∧ KeepsOrder key a a' := by
  obtain ⟨a', ha', hkeeps, hplace⟩ := forUp_keeps
    (fun i s => forDown (bubble key) a.length (i + 1) s)
    (fun i s => KeepsOrder key a s ∧ InPlace key i s) ⟨.refl key a, fun p q hp hpi => by omega⟩
    (Int.natCast_nonneg a.length) fun i s hi hilen ⟨hkeeps, hplace⟩ => by
      rw [← hkeeps.perm.length_eq] at hilen ⊢
      obtain ⟨s', hs', hkeeps', hplace'⟩ := bubblePass_spec hi hilen hplace
      exact ⟨s', hs', hkeeps.trans hkeeps', hplace'⟩
  refine ⟨a', ha', ?_, hkeeps⟩
  rw [← hkeeps.perm.length_eq] at hplace
  exact hplace.sorted

end Bubble

theorem simpleSorts_agree {α : Type} [LinearOrder α] (a : List α) :
    ∃ a', a'.Perm a ∧ a'.Pairwise (· ≤ ·) ∧ insertionSort id a.length a = some a' ∧
      selectSort id a.length a = some a' ∧ bubbleSort id a.length a = some a' := by
  obtain ⟨a₁, hinsertion, hsorted₁, hkeeps₁⟩ := gapPass_one id a
  obtain ⟨a₂, hselect, hperm₂, hsorted₂⟩ := selectSort_sorts id a
  obtain ⟨a₃, hbubble, hsorted₃, hkeeps₃⟩ := bubbleSort_sorts id a
  have hunique : ∀ l l' : List α, l.Perm l' → l.Pairwise (id · ≤ id ·) →
      l'.Pairwise (id · ≤ id ·) → l = l' := fun l l' hperm hl hl' =>
    hperm.eq_of_pairwise' (r := (· ≤ ·)) hl hl'
  obtain rfl := hunique a₂ a₁ (hperm₂.trans hkeeps₁.perm.symm) hsorted₂ hsorted₁
  obtain rfl := hunique a₃ a₂ (hkeeps₃.perm.trans hperm₂.symm) hsorted₃ hsorted₂
  exact ⟨a₃, hperm₂, hsorted₂, hinsertion, hselect, hbubble⟩

theorem stableSorts_agree (a : List α) :
    ∃ a', insertionSort key a.length a = some a' ∧ bubbleSort key a.length a = some a' ∧
      a'.Pairwise (key · ≤ key ·) ∧ KeepsOrder key a a' := by
  obtain ⟨a₁, hinsertion, hsorted₁, hkeeps₁⟩ := gapPass_one key a
  obtain ⟨a₂, hbubble, hsorted₂, hkeeps₂⟩ := bubbleSort_sorts key a
  have hkeeps : KeepsOrder key a₁ a₂ := fun k => (hkeeps₂ k).trans (hkeeps₁ k).symm
  obtain rfl := hkeeps.eq_of_sorted hsorted₁ hsorted₂
  exact ⟨a₂, hinsertion, hbubble, hsorted₂, hkeeps₂⟩

example : insertionSort Prod.fst 4 [(2, 'a'), (1, 'b'), (2, 'c'), (1, 'd')] =
    some [(1, 'b'), (1, 'd'), (2, 'a'), (2, 'c')] := by decide

end Vs17.Sort
