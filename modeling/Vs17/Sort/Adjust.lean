import Mathlib.Logic.Relation
import Vs17.Sort.HeapSort

/-! # Sinking into a subtree

`adjust` makes a heap of a subtree whose root may be too small. The root goes down a path of
greatest children, and nothing outside the subtree is touched. The indices of the children of every
place on the path are computed, also of the last one, and have to fit into an `int`.
-/

namespace Vs17.Sort

open Arrays Ints Relation

variable {α κ : Type} [LinearOrder κ]

/-- The indices of the subtree at an index. -/
def InSubtree (root : ℤ) : ℤ → Prop := ReflTransGen Child root

/-- The subtree at an index, as far as the heap goes, is a heap. -/
def HeapAt (key : α → κ) (a : List α) (len root : ℤ) : Prop := HeapOn key a len (InSubtree root)

/-- An element with this key moves from an index to one of its children: to a greatest one, which
is greater than the element, and to the left one of equal ones. -/
structure GoesTo (key : α → κ) (a : List α) (len : ℤ) (x : κ) (j m : ℤ) : Prop where
  child : Child j m
  lt : m < len
  above : ∃ y, load a m = some y ∧ x < key y
  greatest : ∀ c, Child j c → c < len → Below key a c m
  left_first : m = 2 * j + 2 → ¬ Below key a m (2 * j + 1)

def SinksTo (key : α → κ) (a : List α) (len root j : ℤ) : Prop :=
  ∃ e, load a root = some e ∧ ReflTransGen (GoesTo key a len (key e)) root j

/-- The subtree is a heap, and only its elements have been moved. -/
structure Sifted (key : α → κ) (a a' : List α) (len root : ℤ) : Prop where
  heap : HeapAt key a' len root
  moved : ∃ σ : Equiv.Perm ℤ, (∀ l, ¬ (InSubtree root l ∧ l < len) → σ l = l) ∧
    ∀ l, load a' l = load a (σ l)

def Sifts (key : α → κ) (a : List α) (len root : ℤ) : Prop :=
  ∃ n₀ a', Sifted key a a' len root ∧ ∀ n ≥ n₀, adjust key n a len root = some a'

/-- A call of `adjust` on a place of the heap in the vector, with heaps below this place. -/
structure Adjustable (key : α → κ) (a : List α) (len index : ℤ) : Prop where
  nonneg : 0 ≤ index
  lt : index < len
  le_length : len ≤ a.length
  fits : len < 2 ^ 31
  heaps : ∀ c, Child index c → HeapAt key a len c

variable {key : α → κ} {a a' : List α} {len index j k m m' i c : ℤ} {x : κ} {e : α}

section Subtree

theorem Child.lt (h : Child i c) (hi : 0 ≤ i) : i < c := by
  unfold Child at h
  omega

theorem InSubtree.le (h : InSubtree i j) (hi : 0 ≤ i) : i ≤ j := by
  induction h with
  | refl => rfl
  | tail _ hc ih => exact ih.trans (hc.lt (hi.trans ih)).le

theorem InSubtree.exists_child (h : InSubtree i j) (hne : j ≠ i) :
    ∃ c, Child i c ∧ InSubtree c j := by
  rcases ReflTransGen.cases_head h with rfl | ⟨c, hc, hcj⟩
  · contradiction
  · exact ⟨c, hc, hcj⟩

theorem heapAt_of_le (hi : 0 ≤ i) (h : len ≤ 2 * i + 1) : HeapAt key a len i := by
  intro j c hj hc hlen
  have hle := InSubtree.le hj hi
  unfold Child at hc
  omega

theorem Adjustable.sinking (h : Adjustable key a len index) :
    Sinking key a len (InSubtree index) index := by
  constructor
  · intro p c hp hne hc hclen
    obtain ⟨r, hr, hrp⟩ := InSubtree.exists_child hp hne
    exact h.heaps r hr p c hrp hc hclen
  · intro p c hp hpi
    have hle := hp.le h.nonneg
    have hlt := hpi.lt (h.nonneg.trans hle)
    omega

end Subtree

section Path

theorem not_below_iff : ¬ Below key a i j ↔
    ∃ x y, load a i = some x ∧ load a j = some y ∧ key y < key x := by
  unfold Below
  push Not
  rfl

theorem GoesTo.unique (h : GoesTo key a len x j m) (h' : GoesTo key a len x j m') : m = m' := by
  have hm := h.child
  have hm' := h'.child
  unfold Child at hm hm'
  rcases hm with rfl | rfl <;> rcases hm' with rfl | rfl
  · rfl
  · exact absurd (h.greatest _ h'.child h'.lt) (h'.left_first rfl)
  · exact absurd (h'.greatest _ h.child h.lt) (h.left_first rfl)
  · rfl

theorem Below.congr (hi : load a' i = load a i) (hj : load a' j = load a j) :
    Below key a' i j ↔ Below key a i j := by
  unfold Below
  rw [hi, hj]

theorem GoesTo.congr (h : GoesTo key a len x j m) (hj : 0 ≤ j)
    (hsame : ∀ l, j < l → load a' l = load a l) : GoesTo key a' len x j m := by
  have hload (c : ℤ) (hc : Child j c) : load a' c = load a c := hsame c (hc.lt hj)
  refine ⟨h.child, h.lt, ?_, fun c hc hclen => ?_, fun hm => ?_⟩
  · rw [hload m h.child]
    exact h.above
  · rw [Below.congr (hload c hc) (hload m h.child)]
    exact h.greatest c hc hclen
  · rw [Below.congr (hload m h.child) (hload _ (.inl rfl))]
    exact h.left_first hm

theorem path_congr (h : ReflTransGen (GoesTo key a len x) j k) (hj : 0 ≤ j)
    (hsame : ∀ l, j < l → load a' l = load a l) : ReflTransGen (GoesTo key a' len x) j k := by
  induction h using ReflTransGen.head_induction_on with
  | refl => exact .refl
  | head hstep _ ih =>
    have hlt := hstep.child.lt hj
    exact .head (hstep.congr hj hsame) (ih (by omega) fun l hl => hsame l (hlt.trans hl))

end Path

section Step

theorem larger_ne (h : larger key a len c m = some m') (hne : m' ≠ m) :
    m' = c ∧ ¬ Below key a c m := by
  unfold larger at h
  split at h
  · obtain ⟨x, hx, h⟩ := Option.bind_eq_some_iff.mp h
    obtain ⟨y, hy, h⟩ := Option.bind_eq_some_iff.mp h
    split_ifs at h with hlt
    · exact ⟨(Option.some.inj h).symm, not_below_iff.mpr ⟨x, y, hx, hy, hlt⟩⟩
    · exact absurd (Option.some.inj h).symm hne
  · exact absurd (Option.some.inj h).symm hne

theorem not_below_of_larger {m₁ : ℤ} (hj : 0 ≤ j) (hlt : j < len) (hlen : len ≤ a.length)
    (hm₁ : larger key a len (2 * j + 1) j = some m₁)
    (hm : larger key a len (2 * j + 2) m₁ = some m) (hne : m ≠ j) (hmlen : m < len) :
    ¬ Below key a m j ∧ (m = 2 * j + 2 → ¬ Below key a m (2 * j + 1)) := by
  by_cases hmm₁ : m = m₁
  · subst hmm₁
    obtain ⟨rfl, habove⟩ := larger_ne hm₁ hne
    exact ⟨habove, by omega⟩
  · obtain ⟨rfl, habove⟩ := larger_ne hm hmm₁
    obtain ⟨m', hm', -, hbelow, hleft⟩ := larger_spec key (a := a) hj (by omega)
      (by omega : 0 ≤ 2 * j + 1) hlen
    obtain rfl := Option.some.inj (hm₁.symm.trans hm')
    refine ⟨fun h => habove (h.trans hbelow hj (by omega)), fun _ h => habove ?_⟩
    exact h.trans (hleft (by omega)) (by omega) (by omega)

variable (key) in
/-- One call: the element stays where it is, or it goes to a child. -/
theorem adjust_step (hj : 0 ≤ j) (hlt : j < len) (hlen : len ≤ a.length)
    (hfits : 2 * j + 2 < 2 ^ 31) (he : load a j = some e) :
    ((∀ c, Child j c → c < len → Below key a c j) ∧ ∀ n, adjust key (n + 1) a len j = some a) ∨
    ∃ m a', GoesTo key a len (key e) j m ∧ Below key a j m ∧ a'.Perm a ∧
      (∀ l, load a' l = load a (Equiv.swap m j l)) ∧
      ∀ n, adjust key (n + 1) a len j = adjust key n a' len m := by
  obtain ⟨m₁, m, hm₁, hm, hm₁len, hmlen, hwhich, hbelow, hgreatest⟩ :=
    maxIdx_spec key hj hlt hlen
  have hcall (n : ℕ) : adjust key (n + 1) a len j =
      if m ≠ j then (swap a m j).bind fun a => adjust key n a len m else some a := by
    rw [adjust_succ hj hfits]
    simp only [hm₁, hm, Option.bind_eq_bind, Option.bind_some]
  by_cases hmj : m = j
  · refine .inl ⟨fun c hc hclen => hmj ▸ hgreatest c hc hclen, fun n => ?_⟩
    rw [hcall, if_neg (not_not.mpr hmj)]
  · have hchild := hwhich.resolve_left hmj
    have hjm := hchild.lt hj
    obtain ⟨a', hswap, hperm, hσ⟩ := swap_spec (a := a) (i := m) (j := j) (by omega) (by omega) hj
      (by omega)
    obtain ⟨habove, hleft⟩ := not_below_of_larger hj hlt hlen hm₁ hm hmj hmlen
    obtain ⟨y, e', hy, he', hlt'⟩ := not_below_iff.mp habove
    obtain rfl := Option.some.inj (he.symm.trans he')
    refine .inr ⟨m, a', ⟨hchild, hmlen, ⟨y, hy, hlt'⟩, hgreatest, hleft⟩, hbelow, hperm, hσ, ?_⟩
    intro n
    rw [hcall, if_pos hmj, hswap, Option.bind_some]

theorem GoesTo.not_below (h : GoesTo key a len (key e) j m) (he : load a j = some e) :
    ¬ Below key a m j := by
  obtain ⟨y, hy, hlt⟩ := h.above
  exact not_below_iff.mpr ⟨y, e, hy, he, hlt⟩

theorem load_moved (hm : Child j m) (hj : 0 ≤ j)
    (hσ : ∀ l, load a' l = load a (Equiv.swap m j l)) :
    load a' m = load a j ∧ ∀ l, m < l → load a' l = load a l := by
  have hlt := hm.lt hj
  constructor
  · rw [hσ, Equiv.swap_apply_left]
  · intro l hl
    rw [hσ, Equiv.swap_apply_of_ne_of_ne (by omega) (by omega)]

theorem toInt32_neg (hover : 2 ^ 31 ≤ i) (hi : i < 2 ^ 32) : toInt32 i < 0 := by
  rw [toInt32, Int.bmod_def]
  omega

theorem larger_of_neg (hc : c < 0) (hlen : 0 < len) : larger key a len c m = none := by
  unfold larger
  rw [if_pos (hc.trans hlen), load, if_neg (not_le.mpr hc)]
  rfl

theorem adjust_overflow (hlt : j < len) (hfits : len < 2 ^ 31)
    (hover : 2 ^ 31 ≤ 2 * j + 2) (n : ℕ) : adjust key n a len j = none := by
  cases n with
  | zero => rfl
  | succ n =>
    rw [adjust]
    by_cases hleft : 2 * j + 1 < 2 ^ 31
    · have hstay : larger key a len (2 * j + 1) j = some j := by
        unfold larger
        rw [if_neg (by omega)]
      rw [toInt32_eq (by omega) hleft]
      simp only [hstay, Option.bind_eq_bind, Option.bind_some]
      rw [larger_of_neg (toInt32_neg hover (by omega)) (by omega)]
      rfl
    · rw [larger_of_neg (toInt32_neg (by omega) (by omega)) (by omega)]
      rfl

end Step

section Sifting

variable {S : ℤ → Prop}

/-- The element sinks as long as the indices fit, and the heap order is restored. -/
theorem adjust_sinks (hS : ∀ i c, S i → Child i c → S c) (hSj : S j) (hj : 0 ≤ j) (hlt : j < len)
    (hlen : len ≤ a.length) (he : load a j = some e) (h : Sinking key a len S j)
    (hfits : ∀ k, ReflTransGen (GoesTo key a len (key e)) j k → 2 * k + 2 < 2 ^ 31) :
    ∃ a', (∀ n : ℕ, len - j ≤ n → adjust key n a len j = some a') ∧ HeapOn key a' len S ∧
      ∃ σ : Equiv.Perm ℤ, (∀ l, ¬ (InSubtree j l ∧ l < len) → σ l = l) ∧
        ∀ l, load a' l = load a (σ l) := by
  induction hn : (len - j).toNat using Nat.strongRecOn generalizing a j with
  | ind n ih =>
    rcases adjust_step key hj hlt hlen (hfits j .refl) he with
      ⟨hbelow, hcall⟩ | ⟨m, a₁, hgoes, hbelow, hperm, hσ, hcall⟩
    · refine ⟨a, fun n hn => ?_, h.done hbelow, Equiv.refl ℤ, fun l _ => rfl, fun l => rfl⟩
      obtain ⟨n, rfl⟩ : ∃ r, n = r + 1 := ⟨n - 1, by omega⟩
      exact hcall n
    · have hjm := hgoes.child.lt hj
      have hmlen := hgoes.lt
      obtain ⟨hmoved, hbehind⟩ := load_moved hgoes.child hj hσ
      have hSm := hS j m hSj hgoes.child
      have hsinking := h.move hj hSm hgoes.child hmlen hbelow hgoes.greatest hσ
      obtain ⟨a', ha', hheap, τ, hτ, hload⟩ := ih (len - m).toNat (by omega) hSm (by omega) hmlen
        (by rwa [hperm.length_eq]) (hmoved.trans he) hsinking
        (fun k hk => hfits k (.head hgoes (path_congr hk (by omega) fun l hl =>
          (hbehind l hl).symm))) rfl
      refine ⟨a', fun n hn => ?_, hheap, τ.trans (Equiv.swap m j), fun l hl => ?_, fun l => ?_⟩
      · obtain ⟨n, rfl⟩ : ∃ r, n = r + 1 := ⟨n - 1, by omega⟩
        rw [hcall, ha' n (by omega)]
      · have hin (i : ℤ) (hi : ReflTransGen Child m i) : InSubtree j i := .head hgoes.child hi
        have hlj : l ≠ j := by
          rintro rfl
          exact hl ⟨.refl, hlt⟩
        have hlm : l ≠ m := by
          rintro rfl
          exact hl ⟨hin _ .refl, hmlen⟩
        rw [Equiv.trans_apply, hτ l fun hlm => hl ⟨hin l hlm.1, hlm.2⟩,
          Equiv.swap_apply_of_ne_of_ne hlm hlj]
      · rw [hload, hσ]
        rfl

/-- A call that comes back has computed the indices of all places on the path. -/
theorem fits_of_adjust {n : ℕ} (hj : 0 ≤ j) (hlt : j < len) (hlen : len ≤ a.length)
    (hint : len < 2 ^ 31) (he : load a j = some e) (h : adjust key n a len j = some a')
    (hk : ReflTransGen (GoesTo key a len (key e)) j k) : 2 * k + 2 < 2 ^ 31 := by
  induction n generalizing a j with
  | zero => cases h
  | succ n ih =>
    have hfits : 2 * j + 2 < 2 ^ 31 := by
      by_contra hover
      rw [adjust_overflow hlt hint (not_lt.mp hover)] at h
      cases h
    rcases ReflTransGen.cases_head hk with rfl | ⟨m', hgoes', hpath⟩
    · exact hfits
    · rcases adjust_step key hj hlt hlen hfits he with
        ⟨hbelow, -⟩ | ⟨m, a₁, hgoes, -, hperm, hσ, hcall⟩
      · exact absurd (hbelow m' hgoes'.child hgoes'.lt) (hgoes'.not_below he)
      · obtain rfl := hgoes.unique hgoes'
        have hjm := hgoes.child.lt hj
        obtain ⟨hmoved, hbehind⟩ := load_moved hgoes.child hj hσ
        exact ih (by omega) hgoes.lt (by rwa [hperm.length_eq]) (hmoved.trans he) (hcall n ▸ h)
          (path_congr hpath (by omega) hbehind)

end Sifting

/-- `adjust` sifts the subtree when, at each place that its root sinks through, the indices of
the children fit into an `int`. -/
theorem sifts_iff (h : Adjustable key a len index) :
    Sifts key a len index ↔ ∀ j, SinksTo key a len index j → 2 * j + 2 < 2 ^ 31 := by
  have hlt := h.lt
  have hlen := h.le_length
  obtain ⟨e, he⟩ := exists_load h.nonneg (hlt.trans_le hlen)
  constructor
  · rintro ⟨n₀, a', -, ha'⟩ j ⟨e', he', hpath⟩
    obtain rfl := Option.some.inj (he.symm.trans he')
    exact fits_of_adjust h.nonneg hlt hlen h.fits he (ha' n₀ le_rfl) hpath
  · intro hfits
    obtain ⟨a', ha', hheap, hmoved⟩ := adjust_sinks (S := InSubtree index)
      (fun i c hi hc => hi.tail hc) .refl h.nonneg hlt hlen he h.sinking
      fun j hj => hfits j ⟨e, he, hj⟩
    exact ⟨(len - index).toNat, a', ⟨hheap, hmoved⟩, fun n hn => ha' n (by omega)⟩

/-- The root of the left subtree of three. -/
def fourHeap : List ℕ := [9, 1, 7, 5, 3]

theorem adjustable_fourHeap : Adjustable id fourHeap 5 1 where
  nonneg := by decide
  lt := by decide
  le_length := by decide
  fits := by decide
  heaps c hc := by
    unfold Child at hc
    exact heapAt_of_le (by omega) (by omega)

theorem sifts_iff_fourHeap :
    Sifts id fourHeap 5 1 ↔ ∀ j, SinksTo id fourHeap 5 1 j → 2 * j + 2 < 2 ^ 31 :=
  sifts_iff adjustable_fourHeap

/-- A vector of 2^30 elements. The last one is the only child of its parent. -/
def hugeHeap : List ℕ := List.replicate (2 ^ 30 - 1) 0 ++ [1]

theorem adjustable_hugeHeap : Adjustable id hugeHeap (2 ^ 30) (2 ^ 29 - 1) where
  nonneg := by decide
  lt := by decide
  le_length := by
    rw [hugeHeap, List.length_append, List.length_replicate]
    decide
  fits := by decide
  heaps c hc := by
    unfold Child at hc
    exact heapAt_of_le (by omega) (by omega)

theorem not_sifts_hugeHeap :
    Adjustable id hugeHeap (2 ^ 30) (2 ^ 29 - 1) ∧ ¬ Sifts id hugeHeap (2 ^ 30) (2 ^ 29 - 1) := by
  refine ⟨adjustable_hugeHeap, fun ⟨n₀, a', _, ha'⟩ => ?_⟩
  have hlast : load hugeHeap (2 ^ 30 - 1) = some 1 := by
    have hat := load_at (List.replicate (2 ^ 30 - 1) 0) 1 []
    rwa [List.length_replicate] at hat
  have hzero : load hugeHeap (2 ^ 29 - 1) = some 0 := by
    have hnat : (2 ^ 29 - 1 : ℤ) = ((2 ^ 29 - 1 : ℕ) : ℤ) := rfl
    rw [hugeHeap, load_append (by rw [List.length_replicate]; decide), hnat, load_nat,
      List.getElem?_replicate, if_pos (by decide)]
  have hgoes : GoesTo id hugeHeap (2 ^ 30) (id 0) (2 ^ 29 - 1) (2 ^ 30 - 1) := by
    refine ⟨.inl (by decide), by decide, ⟨1, hlast, by decide⟩, fun c hc hclen => ?_,
      fun h => absurd h (by decide)⟩
    obtain rfl : c = 2 ^ 30 - 1 := by
      unfold Child at hc
      omega
    exact .refl id hugeHeap _
  have hfits := fits_of_adjust (by decide) (by decide) adjustable_hugeHeap.le_length (by decide)
    hzero (ha' n₀ le_rfl) (.single hgoes)
  omega

end Vs17.Sort
