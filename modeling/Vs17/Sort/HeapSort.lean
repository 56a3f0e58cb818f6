import Vs17.Sort.Exchange

/-! # Heap sort

`adjust` lets an element sink below its larger children. `heapSort` first makes the array a
heap from the last parent down to the root, then takes the root off again and again: behind
the shrinking heap stands a growing sorted part that nothing in the heap is above.
-/

namespace Vs17.Sort

open Arrays Counted Ints

variable {α κ : Type} [LinearOrder κ] (key : α → κ)

/-- `if (child < len && arr[child] > arr[maxIdx]) maxIdx = child;` -/
def larger (arr : List α) (len child maxIdx : ℤ) : Option ℤ :=
  if child < len then do
    let x ← load arr child
    let y ← load arr maxIdx
    return if key x > key y then child else maxIdx
  else some maxIdx

/-- `adjust`, with at most the given number of calls below one another. -/
def adjust : ℕ → List α → ℤ → ℤ → Option (List α)
  | 0, _, _, _ => none
  | r + 1, arr, len, index => do
    let left := toInt32 (2 * index + 1)
    let right := toInt32 (2 * index + 2)
    let maxIdx ← larger key arr len left index
    let maxIdx ← larger key arr len right maxIdx
    if maxIdx ≠ index then do
      let arr ← swap arr maxIdx index
      adjust r arr len maxIdx
    else some arr

/-- `swap(arr[0], arr[i]); adjust(arr, i, 0);` -/
def extract (r : ℕ) (i : ℤ) (arr : List α) : Option (List α) := do
  let arr ← swap arr 0 i
  adjust key r arr i 0

/-- The calls of `adjust` go to larger and larger indices, so one an element is enough. -/
def heapSort (arr : List α) : Option (List α) := do
  let size := toInt32 arr.length
  let heap ← forDown (fun i s => adjust key arr.length s size i) (size.tdiv 2) 0 arr
  forDown (extract key arr.length) size 1 heap

section Heap

variable {key} {a a' : List α} {len i j c : ℤ}

def Child (i c : ℤ) : Prop :=
  c = 2 * i + 1 ∨ c = 2 * i + 2

def HeapFrom (key : α → κ) (a : List α) (len first : ℤ) : Prop :=
  ∀ i c, first ≤ i → Child i c → c < len → Below key a c i

/-- The heap order for the parents in a set of indices. -/
def HeapOn (key : α → κ) (a : List α) (len : ℤ) (S : ℤ → Prop) : Prop :=
  ∀ i c, S i → Child i c → c < len → Below key a c i

/-- The heap order with the element at one index possibly too small: it is not counted as a
parent, and its children are compared with its own parent. -/
structure Sinking (key : α → κ) (a : List α) (len : ℤ) (S : ℤ → Prop) (index : ℤ) : Prop where
  heap : ∀ i c, S i → i ≠ index → Child i c → c < len → Below key a c i
  skip : ∀ p c, S p → Child p index → Child index c → c < len → Below key a c p

theorem HeapFrom.root (h : HeapFrom key a len 0) (hlen : len ≤ a.length) (hj : 0 ≤ j)
    (hjlen : j < len) : Below key a j 0 := by
  induction hn : j.toNat using Nat.strongRecOn generalizing j with
  | ind n ih =>
    rcases hj.eq_or_lt with rfl | hpos
    · exact .refl key a 0
    · have hparent : Child ((j - 1) / 2) j := by
        unfold Child
        omega
      have hup := h ((j - 1) / 2) j (by omega) hparent hjlen
      exact hup.trans (ih _ (by omega) (by omega) (by omega) rfl) (by omega) (by omega)

theorem Sinking.done {S : ℤ → Prop} (h : Sinking key a len S j)
    (hfirst : ∀ c, Child j c → c < len → Below key a c j) : HeapOn key a len S := by
  intro p c hp hc hlen
  by_cases hpj : p = j
  · rw [hpj] at hc ⊢
    exact hfirst c hc hlen
  · exact h.heap p c hp hpj hc hlen

theorem Sinking.move {S : ℤ → Prop} {m : ℤ} (h : Sinking key a len S j) (hj : 0 ≤ j)
    (hSm : S m) (hm : Child j m) (hmlen : m < len) (hjm : Below key a j m)
    (hgreatest : ∀ c, Child j c → c < len → Below key a c m)
    (hσ : ∀ l, load a' l = load a (Equiv.swap m j l)) : Sinking key a' len S m := by
  unfold Child at hm
  constructor
  · intro p c hp hpm hc hclen
    apply Below.rename hσ
    unfold Child at hc
    rw [Equiv.swap_apply_def, Equiv.swap_apply_def, if_neg hpm]
    split_ifs with hcm hpj hcj hpj hpj
    · exact hjm
    · omega
    · omega
    -- above the hole its parent is compared with the child that moves up
    · subst hcj
      exact h.skip p m hp hc hm hmlen
    · exact hgreatest c (by rwa [hpj] at hc) hclen
    · exact h.heap p c hp hpj hc hclen
  · intro p c hp hpm hc hclen
    unfold Child at hpm hc
    obtain rfl : p = j := by omega
    apply Below.rename hσ
    rw [Equiv.swap_apply_right, Equiv.swap_apply_of_ne_of_ne (by omega) (by omega)]
    exact h.heap m c hSm (by omega) hc hclen

/-- Behind the heap the elements are sorted and nothing before them is above them. -/
def Zones (key : α → κ) (a : List α) (len : ℤ) : Prop :=
  ∀ i j, 0 ≤ i → i < j → len ≤ j → j < a.length → Below key a i j

theorem Zones.swap (h : Zones key a len) (hi : 0 ≤ i) (hilen : i < len) (hj : 0 ≤ j)
    (hjlen : j < len) (hlen : a'.length = a.length)
    (hσ : ∀ l, load a' l = load a (Equiv.swap i j l)) : Zones key a' len := by
  intro p q hp hpq hq hqlen
  apply Below.rename hσ
  rw [Equiv.swap_apply_of_ne_of_ne (by omega : q ≠ i) (by omega), Equiv.swap_apply_def]
  rw [hlen] at hqlen
  split_ifs
  · exact h j q hj (by omega) hq hqlen
  · exact h i q hi (by omega) hq hqlen
  · exact h p q hp hpq hq hqlen

end Heap

section Adjust

variable {key} {a : List α} {len index first : ℤ} {r : ℕ}

variable (key) in
theorem larger_spec {child m : ℤ} (hm : 0 ≤ m) (hmlen : m < a.length) (hc : 0 ≤ child)
    (hlen : len ≤ a.length) : ∃ m', larger key a len child m = some m' ∧
      (m' = m ∨ m' = child ∧ child < len) ∧ Below key a m m' ∧
      (child < len → Below key a child m') := by
  rw [larger]
  split
  · rename_i hclen
    obtain ⟨x, hx⟩ := exists_load hc (by omega : child < a.length)
    obtain ⟨y, hy⟩ := exists_load hm hmlen
    simp only [hx, hy, Option.bind_eq_bind, Option.bind_some]
    split
    · rename_i hlt
      have hbelow : Below key a m child := .of_load hy hx hlt.le
      exact ⟨child, rfl, .inr ⟨rfl, hclen⟩, hbelow, fun _ => .refl key a child⟩
    · rename_i hle
      have hbelow : Below key a child m := .of_load hx hy (not_lt.mp hle)
      exact ⟨m, rfl, .inl rfl, .refl key a m, fun _ => hbelow⟩
  · rename_i hclen
    exact ⟨m, rfl, .inl rfl, .refl key a m, fun h => absurd h hclen⟩

variable (key) in
theorem maxIdx_spec (hi : 0 ≤ index) (hilen : index < len) (hlen : len ≤ a.length) :
    ∃ m₁ m, larger key a len (2 * index + 1) index = some m₁ ∧
      larger key a len (2 * index + 2) m₁ = some m ∧ m₁ < len ∧ m < len ∧
      (m = index ∨ Child index m) ∧ Below key a index m ∧
      ∀ c, Child index c → c < len → Below key a c m := by
  obtain ⟨m₁, hm₁, hwhich₁, hbelow₁, hleft⟩ := larger_spec key (a := a) hi (by omega)
    (by omega : 0 ≤ 2 * index + 1) hlen
  obtain ⟨m, hm, hwhich, hbelow, hright⟩ := larger_spec key (a := a) (m := m₁) (by omega)
    (by omega) (by omega : 0 ≤ 2 * index + 2) hlen
  refine ⟨m₁, m, hm₁, hm, by omega, by omega, ?_, hbelow₁.trans hbelow (by omega) (by omega), ?_⟩
  · unfold Child
    omega
  · rintro c (rfl | rfl) hclen
    · exact (hleft hclen).trans hbelow (by omega) (by omega)
    · exact hright hclen

theorem adjust_succ (hi : 0 ≤ index) (hsize : 2 * index + 2 < 2 ^ 31) :
    adjust key (r + 1) a len index = (do
      let m₁ ← larger key a len (2 * index + 1) index
      let m ← larger key a len (2 * index + 2) m₁
      if m ≠ index then do
        let a ← swap a m index
        adjust key r a len m
      else some a) := by
  rw [adjust, toInt32_eq (by omega) (by omega), toInt32_eq (by omega) (by omega)]

variable (key) in
/-- `adjust` comes back, turns a heap with one element out of place into a heap, and only
moves elements inside it. -/
theorem adjust_spec (hfirst : 0 ≤ first) (hi : first ≤ index) (hilen : index < len)
    (hlen : len ≤ a.length) (hsize : 2 * len < 2 ^ 31) (hr : len - index ≤ r) :
    ∃ a', adjust key r a len index = some a' ∧ a'.Perm a ∧
      (Sinking key a len (first ≤ ·) index → Zones key a len →
        HeapFrom key a' len first ∧ Zones key a' len) := by
  induction r generalizing a index with
  | zero => omega
  | succ r ih =>
    obtain ⟨m₁, m, hm₁, hm, _, hmlen, hwhich, hbelow, hgreatest⟩ :=
      maxIdx_spec key (by omega) hilen hlen
    rw [adjust_succ (by omega) (by omega)]
    simp only [hm₁, hm, Option.bind_eq_bind, Option.bind_some]
    split
    · rename_i hne
      have hchild : Child index m := hwhich.resolve_left hne
      have hlt : index < m := by
        unfold Child at hchild
        omega
      obtain ⟨s, hswap, hperm, hσ⟩ := swap_spec (a := a) (i := m) (j := index) (by omega)
        (by omega) (by omega) (by omega)
      have hslen := hperm.length_eq
      obtain ⟨a', ha', hperm', hspec⟩ := ih (a := s) (by omega) hmlen (by omega) (by omega)
      refine ⟨a', by rw [hswap, Option.bind_some, ha'], hperm'.trans hperm, fun hs hz => ?_⟩
      apply hspec
      · exact hs.move (by omega) (hi.trans hlt.le) hchild hmlen hbelow hgreatest hσ
      · exact hz.swap (by omega) hmlen (by omega) hilen hslen hσ
    · rename_i heq
      obtain rfl := not_not.mp heq
      exact ⟨a, rfl, .refl a, fun hs hz => ⟨hs.done hgreatest, hz⟩⟩

/-- What lies behind the heap does not matter to `adjust`: it reads and writes inside the
heap. -/
theorem adjust_append (hi : 0 ≤ index) (hilen : index < len) (hlen : len ≤ a.length)
    (hsize : 2 * len < 2 ^ 31) (rest : List α) :
    adjust key r (a ++ rest) len index = (adjust key r a len index).map (· ++ rest) := by
  induction r generalizing a index with
  | zero => rfl
  | succ r ih =>
    have hlarger : ∀ child m, m < len →
        larger key (a ++ rest) len child m = larger key a len child m := by
      intro child m hm
      by_cases hc : child < len
      · simp only [larger, load_append (by omega : child < a.length),
          load_append (by omega : m < a.length)]
      · rw [larger, larger, if_neg hc, if_neg hc]
    obtain ⟨m₁, m, hm₁, hm, hm₁len, hmlen, hwhich, _⟩ := maxIdx_spec key hi hilen hlen
    rw [adjust_succ hi (by omega), adjust_succ hi (by omega), hlarger _ _ hilen, hm₁]
    simp only [Option.bind_eq_bind, Option.bind_some, hlarger _ _ hm₁len, hm]
    split
    · rename_i hne
      have hchild := hwhich.resolve_left hne
      unfold Child at hchild
      obtain ⟨s, hswap, hperm, _⟩ := swap_spec (a := a) (i := m) (j := index) (by omega)
        (by omega) (by omega) (by omega)
      have hslen := hperm.length_eq
      rw [swap_append (by omega) (by omega), hswap, Option.map_some, Option.bind_some,
        Option.bind_some]
      exact ih (by omega) hmlen (by omega)
    · rfl

end Adjust

section HeapSort

variable {key} {a : List α}

theorem heapFrom_half (key : α → κ) (a : List α) (n : ℤ) : HeapFrom key a n (n / 2) := by
  intro i c hi hc hlen
  unfold Child at hc
  omega

theorem Sinking.of_next {len i : ℤ} (hi : 0 ≤ i) (h : HeapFrom key a len (i + 1)) :
    Sinking key a len (i ≤ ·) i := by
  constructor
  · intro p c hp hpi hc hlen
    exact h p c (by omega) hc hlen
  · intro p c hp hpi hc hlen
    unfold Child at hpi
    omega

variable (key) in
theorem build_spec (hsize : 2 * (a.length : ℤ) < 2 ^ 31) :
    ∃ a', forDown (fun i s => adjust key a.length s a.length i) (a.length / 2) 0 a = some a' ∧
      a'.Perm a ∧ HeapFrom key a' a.length 0 := by
  apply forDown_keeps (fun i s => adjust key a.length s a.length i)
    (fun i s => s.Perm a ∧ HeapFrom key s a.length i) ⟨.refl a, heapFrom_half key a _⟩ (by omega)
  rintro i s hi hilen ⟨hperm, hheap⟩
  have hlen := hperm.length_eq
  obtain ⟨s', hs', hperm', hspec⟩ := adjust_spec key (a := s) (r := a.length) hi le_rfl
    (by omega : i < a.length) (by omega) hsize (by omega)
  have hzones : Zones key s a.length := by
    intro p q _ _ hq hqlen
    omega
  exact ⟨s', hs', hperm'.trans hperm, (hspec (.of_next hi hheap) hzones).1⟩

/-- A round of the second phase moves a greatest element of the heap in front of the sorted
part. -/
theorem extract_spec {i : ℤ} {r : ℕ} (hi : 0 < i) (hilen : i < a.length)
    (hsize : 2 * (a.length : ℤ) < 2 ^ 31) (hr : a.length ≤ r) (hheap : HeapFrom key a (i + 1) 0)
    (hzones : Zones key a (i + 1)) : ∃ a', extract key r i a = some a' ∧ a'.Perm a ∧
      HeapFrom key a' i 0 ∧ Zones key a' i := by
  obtain ⟨s, hs, hperm, hσ⟩ := swap_spec (a := a) le_rfl (by omega : (0 : ℤ) < a.length) hi.le hilen
  have hlen := hperm.length_eq
  have hsinking : Sinking key s i (0 ≤ ·) 0 := by
    constructor
    · intro p c hp hp0 hc hclen
      unfold Child at hc
      apply Below.rename hσ
      rw [Equiv.swap_apply_of_ne_of_ne (by omega) (by omega),
        Equiv.swap_apply_of_ne_of_ne (by omega) (by omega)]
      exact hheap p c hp hc (by omega)
    · intro p c hp hp0
      unfold Child at hp0
      omega
  have hzones' : Zones key s i := by
    intro p q hp hpq hq hqlen
    apply Below.rename hσ
    rcases hq.eq_or_lt with rfl | hlt
    · rw [Equiv.swap_apply_right, Equiv.swap_apply_def]
      apply hheap.root (by omega)
      · split_ifs <;> omega
      · split_ifs <;> omega
    · rw [Equiv.swap_apply_of_ne_of_ne (by omega : q ≠ 0) (by omega), Equiv.swap_apply_def]
      apply hzones _ q _ _ (by omega) (by omega)
      · split_ifs <;> omega
      · split_ifs <;> omega
  obtain ⟨a', ha', hperm', hspec⟩ := adjust_spec key (a := s) (r := r) le_rfl le_rfl hi
    (by omega) (by omega) (by omega)
  exact ⟨a', by simp [extract, hs, ha'], hperm'.trans hperm, hspec hsinking hzones'⟩

theorem Zones.sorted (h : Zones key a 1) : a.Pairwise (key · ≤ key ·) :=
  sorted_of_below fun i j hi hij hj => h i j hi hij (by omega) hj

variable (key) in
theorem heapSort_spec (hsize : 2 * (a.length : ℤ) < 2 ^ 31) : ∃ a', heapSort key a = some a' ∧
    a'.Perm a ∧ a'.Pairwise (key · ≤ key ·) := by
  obtain ⟨s, hs, hperm, hheap⟩ := build_spec key hsize
  have hstart : heapSort key a = forDown (extract key a.length) a.length 1 s := by
    rw [heapSort, toInt32_eq (by omega) (by omega), Int.tdiv_eq_ediv_of_nonneg (by omega), hs]
    rfl
  rw [hstart]
  rcases Nat.eq_zero_or_pos a.length with h0 | hpos
  · have hnil : s = [] := List.length_eq_zero_iff.mp (hperm.length_eq.trans h0)
    subst hnil
    exact ⟨[], forDown_of_le (by omega), hperm, .nil⟩
  · obtain ⟨a', ha', hperm', _, hzones⟩ := forDown_keeps (extract key a.length)
      (fun i s => s.Perm a ∧ HeapFrom key s i 0 ∧ Zones key s i)
      ⟨hperm, hheap, fun p q _ _ hq hqlen => by
        have hlen := hperm.length_eq
        omega⟩
      (by omega : 1 ≤ (a.length : ℤ)) fun i s hi hilen ⟨hperm, hheap, hzones⟩ => by
        have hlen := hperm.length_eq
        obtain ⟨s', hs', hperm', hspec⟩ := extract_spec (r := a.length) (by omega)
          (by omega : i < s.length) (by omega) hlen.le hheap hzones
        exact ⟨s', hs', hperm'.trans hperm, hspec⟩
    exact ⟨a', ha', hperm', hzones.sorted⟩

/-- Each round of the second phase, whatever the array: the exchange stays in the heap, and
`adjust` in the heap without its last place. -/
theorem extract_inside {heap : List α} (hheap : heap ≠ []) (x : α) (rest : List α) {r : ℕ}
    (hr : heap.length ≤ r) (hsize : 2 * (heap.length : ℤ) < 2 ^ 31) :
    ∃ heap₁ y heap₂, swap (heap ++ [x]) 0 heap.length = some (heap₁ ++ [y]) ∧
      heap₁.length = heap.length ∧ adjust key r heap₁ heap.length 0 = some heap₂ ∧
      extract key r heap.length (heap ++ [x] ++ rest) = some (heap₂ ++ [y] ++ rest) := by
  have hpos := List.length_pos_iff.mpr hheap
  have hlen : (heap ++ [x]).length = heap.length + 1 := by simp
  obtain ⟨s, hs, hperm, _⟩ := swap_spec (a := heap ++ [x]) (i := 0) (j := heap.length) le_rfl
    (by omega) (by omega) (by omega)
  have hslen := hperm.length_eq
  obtain ⟨heap₁, y, rfl⟩ := (List.eq_nil_or_concat' s).resolve_left (by
    rintro rfl
    simp at hslen)
  have hlen₁ : heap₁.length = heap.length := by
    simpa using hslen
  obtain ⟨heap₂, hadjust, _⟩ := adjust_spec key (a := heap₁) (r := r) le_rfl le_rfl
    (by omega : (0 : ℤ) < heap.length) (by omega) hsize (by omega)
  refine ⟨heap₁, y, heap₂, hs, hlen₁, hadjust, ?_⟩
  rw [extract, swap_append (by omega) (by omega), hs, Option.map_some, Option.bind_eq_bind,
    Option.bind_some, List.append_assoc, adjust_append le_rfl (by omega) (by omega) hsize, hadjust]
  simp

/-- In every round of the second phase on a vector of this size the exchange accesses the heap
only, and `adjust` the heap without its last place: both do the same when nothing follows. -/
def RoundsInside (key : α → κ) (size : ℕ) : Prop :=
  ∀ heap x rest, heap ≠ [] → (heap ++ [x] ++ rest).length = size →
    ∃ heap₁ y heap₂, swap (heap ++ [x]) 0 heap.length = some (heap₁ ++ [y]) ∧
      heap₁.length = heap.length ∧ adjust key size heap₁ heap.length 0 = some heap₂ ∧
      extract key size heap.length (heap ++ [x] ++ rest) = some (heap₂ ++ [y] ++ rest)

variable (key) in
/-- `heapSort` sorts every vector whose doubled size fits into an `int`, without an access
outside the vector or, in the second phase, outside the heap. -/
theorem heapSort_sorts (arr : List α) (hsize : 2 * (arr.length : ℤ) < 2 ^ 31) :
    (∃ arr', heapSort key arr = some arr' ∧ arr'.Perm arr ∧ arr'.Pairwise (key · ≤ key ·)) ∧
    RoundsInside key arr.length := by
  refine ⟨heapSort_spec key hsize, fun heap x rest hheap hlen => ?_⟩
  rw [List.length_append, List.length_append] at hlen
  exact extract_inside hheap x rest (by omega) (by omega)

theorem heapSort_sorts_five :
    (∃ arr', heapSort (id : ℕ → ℕ) [3, 1, 4, 1, 5] = some arr' ∧ arr'.Perm [3, 1, 4, 1, 5] ∧
      arr'.Pairwise (id · ≤ id ·)) ∧ RoundsInside (id : ℕ → ℕ) 5 :=
  heapSort_sorts id [3, 1, 4, 1, 5] (by decide)

end HeapSort

example : heapSort id [3, 1, 4, 1, 5, 9, 2, 6] = some [1, 1, 2, 3, 4, 5, 6, 9] := by decide +kernel

end Vs17.Sort
