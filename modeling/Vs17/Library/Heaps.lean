import Mathlib.Data.List.Basic
import Mathlib.Data.Set.Basic

/-! # Blocks of memory that have owners

Memory is given out in blocks, and a block is live until it is released. No address is given out
twice. An owner can release what it owns at once.
-/

namespace Vs17

structure Heap (ω β : Type*) where
  blocks : List (Option (ω × β))
  deriving DecidableEq, Repr

namespace Heap

variable {ω β : Type*} (h : Heap ω β)

def empty : Heap ω β := ⟨[]⟩

/-- The address that is given out next. -/
def top : ℕ := h.blocks.length

/-- The live block at an address, and its owner. -/
def block? (a : ℕ) : Option (ω × β) := h.blocks[a]?.join

def alloc (o : ω) (b : β) : Heap ω β := ⟨h.blocks ++ [some (o, b)]⟩

/-- What is in a live block is changed. -/
def modify (a : ℕ) (f : β → β) : Heap ω β :=
  ⟨h.blocks.modify a (Option.map (Prod.map id f))⟩

def release (a : ℕ) : Heap ω β := ⟨h.blocks.set a none⟩

def releaseOwned [DecidableEq ω] (o : ω) : Heap ω β :=
  ⟨h.blocks.map (Option.filter fun b => b.1 ≠ o)⟩

variable {h} {k l : Heap ω β} {o o' : ω} {b c : β} {f : β → β} {a n : ℕ} {x : ω × β}

@[ext]
theorem ext_blocks (hb : h.blocks = k.blocks) : h = k := by
  cases h
  cases k
  exact congrArg mk hb

theorem lt_top (ha : h.block? a = some x) : a < h.top := by
  by_contra hlt
  unfold block? at ha
  rw [List.getElem?_eq_none (not_lt.mp hlt)] at ha
  cases ha

@[simp]
theorem top_alloc : (h.alloc o b).top = h.top + 1 := by
  unfold top alloc
  exact List.length_append

@[simp]
theorem top_modify : (h.modify a f).top = h.top := by
  unfold top modify
  exact List.length_modify ..

@[simp]
theorem top_release : (h.release a).top = h.top := by
  unfold top release
  exact List.length_set

@[simp]
theorem top_releaseOwned [DecidableEq ω] : (h.releaseOwned o).top = h.top := by
  unfold top releaseOwned
  exact List.length_map ..

@[simp]
theorem block?_empty : (empty : Heap ω β).block? a = none := rfl

theorem block?_alloc :
    (h.alloc o b).block? n = if n = h.top then some (o, b) else h.block? n := by
  unfold block? alloc
  split_ifs with hn
  · rw [hn, top, List.getElem?_concat_length]
    rfl
  · rcases Nat.lt_or_gt_of_ne hn with hlt | hgt
    · rw [List.getElem?_append_left hlt]
    · have hlen : (h.blocks ++ [some (o, b)]).length ≤ n := by
        rw [List.length_append]
        exact hgt
      rw [List.getElem?_eq_none hlen, List.getElem?_eq_none hgt.le]

@[simp]
theorem block?_alloc_top : (h.alloc o b).block? h.top = some (o, b) := by
  rw [block?_alloc, if_pos rfl]

theorem block?_modify : (h.modify a f).block? n =
    if n = a then (h.block? n).map (Prod.map id f) else h.block? n := by
  unfold block? modify
  rw [List.getElem?_modify]
  split_ifs with h1 h2 h2
  · cases h.blocks[n]? <;> rfl
  · exact absurd h1.symm h2
  · exact absurd h2.symm h1
  · cases h.blocks[n]? <;> rfl

theorem block?_modify_of_ne (hn : n ≠ a) : (h.modify a f).block? n = h.block? n := by
  rw [block?_modify, if_neg hn]

theorem block?_release : (h.release a).block? n = if n = a then none else h.block? n := by
  unfold block? release
  by_cases hn : a = n
  · rw [if_pos hn.symm, hn, List.getElem?_set_self']
    cases h.blocks[n]? <;> rfl
  · rw [if_neg (Ne.symm hn), List.getElem?_set_ne hn]

theorem block?_releaseOwned [DecidableEq ω] :
    (h.releaseOwned o).block? n = (h.block? n).filter fun b => b.1 ≠ o := by
  unfold block? releaseOwned
  rw [List.getElem?_map]
  cases h.blocks[n]? <;> rfl

theorem block?_releaseOwned_eq_some [DecidableEq ω] :
    (h.releaseOwned o).block? n = some x ↔ h.block? n = some x ∧ x.1 ≠ o := by
  rw [block?_releaseOwned, Option.filter_eq_some_iff]
  simp

/-! ### What is kept -/

/-- The live blocks at these addresses stay as they are. -/
def Keeps (R : Set ℕ) (h k : Heap ω β) : Prop :=
  ∀ a ∈ R, ∀ x, h.block? a = some x → k.block? a = some x

theorem Keeps.refl (R : Set ℕ) : Keeps R h h := fun _ _ _ ha => ha

theorem Keeps.trans {R : Set ℕ} (h₁ : Keeps R h k) (h₂ : Keeps R k l) : Keeps R h l :=
  fun a ha x hx => h₂ a ha x (h₁ a ha x hx)

theorem Keeps.mono {R S : Set ℕ} (hk : Keeps S h k) (hRS : R ⊆ S) : Keeps R h k :=
  fun a ha => hk a (hRS ha)

theorem keeps_alloc (R : Set ℕ) : Keeps R h (h.alloc o b) := by
  intro n _ x hx
  rw [block?_alloc, if_neg (lt_top hx).ne, hx]

theorem keeps_release {R : Set ℕ} (ha : a ∉ R) : Keeps R h (h.release a) := by
  intro n hn x hx
  have hna : n ≠ a := fun hna => ha (hna ▸ hn)
  rw [block?_release, if_neg hna, hx]

/-- Live blocks at addresses in `R` stay as they are, and their addresses are in `S`. -/
def Moves (R S : Set ℕ) (h k : Heap ω β) : Prop :=
  ∀ a ∈ R, ∀ x, h.block? a = some x → a ∈ S ∧ k.block? a = some x

theorem Keeps.moves {R S : Set ℕ} (hk : Keeps R h k) (hRS : R ⊆ S) : Moves R S h k :=
  fun a ha x hx => ⟨hRS ha, hk a ha x hx⟩

/-! ### What an owner gets -/

/-- From `h` to `k`, nothing changes but that an owner gets new blocks. -/
structure Grows (o : ω) (h k : Heap ω β) : Prop where
  top_le : h.top ≤ k.top
  old : ∀ a < h.top, k.block? a = h.block? a
  new : ∀ a, h.top ≤ a → a < k.top → ∃ b, k.block? a = some (o, b)

theorem Grows.refl (o : ω) (h : Heap ω β) : Grows o h h where
  top_le := le_rfl
  old _ _ := rfl
  new a h₁ h₂ := by omega

theorem Grows.trans (h₁ : Grows o h k) (h₂ : Grows o k l) : Grows o h l where
  top_le := h₁.top_le.trans h₂.top_le
  old a ha := (h₂.old a (ha.trans_le h₁.top_le)).trans (h₁.old a ha)
  new a ha hal := by
    rcases Nat.lt_or_ge a k.top with hak | hak
    · obtain ⟨b, hb⟩ := h₁.new a ha hak
      exact ⟨b, (h₂.old a hak).trans hb⟩
    · exact h₂.new a hak hal

theorem grows_alloc : Grows o h (h.alloc o b) where
  top_le := by
    rw [top_alloc]
    exact Nat.le_succ _
  old a ha := by rw [block?_alloc, if_neg ha.ne]
  new a ha hal := by
    rw [top_alloc] at hal
    obtain rfl : a = h.top := by omega
    exact ⟨b, block?_alloc_top⟩

theorem Grows.keeps (hk : Grows o h k) (R : Set ℕ) : Keeps R h k :=
  fun a _ _ ha => (hk.old a (lt_top ha)).trans ha

/-- From `h` to `k`, nothing changes but that an owner gets new blocks and changes what is in the
block at `a`. -/
structure Fills (o : ω) (a : ℕ) (h k : Heap ω β) : Prop where
  top_le : h.top ≤ k.top
  old : ∀ n < h.top, n ≠ a → k.block? n = h.block? n
  new : ∀ n, h.top ≤ n → n < k.top → ∃ b, k.block? n = some (o, b)
  block : ∀ b, h.block? a = some (o, b) → ∃ c, k.block? a = some (o, c)

theorem Grows.fills (hk : Grows o h k) : Fills o a h k where
  top_le := hk.top_le
  old n hn _ := hk.old n hn
  new := hk.new
  block b hb := ⟨b, (hk.old a (lt_top hb)).trans hb⟩

theorem fills_modify : Fills o a h (h.modify a f) where
  top_le := top_modify.ge
  old n _ hn := block?_modify_of_ne hn
  new n hn hnk := by
    rw [top_modify] at hnk
    omega
  block b hb := ⟨f b, by rw [block?_modify, if_pos rfl, hb]; rfl⟩

theorem Fills.trans (h₁ : Fills o a h k) (h₂ : Fills o a k l) : Fills o a h l where
  top_le := h₁.top_le.trans h₂.top_le
  old n hn hna := (h₂.old n (hn.trans_le h₁.top_le) hna).trans (h₁.old n hn hna)
  new n hn hnl := by
    rcases Nat.lt_or_ge n k.top with hnk | hnk
    · obtain ⟨b, hb⟩ := h₁.new n hn hnk
      rcases eq_or_ne n a with rfl | hna
      · exact h₂.block b hb
      · exact ⟨b, (h₂.old n hnk hna).trans hb⟩
    · exact h₂.new n hnk hnl
  block b hb := by
    obtain ⟨c, hc⟩ := h₁.block b hb
    exact h₂.block c hc

theorem Fills.keeps (hk : Fills o a h k) {R : Set ℕ} (ha : a ∉ R) : Keeps R h k := by
  intro n hn x hx
  have hna : n ≠ a := fun hna => ha (hna ▸ hn)
  exact (hk.old n (lt_top hx) hna).trans hx

/-- The block that is filled may be the first of the new ones. -/
theorem Fills.grows (hk : Fills o h.top (h.alloc o b) k) : Grows o h k where
  top_le := by
    have htop := hk.top_le
    rw [top_alloc] at htop
    omega
  old n hn := by
    rw [hk.old n (by rw [top_alloc]; omega) hn.ne, block?_alloc, if_neg hn.ne]
  new n hn hnk := by
    rcases hn.eq_or_lt with rfl | hlt
    · exact hk.block b block?_alloc_top
    · exact hk.new n (by rw [top_alloc]; omega) hnk

/-- The addresses of the blocks of an owner. -/
def owned (o : ω) (h : Heap ω β) : Set ℕ := {a | ∃ b, h.block? a = some (o, b)}

theorem top_notMem_owned : h.top ∉ h.owned o := fun ⟨_, hb⟩ => lt_irrefl _ (lt_top hb)

theorem owned_alloc : (h.alloc o b).owned o = insert h.top (h.owned o) := by
  ext a
  constructor
  · rintro ⟨c, hc⟩
    rw [block?_alloc] at hc
    split_ifs at hc with ha
    · exact .inl ha
    · exact .inr ⟨c, hc⟩
  · rintro (rfl | ⟨c, hc⟩)
    · exact ⟨b, block?_alloc_top⟩
    · exact ⟨c, keeps_alloc {a} a rfl _ hc⟩

theorem owned_release : (h.release a).owned o = h.owned o \ {a} := by
  ext n
  constructor
  · rintro ⟨c, hc⟩
    rw [block?_release] at hc
    split_ifs at hc with hna
    exact ⟨⟨c, hc⟩, hna⟩
  · rintro ⟨⟨c, hc⟩, hna⟩
    refine ⟨c, ?_⟩
    rw [block?_release, if_neg fun h : n = a => hna h, hc]

theorem releaseOwned_alloc [DecidableEq ω] (ho : o ≠ o') :
    (h.alloc o b).releaseOwned o' = (h.releaseOwned o').alloc o b := by
  apply ext_blocks
  unfold releaseOwned alloc
  rw [List.map_append]
  congr 1
  simp [ho]

theorem release_alloc (ha : a < h.top) : (h.alloc o b).release a = (h.release a).alloc o b := by
  apply ext_blocks
  exact List.set_append_left _ _ ha

theorem Grows.owned_of_ne (hk : Grows o h k) (ho : o' ≠ o) : k.owned o' = h.owned o' := by
  ext a
  constructor
  · rintro ⟨b, hb⟩
    rcases Nat.lt_or_ge a h.top with ha | ha
    · exact ⟨b, (hk.old a ha).symm.trans hb⟩
    · obtain ⟨c, hc⟩ := hk.new a ha (lt_top hb)
      rw [hc] at hb
      cases hb
      exact absurd rfl ho
  · rintro ⟨b, hb⟩
    exact ⟨b, (hk.old a (lt_top hb)).trans hb⟩

theorem keeps_releaseOwned [DecidableEq ω] (ho : o' ≠ o) :
    Keeps (h.owned o') h (h.releaseOwned o) := by
  rintro n ⟨c, hc⟩ x hx
  rw [hc] at hx
  cases hx
  exact block?_releaseOwned_eq_some.mpr ⟨hc, ho⟩

theorem owned_releaseOwned [DecidableEq ω] : (h.releaseOwned o).owned o = ∅ := by
  ext a
  constructor
  · rintro ⟨b, hb⟩
    exact absurd rfl (block?_releaseOwned_eq_some.mp hb).2
  · rintro ⟨⟩

theorem owned_releaseOwned_of_ne [DecidableEq ω] (ho : o' ≠ o) :
    (h.releaseOwned o).owned o' = h.owned o' := by
  ext a
  constructor
  · rintro ⟨b, hb⟩
    exact ⟨b, (block?_releaseOwned_eq_some.mp hb).1⟩
  · rintro ⟨b, hb⟩
    exact ⟨b, block?_releaseOwned_eq_some.mpr ⟨hb, ho⟩⟩

end Heap

end Vs17
