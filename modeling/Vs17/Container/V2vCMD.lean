import Mathlib.Data.Set.Basic
import Vs17.Library.CString
import Vs17.Library.Lookup

/-! # The order of the command keys

`compareCMD` compares the strings of two keys for equality, but hands different keys to an
`operator<` that compares the addresses of their arrays. The keys are given by where they are.
-/

namespace Vs17.Container

open CString Lookup Text Trees

structure V2vCMD where
  cmd : Bytes
  subcmd : Bytes
  length_cmd : cmd.length = 8
  length_subcmd : subcmd.length = 8
  zero_mem_cmd : 0 ∈ cmd
  zero_mem_subcmd : 0 ∈ subcmd

namespace V2vCMD

/-- The two strings of a key. -/
def contents (k : V2vCMD) : Bytes × Bytes :=
  (cstr k.cmd, cstr k.subcmd)

/-- `operator<`. The first array is where the key is, the second one 8 bytes behind. -/
def less (lhs rhs : ℕ) : Bool :=
  lhs < rhs ∨ ¬ rhs < lhs ∧ lhs + 8 < rhs + 8

/-- The comparison of the map, for a memory with these keys. -/
def compareCMD (mem : ℕ → V2vCMD) (lhs rhs : ℕ) : Bool :=
  if ¬ (strcmp (mem lhs).cmd (mem rhs).cmd = 0 ∧ strcmp (mem lhs).subcmd (mem rhs).subcmd = 0) then
    less lhs rhs
  else false

/-- The comparison is a strict weak order of the keys at these places by their contents, and a
key in a map of them is found through any copy. -/
structure OrdersByContents (mem : ℕ → V2vCMD) (S : Set ℕ) : Prop where
  contents : ∀ x ∈ S, ∀ y ∈ S, ∀ x' ∈ S, ∀ y' ∈ S, (mem x).contents = (mem x').contents →
    (mem y).contents = (mem y').contents → compareCMD mem x y = compareCMD mem x' y'
  irrefl : ∀ x ∈ S, ¬ compareCMD mem x x
  asymm : ∀ x ∈ S, ∀ y ∈ S, compareCMD mem x y → ¬ compareCMD mem y x
  trans : ∀ x ∈ S, ∀ y ∈ S, ∀ z ∈ S, compareCMD mem x y → compareCMD mem y z → compareCMD mem x z
  incomparable : ∀ x ∈ S, ∀ y ∈ S,
    ¬ compareCMD mem x y ∧ ¬ compareCMD mem y x ↔ (mem x).contents = (mem y).contents
  found : ∀ t, (∀ x ∈ inorder t, x ∈ S) → (inorder t).Pairwise (compareCMD mem · ·) →
    ∀ x ∈ inorder t, ∀ z ∈ S, (mem z).contents = (mem x).contents →
      find (compareCMD mem) z t = some x

/-- The comparison of two keys is the same wherever they are. -/
def AddressFree (k l : V2vCMD) : Prop :=
  ∀ mem mem' p q p' q', mem p = k → mem q = l → mem' p' = k → mem' q' = l →
    compareCMD mem p q = compareCMD mem' p' q'

/-- No key lies between two copies of another one. -/
def Separated (mem : ℕ → V2vCMD) (S : Set ℕ) : Prop :=
  ∀ x ∈ S, ∀ y ∈ S, ∀ z ∈ S, (mem x).contents = (mem z).contents →
    (mem x).contents ≠ (mem y).contents → (x < y ↔ z < y)

variable {mem : ℕ → V2vCMD} {S : Set ℕ} {x y z : ℕ}

theorem compareCMD_iff :
    compareCMD mem x y ↔ (mem x).contents ≠ (mem y).contents ∧ x < y := by
  have hless : less x y = true ↔ x < y := by
    rw [less, decide_eq_true_iff]
    omega
  unfold compareCMD contents
  simp only [strcmp_eq_zero_iff, ne_eq, Prod.mk.injEq]
  split_ifs with hne <;> simp [hne, hless]

/-- Keys with different contents are at different places. -/
theorem ne_of_contents (h : (mem x).contents ≠ (mem y).contents) : x ≠ y := by
  rintro rfl
  exact h rfl

theorem incomparable_iff : ¬ compareCMD mem x y ∧ ¬ compareCMD mem y x ↔
    (mem x).contents = (mem y).contents := by
  rw [compareCMD_iff, compareCMD_iff]
  constructor
  · rintro ⟨hxy, hyx⟩
    by_contra hne
    rcases (ne_of_contents hne).lt_or_gt with hlt | hgt
    · exact hxy ⟨hne, hlt⟩
    · exact hyx ⟨Ne.symm hne, hgt⟩
  · intro heq
    exact ⟨fun h => h.1 heq, fun h => h.1 heq.symm⟩

/-- On each side of the comparison a key may be replaced by a copy. -/
theorem Separated.compareCMD_congr (h : Separated mem S) {x' y' : ℕ} (hx : x ∈ S) (hy : y ∈ S)
    (hx' : x' ∈ S) (hy' : y' ∈ S) (hxx : (mem x).contents = (mem x').contents)
    (hyy : (mem y).contents = (mem y').contents) :
    compareCMD mem x y ↔ compareCMD mem x' y' := by
  rw [compareCMD_iff, compareCMD_iff, ← hxx, ← hyy]
  apply and_congr_right
  intro hne
  have hleft := h x hx y hy x' hx' hxx hne
  have hright := h y hy x' hx' y' hy' hyy (hxx ▸ Ne.symm hne)
  have hxy : x' ≠ y := ne_of_contents (hxx ▸ hne)
  have hxy' : x' ≠ y' := ne_of_contents (hxx ▸ hyy ▸ hne)
  omega

theorem Separated.trans (h : Separated mem S) (hx : x ∈ S) (hy : y ∈ S) (hz : z ∈ S)
    (hxy : compareCMD mem x y) (hyz : compareCMD mem y z) : compareCMD mem x z := by
  rw [compareCMD_iff] at hxy hyz ⊢
  refine ⟨fun heq => ?_, hxy.2.trans hyz.2⟩
  have hside := (h x hx y hy z hz heq hxy.1).mp hxy.2
  omega

/-- The lookup through a copy goes the way of the lookup through the key itself. -/
theorem Separated.find_eq (h : Separated mem S) {t : BinaryTree ℕ} (ht : ∀ x ∈ inorder t, x ∈ S)
    (hsorted : (inorder t).Pairwise (compareCMD mem · ·)) (hx : x ∈ inorder t) (hz : z ∈ S)
    (hcopy : (mem z).contents = (mem x).contents) : find (compareCMD mem) z t = some x := by
  obtain ⟨pre, post, hsplit⟩ := List.append_of_mem hx
  rw [hsplit, List.pairwise_append, List.pairwise_cons] at hsorted
  obtain ⟨-, ⟨hbehind, -⟩, hcross⟩ := hsorted
  have hmem : ∀ y ∈ pre ++ x :: post, y ∈ S := by rwa [← hsplit]
  have hxz := incomparable_iff.mpr hcopy
  apply find_eq_some hsplit
  · intro y hy
    have hyS := hmem y (List.mem_append_left _ hy)
    exact (h.compareCMD_congr hyS (ht x hx) hyS hz rfl hcopy.symm).mp
      (hcross y hy x (List.mem_cons_self ..))
  · exact hxz.2
  · intro y hy hlt
    have hyS := hmem y (List.mem_append_right _ (List.mem_cons_of_mem _ hy))
    have hback := (h.compareCMD_congr hyS (ht x hx) hyS hz rfl hcopy.symm).mpr hlt
    have hforth := hbehind y hy
    rw [compareCMD_iff] at hback hforth
    omega
  · exact hxz.1

theorem ordersByContents_iff : OrdersByContents mem S ↔ Separated mem S := by
  constructor
  · intro h x hx y hy z hz hcopy hne
    have hcomp := h.contents x hx y hy z hz y hy hcopy rfl
    rw [Bool.eq_iff_iff, compareCMD_iff, compareCMD_iff] at hcomp
    simpa [hne, ← hcopy] using hcomp
  · intro h
    constructor
    · intro x hx y hy x' hx' y' hy' hxx hyy
      exact Bool.eq_iff_iff.mpr (h.compareCMD_congr hx hy hx' hy' hxx hyy)
    · intro x _ hcomp
      exact (compareCMD_iff.mp hcomp).1 rfl
    · intro x _ y _ hxy hyx
      rw [compareCMD_iff] at hxy hyx
      omega
    · exact fun x hx y hy z hz => h.trans hx hy hz
    · exact fun x _ y _ => incomparable_iff
    · exact fun t ht hsorted x hx z hz => h.find_eq ht hsorted hx hz

/-- Two keys change their order with their places, unless their contents are equal. -/
theorem addressFree_iff {k l : V2vCMD} : AddressFree k l ↔ k.contents = l.contents := by
  constructor
  · intro h
    by_contra hne
    have hback := h (fun p => if p = 16 then k else l) (fun p => if p = 16 then l else k)
      16 32 32 16 rfl rfl rfl rfl
    rw [Bool.eq_iff_iff, compareCMD_iff, compareCMD_iff] at hback
    simp [hne] at hback
  · rintro heq mem mem' p q p' q' rfl rfl hk hl
    rw [Bool.eq_iff_iff, compareCMD_iff, compareCMD_iff, hk, hl]
    simp [heq]

/-- The order of the keys depends on where they are. It is an order of their contents among those
keys in a memory of which none lies between two copies of another one. -/
theorem compareCMD_contents_iff (mem : ℕ → V2vCMD) (S : Set ℕ) (k l : V2vCMD) :
    (AddressFree k l ↔ k.contents = l.contents) ∧ (OrdersByContents mem S ↔ Separated mem S) :=
  ⟨addressFree_iff, ordersByContents_iff⟩

/-- A key whose two strings are one character and nothing. -/
def ofChar (c : UInt8) : V2vCMD where
  cmd := [c, 0, 0, 0, 0, 0, 0, 0]
  subcmd := [0, 0, 0, 0, 0, 0, 0, 0]
  length_cmd := rfl
  length_subcmd := rfl
  zero_mem_cmd := by simp
  zero_mem_subcmd := by simp

/-- With "b" between two copies of "a", the map that holds the first copy and "b" does not find the
key through the second one, and the first copy is below "b" and "b" below the second. -/
theorem compareCMD_not_contents :
    let mem := fun p => if p = 32 then ofChar 98 else ofChar 97
    compareCMD mem 16 32 ∧ compareCMD mem 32 48 ∧ ¬ compareCMD mem 16 48 ∧
      find (compareCMD mem) 48 (.node 32 (.node 16 .nil .nil) .nil) = none ∧
      ¬ AddressFree (ofChar 97) (ofChar 98) ∧ ¬ OrdersByContents mem {16, 32, 48} := by
  intro mem
  refine ⟨by decide, by decide, by decide, by decide, ?_, fun h => ?_⟩
  · rw [addressFree_iff]
    decide
  · have htrans := h.trans 16 (by simp) 32 (by simp) 48 (by simp) (by decide) (by decide)
    exact absurd htrans (by decide)

end V2vCMD

end Vs17.Container
