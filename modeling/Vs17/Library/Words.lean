import Mathlib.Data.Nat.Digits.Defs
import Mathlib.Data.List.Basic
import Mathlib.Tactic.Ring
import Mathlib.Tactic.NormNum

/-! # Machine words in byte memory

Words are natural numbers with an explicit width in bytes. `load` and `store` read
and write a word in little-endian order at an offset, `blit` copies a block, and
`bswap` turns host order into network order and back.
-/

namespace Vs17

/-- A block of memory, a stream or a message. -/
abbrev Bytes := List UInt8

namespace Words

/-- The value of a little-endian block. -/
def ofLE (b : Bytes) : ℕ := Nat.ofDigits 256 (b.map UInt8.toNat)

/-- The low bytes of a number, least significant first. -/
def toLE : ℕ → ℕ → Bytes
  | 0, _ => []
  | n + 1, x => UInt8.ofNat x :: toLE n (x / 256)

/-- Reverse the bytes of a word of the given width. -/
def bswap (n x : ℕ) : ℕ := ofLE (toLE n x).reverse

/-- The word of the given width at an offset. -/
def load (n off : ℕ) (b : Bytes) : ℕ := ofLE ((b.drop off).take n)

/-- Overwrite a block of memory at an offset. Nothing is written past its end. -/
def blit (off : ℕ) (src b : Bytes) : Bytes :=
  (b.take off ++ src ++ b.drop (off + src.length)).take b.length

/-- Write a word of the given width at an offset. -/
def store (n off x : ℕ) (b : Bytes) : Bytes := blit off (toLE n x) b

@[simp] theorem ofLE_nil : ofLE [] = 0 := rfl

@[simp] theorem ofLE_cons (c : UInt8) (b : Bytes) : ofLE (c :: b) = c.toNat + 256 * ofLE b := by
  simp [ofLE, Nat.ofDigits_cons]

@[simp] theorem length_toLE (n x : ℕ) : (toLE n x).length = n := by
  induction n generalizing x with
  | zero => rfl
  | succ n ih => simp [toLE, ih]

theorem ofLE_lt (b : Bytes) : ofLE b < 256 ^ b.length := by
  have h := Nat.ofDigits_lt_base_pow_length (b := 256) (l := b.map UInt8.toNat) (by norm_num) (by
    simp only [List.mem_map, forall_exists_index, and_imp, forall_apply_eq_imp_iff₂]
    exact fun c _ => c.toNat_lt)
  simpa [ofLE] using h

@[simp] theorem ofLE_toLE (n x : ℕ) : ofLE (toLE n x) = x % 256 ^ n := by
  induction n generalizing x with
  | zero => simp [toLE, Nat.mod_one]
  | succ n ih =>
    have hmod : x % 256 ^ (n + 1) = x % 256 + 256 * (x / 256 % 256 ^ n) := by
      rw [pow_succ', Nat.mod_mul]
    rw [toLE, ofLE_cons, ih, hmod, UInt8.toNat_ofNat']

@[simp] theorem toLE_ofLE (b : Bytes) : toLE b.length (ofLE b) = b := by
  induction b with
  | nil => rfl
  | cons c b ih =>
    have hc := c.toNat_lt
    have hdiv : (c.toNat + 256 * ofLE b) / 256 = ofLE b := by omega
    rw [ofLE_cons, List.length_cons, toLE, hdiv, ih]
    congr 1
    apply UInt8.toNat.inj
    simp

theorem ofLE_append (b c : Bytes) : ofLE (b ++ c) = ofLE b + 256 ^ b.length * ofLE c := by
  simp [ofLE, Nat.ofDigits_append]

/-- Only the bytes that a word has are written. -/
theorem toLE_mod (n x : ℕ) : toLE n (x % 256 ^ n) = toLE n x := by
  have h := toLE_ofLE (toLE n x)
  rwa [length_toLE, ofLE_toLE] at h

/-- Two words one after another are one word. -/
theorem toLE_append (m n x y : ℕ) :
    toLE m x ++ toLE n y = toLE (m + n) (x % 256 ^ m + 256 ^ m * (y % 256 ^ n)) := by
  have h := toLE_ofLE (toLE m x ++ toLE n y)
  rw [List.length_append, length_toLE, length_toLE, ofLE_append, ofLE_toLE, ofLE_toLE,
    length_toLE] at h
  exact h.symm

theorem bswap_lt (n x : ℕ) : bswap n x < 256 ^ n := by
  simpa [bswap] using ofLE_lt (toLE n x).reverse

@[simp] theorem bswap_bswap (n x : ℕ) : bswap n (bswap n x) = x % 256 ^ n := by
  have h := toLE_ofLE (toLE n x).reverse
  rw [List.length_reverse, length_toLE] at h
  rw [bswap, bswap, h, List.reverse_reverse, ofLE_toLE]

/-- Bytes behind a word do not change it. -/
theorem load_append {n off : ℕ} {b c : Bytes} (h : off + n ≤ b.length) :
    load n off (b ++ c) = load n off b := by
  rw [load, load, List.drop_append_of_le_length (by omega),
    List.take_append_of_le_length (by simp only [List.length_drop]; omega)]

theorem load_take {n off k : ℕ} {b : Bytes} (h : off + n ≤ k) :
    load n off (b.take k) = load n off b := by
  rw [load, load, List.drop_take, List.take_take, Nat.min_eq_left (by omega)]

@[simp] theorem length_blit (off : ℕ) (src b : Bytes) : (blit off src b).length = b.length := by
  simp only [blit, List.length_append, List.length_take, List.length_drop]
  omega

@[simp] theorem length_store (n off x : ℕ) (b : Bytes) : (store n off x b).length = b.length :=
  length_blit ..

theorem blit_eq_append {off : ℕ} {src b : Bytes} (h : off + src.length ≤ b.length) :
    blit off src b = b.take off ++ src ++ b.drop (off + src.length) := by
  apply List.take_of_length_le
  simp only [List.length_append, List.length_take, List.length_drop]
  omega

/-- Overwriting one byte. -/
theorem blit_append_cons (a b : Bytes) (x y : UInt8) :
    blit a.length [x] (a ++ y :: b) = a ++ x :: b := by
  rw [blit_eq_append (by simp), List.take_left, List.length_singleton, List.append_assoc]
  simp

/-- A block from what lies at an offset. -/
theorem exists_of_drop {b s : Bytes} {off : ℕ} (h : b.drop off = s) (hs : s ≠ []) :
    ∃ a, a.length = off ∧ b = a ++ s := by
  have hlt : off < b.length := by
    by_contra hle
    exact hs (h ▸ List.drop_eq_nil_of_le (not_lt.mp hle))
  exact ⟨b.take off, List.length_take_of_le hlt.le, by rw [← h, List.take_append_drop]⟩

theorem take_blit {off : ℕ} {src b : Bytes} (h : off + src.length ≤ b.length) :
    (blit off src b).take (off + src.length) = b.take off ++ src := by
  have hl : (b.take off ++ src).length = off + src.length := by simp; omega
  rw [blit_eq_append h, ← hl, List.take_left]

/-- The copied block is found where it was copied to. -/
theorem take_drop_blit {off : ℕ} {src b : Bytes} (h : off + src.length ≤ b.length) :
    ((blit off src b).drop off).take src.length = src := by
  have hl : (b.take off).length = off := by simp; omega
  rw [blit_eq_append h, List.append_assoc, List.drop_append, hl, List.drop_eq_nil_of_le (by omega)]
  simp

theorem take_blit_of_le {off k : ℕ} {src b : Bytes} (h : k ≤ off) :
    (blit off src b).take k = b.take k := by
  rcases Nat.lt_or_ge b.length off with hb | hb
  · rw [blit, List.take_of_length_le hb.le, List.append_assoc, List.take_left]
  · have hk : k ≤ (b.take off).length := by simp; omega
    rw [blit, List.take_take, Nat.min_eq_left (by omega), List.append_assoc,
      List.take_append_of_le_length hk, List.take_take, Nat.min_eq_left h]

theorem drop_blit_of_ge {off k : ℕ} {src b : Bytes} (h : off + src.length ≤ k) :
    (blit off src b).drop k = b.drop k := by
  rcases Nat.lt_or_ge b.length (off + src.length) with hb | hb
  · rw [List.drop_eq_nil_of_le (by simp; omega), List.drop_eq_nil_of_le (by omega)]
  · obtain ⟨d, rfl⟩ : ∃ d, k = off + src.length + d := ⟨k - (off + src.length), by omega⟩
    have hl : (b.take off ++ src).length = off + src.length := by simp; omega
    rw [blit_eq_append hb, ← hl, ← List.drop_drop, List.drop_left, hl, List.drop_drop]

/-- A copy leaves the words before and behind it as they are. -/
theorem load_blit_of_disjoint {n off k : ℕ} {src b : Bytes}
    (h : off + n ≤ k ∨ k + src.length ≤ off) : load n off (blit k src b) = load n off b := by
  rcases h with h | h
  · rw [← load_take le_rfl, take_blit_of_le h, load_take le_rfl]
  · rw [load, drop_blit_of_ge h, load]

theorem load_store_self {n off x : ℕ} {b : Bytes} (h : off + n ≤ b.length) :
    load n off (store n off x b) = x % 256 ^ n := by
  have hl : off + (toLE n x).length ≤ b.length := by simpa using h
  have hb := take_drop_blit hl
  rw [length_toLE] at hb
  rw [load, store, hb, ofLE_toLE]

theorem load_store_of_disjoint {n m off k x : ℕ} {b : Bytes}
    (h : off + n ≤ k ∨ k + m ≤ off) : load n off (store m k x b) = load n off b :=
  load_blit_of_disjoint (by simpa using h)

/-- The two's complement number that a word of the given width stands for. -/
def toInt (n x : ℕ) : ℤ := (x : ℤ).bmod (256 ^ n)

/-- A number converted to a word of the given width. -/
def ofInt (n : ℕ) (z : ℤ) : ℕ := (z % (256 ^ n : ℕ)).toNat

theorem ofInt_lt (n : ℕ) (z : ℤ) : ofInt n z < 256 ^ n := by
  have hpos : (0 : ℤ) < (256 ^ n : ℕ) := mod_cast Nat.pow_pos (by norm_num)
  have hlt := Int.emod_lt_of_pos z hpos
  rw [ofInt]
  omega

theorem toInt_ofInt {n : ℕ} {z : ℤ} (hle : -(256 ^ n : ℕ) ≤ z * 2) (hlt : z * 2 < (256 ^ n : ℕ)) :
    toInt n (ofInt n z) = z := by
  have hpos : (0 : ℤ) < (256 ^ n : ℕ) := mod_cast Nat.pow_pos (by norm_num)
  rw [toInt, ofInt, Int.toNat_of_nonneg (Int.emod_nonneg z hpos.ne'), Int.emod_bmod]
  exact Int.bmod_eq_of_le_mul_two hle hlt

end Words

end Vs17
