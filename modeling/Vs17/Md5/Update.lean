import Vs17.Library.Blocks
import Vs17.Library.Loop
import Vs17.Md5.Transform

/-! # Feeding an `MD5` object

`update` completes the block in `buffer`, transforms whole blocks straight from its input
and buffers the rest. The index of the block loop is a 32-bit number. The transform is a
parameter.
-/

namespace Vs17.Md5

open Words

/-- A buffer of one block. -/
abbrev Block := {b : Bytes // b.length = 64}

def Block.write (off : ℕ) (src : Bytes) (b : Block) : Block :=
  ⟨blit off src b.1, by rw [length_blit, b.2]⟩

/-- An `MD5` object; the count of bits is in two 32-bit halves. -/
structure MD5 where
  finalized : Bool
  buffer : Block
  count0 : ℕ
  count1 : ℕ
  state : Chain
  digest : Bytes
  deriving DecidableEq

def init (m : MD5) : MD5 :=
  { m with finalized := false, count0 := 0, count1 := 0, state := .magic }

variable (transform : Chain → Bytes → Chain)

/-- `for (i = firstpart; i + blocksize <= length; i += blocksize) transform(&input[i])` -/
def blockBody (input : Bytes) (x : ℕ × Chain) : (ℕ × Chain) ⊕ (ℕ × Chain) :=
  if (x.1 + 64) % 2 ^ 32 ≤ input.length then
    .inl ((x.1 + 64) % 2 ^ 32, transform x.2 ((input.drop x.1).take 64))
  else .inr x

/-- The two halves of the count after `length` more bytes. -/
def addCount (length count0 count1 : ℕ) : ℕ × ℕ :=
  let bits := length * 8 % 2 ^ 32
  let count0 := (count0 + bits) % 2 ^ 32
  let count1 := if count0 < bits then (count1 + 1) % 2 ^ 32 else count1
  (count0, (count1 + length / 2 ^ 29) % 2 ^ 32)

/-- `update`, for a length of 32 bits. No result is a block loop that does not end: a round
for each byte of the input is more than enough for one that does. -/
def update (input : Bytes) (m : MD5) : Option MD5 :=
  let index := m.count0 / 8 % 64
  let count := addCount input.length m.count0 m.count1
  let firstpart := 64 - index
  if firstpart ≤ input.length then
    let buffer := m.buffer.write index (input.take firstpart)
    (Loop.run (blockBody transform input) (input.length + 1)
      (firstpart, transform m.state buffer.1)).map fun r =>
        { m with
          buffer := buffer.write 0 (input.drop r.1)
          count0 := count.1
          count1 := count.2
          state := r.2 }
  else
    some { m with buffer := m.buffer.write index input, count0 := count.1, count1 := count.2 }

section BlockLoop

variable {transform} {input : Bytes} {j : ℕ} {s : Chain}

/-- The loop ends when the index runs past the last block without wrapping round, and has
then transformed all whole blocks. -/
theorem run_blockBody (hj : j ≤ input.length) (hfit : input.length < 2 ^ 32 - 64 + j % 64)
    {n : ℕ} (hn : input.length - j < n) : ∃ t ≤ input.length,
    Loop.run (blockBody transform input) n (j, s) =
      some (t, (Blocks.feed transform 64 s (input.drop j)).1) ∧
    (Blocks.feed transform 64 s (input.drop j)).2 = input.drop t := by
  induction n generalizing j s with
  | zero => omega
  | succ n ih =>
    have hmod : (j + 64) % 2 ^ 32 = j + 64 := by omega
    by_cases hle : j + 64 ≤ input.length
    · obtain ⟨t, ht, hrun, hrest⟩ := ih (s := transform s ((input.drop j).take 64)) hle (by omega)
        (by omega)
      have hfeed : Blocks.feed transform 64 s (input.drop j) =
          Blocks.feed transform 64 (transform s ((input.drop j).take 64))
            (input.drop (j + 64)) := by
        rw [Blocks.feed_of_le (by decide) (by rw [List.length_drop]; omega), List.drop_drop]
      rw [hfeed]
      refine ⟨t, ht, ?_, hrest⟩
      rw [Loop.run, blockBody, if_pos (by rwa [hmod])]
      simpa only [hmod] using hrun
    · have hfeed : Blocks.feed transform 64 s (input.drop j) = (s, input.drop j) :=
        Blocks.feed_of_lt (by rw [List.length_drop]; omega)
      rw [hfeed]
      refine ⟨j, hj, ?_, rfl⟩
      rw [Loop.run, blockBody, if_neg (by rwa [hmod])]

/-- Otherwise the index wraps round for ever. -/
theorem not_ends_blockBody (hlen : input.length < 2 ^ 32) (hj : j < 2 ^ 32)
    (hwrap : 2 ^ 32 - 64 + j % 64 ≤ input.length) {r : ℕ × Chain} :
    ¬ Loop.Ends (blockBody transform input) (j, s) r := by
  apply Loop.not_ends_of_trap fun x => x.1 < 2 ^ 32 ∧ x.1 % 64 = j % 64
  · rintro ⟨k, c⟩ ⟨hk, hkj⟩
    have hle : (k + 64) % 2 ^ 32 ≤ input.length := by omega
    exact ⟨_, if_pos hle, by dsimp only; omega, by dsimp only; omega⟩
  · exact ⟨hj, rfl⟩

end BlockLoop

/-- The object stands for the bytes fed to it so far. -/
structure Fed (content : Bytes) (m : MD5) : Prop where
  count0_lt : m.count0 < 2 ^ 32
  count : m.count0 + 2 ^ 32 * m.count1 = 8 * content.length % 2 ^ 64
  state : m.state = (Blocks.feed transform 64 .magic content).1
  buffer : m.buffer.1.take (content.length % 64) = (Blocks.feed transform 64 .magic content).2

theorem fed_init (m : MD5) : Fed transform [] (init m) := by
  have hfeed : Blocks.feed transform 64 Chain.magic [] = (.magic, []) :=
    Blocks.feed_of_lt (by decide)
  constructor <;> simp [init, hfeed]

theorem addCount_eq (length : ℕ) {count0 count1 n : ℕ} (h₀ : count0 < 2 ^ 32)
    (h : count0 + 2 ^ 32 * count1 = 8 * n % 2 ^ 64) :
    (addCount length count0 count1).1 < 2 ^ 32 ∧
      (addCount length count0 count1).1 + 2 ^ 32 * (addCount length count0 count1).2 =
        8 * (n + length) % 2 ^ 64 := by
  simp only [addCount]
  constructor
  · omega
  · split <;> omega

section Feeding

variable {transform} {content input : Bytes} {m m' : MD5}

theorem Fed.index (h : Fed transform content m) : m.count0 / 8 % 64 = content.length % 64 := by
  have hcount := h.count
  have hlt := h.count0_lt
  omega

theorem length_block (b : Block) : b.1.length = 64 := b.2

theorem take_write (b : Block) (off : ℕ) (src : Bytes) (hfit : off + src.length ≤ 64) :
    (b.write off src).1.take (off + src.length) = b.1.take off ++ src :=
  take_blit (by rw [b.2]; exact hfit)

theorem length_buffered (b : Block) (n : ℕ) : (b.1.take (n % 64)).length = n % 64 := by
  rw [List.length_take, b.2]
  omega

/-- A block is completed, and whole blocks are transformed from the input. -/
theorem feed_append_of_le (h : Fed transform content m)
    (hfirst : 64 - content.length % 64 ≤ input.length) :
    Blocks.feed transform 64 .magic (content ++ input) =
      Blocks.feed transform 64
        (transform m.state (m.buffer.write (content.length % 64)
          (input.take (64 - content.length % 64))).1)
        (input.drop (64 - content.length % 64)) := by
  have hrest := length_buffered m.buffer content.length
  have hsrc : (input.take (64 - content.length % 64)).length = 64 - content.length % 64 := by
    rw [List.length_take]
    omega
  have hfull : content.length % 64 + (input.take (64 - content.length % 64)).length = 64 := by
    omega
  have hblock := take_write m.buffer _ _ hfull.le
  rw [hfull, List.take_of_length_le (length_block _).le] at hblock
  rw [Blocks.feed_append (by decide), ← h.state, ← h.buffer, Blocks.feed_of_le (by decide) (by
    rw [List.length_append, hrest]; omega), List.take_append, List.drop_append, hrest,
    List.take_of_length_le (by omega), List.drop_eq_nil_of_le (by omega), List.nil_append, hblock]

theorem feed_append_of_lt (h : Fed transform content m)
    (hfirst : input.length < 64 - content.length % 64) :
    Blocks.feed transform 64 .magic (content ++ input) =
      (m.state, m.buffer.1.take (content.length % 64) ++ input) := by
  have hrest := length_buffered m.buffer content.length
  rw [Blocks.feed_append (by decide), ← h.state, ← h.buffer, Blocks.feed_of_lt]
  rw [List.length_append, hrest]
  omega

theorem Fed.update (h : Fed transform content m) (hlen : input.length < 2 ^ 32)
    (hu : update transform input m = some m') : Fed transform (content ++ input) m' := by
  obtain ⟨hcount0, hcount⟩ := addCount_eq input.length h.count0_lt h.count
  rw [← List.length_append] at hcount
  rw [Md5.update, h.index] at hu
  dsimp only at hu
  split at hu
  · rename_i hfirst
    obtain ⟨r, hrun, rfl⟩ := Option.map_eq_some_iff.mp hu
    have hfeed := feed_append_of_le h hfirst
    have hfit : input.length < 2 ^ 32 - 64 + (64 - content.length % 64) % 64 := by
      by_contra hwrap
      exact not_ends_blockBody hlen (by omega) (not_lt.mp hwrap) (Loop.ends_of_run hrun)
    obtain ⟨t, ht, hrun', hrest⟩ := run_blockBody hfirst hfit (Nat.lt_succ_of_le (Nat.sub_le _ _))
    obtain rfl := Option.some.inj (hrun.symm.trans hrun')
    rw [← hfeed] at hrest
    have hlenrest : 0 + (input.drop t).length = (content ++ input).length % 64 := by
      rw [Nat.zero_add, ← hrest, Blocks.length_feed (by decide)]
    refine ⟨hcount0, hcount, by rw [hfeed], ?_⟩
    rw [hrest, ← hlenrest]
    exact take_write _ 0 _ (by omega)
  · rename_i hfirst
    obtain rfl := Option.some.inj hu
    have hfeed := feed_append_of_lt h (not_le.mp hfirst)
    have hlenrest : content.length % 64 + input.length = (content ++ input).length % 64 := by
      rw [List.length_append]
      omega
    refine ⟨hcount0, hcount, by rw [hfeed], ?_⟩
    rw [hfeed, ← hlenrest]
    exact take_write _ _ _ (by omega)

/-- `update` comes back unless the input reaches up to the last 64 bytes of the 32-bit range. -/
theorem update_returns_iff (hlen : input.length < 2 ^ 32) :
    (∃ m', update transform input m = some m') ↔
      input.length < 2 ^ 32 - 64 + (64 - m.count0 / 8 % 64) % 64 := by
  rw [Md5.update]
  dsimp only
  split
  · rename_i hfirst
    rw [← Option.isSome_iff_exists, Option.isSome_map]
    constructor
    · intro hsome
      obtain ⟨r, hrun⟩ := Option.isSome_iff_exists.mp hsome
      by_contra hwrap
      exact not_ends_blockBody hlen (by omega) (not_lt.mp hwrap) (Loop.ends_of_run hrun)
    · intro hfit
      obtain ⟨t, _, hrun, _⟩ := run_blockBody hfirst hfit (Nat.lt_succ_of_le (Nat.sub_le _ _))
      rw [hrun]
      rfl
  · exact iff_of_true ⟨_, rfl⟩ (by omega)

theorem update_keeps (hu : update transform input m = some m') :
    m'.finalized = m.finalized ∧ m'.digest = m.digest := by
  rw [Md5.update] at hu
  dsimp only at hu
  split at hu
  · obtain ⟨r, _, rfl⟩ := Option.map_eq_some_iff.mp hu
    exact ⟨rfl, rfl⟩
  · obtain rfl := Option.some.inj hu
    exact ⟨rfl, rfl⟩

end Feeding

end Vs17.Md5
