import Mathlib.Algebra.Order.BigOperators.Group.List
import Vs17.Library.OnesComplement
import Vs17.Library.Words

/-! # The checksum of the raw socket and the tap device

Both compute it with the same text: the 16-bit words are added up in an `unsigned int`, whose
carries are put back twice at the end.
-/

namespace Vs17.Net

open Words

/-- An addition in an `unsigned int`. -/
def addUint (x y : ℕ) : ℕ := (x + y) % 2 ^ 32

/-- The loop, with what it leaves in `sum`, `cbuf` and `len`. -/
def sumWords (buf : Bytes) (sum cbuf : ℕ) : ℕ → ℕ × ℕ × ℕ
  | len + 2 => sumWords buf (addUint sum (load 2 cbuf buf)) (cbuf + 2) len
  | len => (sum, cbuf, len)

/-- The last byte of a buffer of odd length, as the loop has left it. -/
def oddByte (buf : Bytes) : ℕ × ℕ × ℕ → ℕ
  | (sum, cbuf, len) => if len ≠ 0 then addUint sum (load 1 cbuf buf) else sum

/-- The accumulator in front of the folds. -/
def accumulate (buf : Bytes) (len : ℕ) : ℕ := oddByte buf (sumWords buf 0 0 len)

/-- The first fold. -/
def foldOnce (sum : ℕ) : ℕ := addUint (sum >>> 16) (sum &&& 0xffff)

def checksum (buf : Bytes) (len : ℕ) : ℕ :=
  let sum := foldOnce (accumulate buf len)
  (2 ^ 32 - 1 - addUint sum (sum >>> 16)) % 2 ^ 16

/-- The little-endian words of a buffer, with a zero byte behind one of odd length. -/
def words : Bytes → List ℕ
  | [] => []
  | [x] => [ofLE [x, 0]]
  | x :: y :: b => ofLE [x, y] :: words b

variable {b c buf : Bytes} {off len sum : ℕ}

theorem words_append (h : b.length % 2 = 0) : words (b ++ c) = words b ++ words c := by
  induction b using words.induct with
  | case1 => rfl
  | case2 x => simp at h
  | case3 x y b ih =>
    rw [List.cons_append, List.cons_append, words, words, ih (by simp at h; omega),
      List.cons_append]

theorem length_words (b : Bytes) : (words b).length = (b.length + 1) / 2 := by
  induction b using words.induct with
  | case1 => rfl
  | case2 x => simp [words]
  | case3 x y b ih =>
    simp only [words, List.length_cons, ih]
    omega

theorem words_lt {w : ℕ} (h : w ∈ words b) : w < 65536 := by
  induction b using words.induct with
  | case1 => cases h
  | case2 x =>
    rw [List.mem_singleton.mp h]
    exact (ofLE_lt [x, 0]).trans_eq (by norm_num)
  | case3 x y b ih =>
    rcases List.mem_cons.mp h with rfl | h
    · exact (ofLE_lt [x, y]).trans_eq (by norm_num)
    · exact ih h

/-- The sum of all words of a buffer of this length is far from a wrap. -/
theorem sum_words_le (h : b.length ≤ 65535) : (words b).sum ≤ 32768 * 65535 := by
  have hsum := List.sum_le_card_nsmul (words b) 65535 fun w hw => Nat.le_of_lt_succ (words_lt hw)
  have hlen := length_words b
  rw [nsmul_eq_mul, Nat.cast_id] at hsum
  exact hsum.trans (Nat.mul_le_mul_right _ (by omega))

/-- The words from an offset on, as the loop gets them. -/
theorem words_take_drop (h : off + (len + 2) ≤ buf.length) :
    words ((buf.drop off).take (len + 2)) =
      load 2 off buf :: words ((buf.drop (off + 2)).take len) := by
  rw [load, List.drop_eq_getElem_cons (show off < buf.length by omega),
    List.drop_eq_getElem_cons (show off + 1 < buf.length by omega)]
  rfl

theorem addUint_eq (h : sum + len < 2 ^ 32) : addUint sum len = sum + len :=
  Nat.mod_eq_of_lt h

theorem oddByte_sumWords (hlen : off + len ≤ buf.length)
    (h : sum + (words ((buf.drop off).take len)).sum < 2 ^ 32) :
    oddByte buf (sumWords buf sum off len) = sum + (words ((buf.drop off).take len)).sum := by
  induction sum, off, len using sumWords.induct buf with
  | case1 sum off len ih =>
    rw [words_take_drop hlen, List.sum_cons, ← add_assoc] at h ⊢
    rw [sumWords]
    have hadd : addUint sum (load 2 off buf) = sum + load 2 off buf := addUint_eq (by omega)
    rw [hadd] at ih ⊢
    exact ih (by omega) h
  | case2 sum off len hshort =>
    obtain rfl | rfl : len = 0 ∨ len = 1 := by
      rcases len with _ | _ | len
      · exact .inl rfl
      · exact .inr rfl
      · exact (hshort len rfl).elim
    · simp [sumWords, oddByte, words]
    · have hbyte : words ((buf.drop off).take 1) = [load 1 off buf] := by
        rw [load, List.drop_eq_getElem_cons hlen, List.take_succ_cons, List.take_zero, words]
        simp
      rw [hbyte, List.sum_singleton] at h ⊢
      exact addUint_eq h

/-- The accumulator is the sum of the words. -/
theorem accumulate_eq (hlen : len ≤ buf.length) (hbuf : buf.length ≤ 65535) :
    accumulate buf len = (words (buf.take len)).sum := by
  have hle := sum_words_le (b := buf.take len) (by simp; omega)
  rw [accumulate, oddByte_sumWords (by omega) (by rw [List.drop_zero]; omega), zero_add,
    List.drop_zero]

theorem foldOnce_eq (h : sum < 2 ^ 32) : foldOnce sum = OnesComplement.fold 65536 sum := by
  rw [foldOnce, OnesComplement.fold, Nat.shiftRight_eq_div_pow,
    show 0xffff = 2 ^ 16 - 1 from rfl, Nat.and_two_pow_sub_one_eq_mod, addUint_eq (by omega)]

/-- Nor does the second fold wrap. -/
theorem foldOnce_add_lt (h : sum < 2 ^ 32) : foldOnce sum + foldOnce sum >>> 16 < 2 ^ 32 := by
  rw [foldOnce_eq h, OnesComplement.fold, Nat.shiftRight_eq_div_pow]
  omega

theorem checksum_eq (hbuf : buf.length ≤ 65535) :
    checksum buf buf.length = 65535 - OnesComplement.sum 65536 (words buf) := by
  have hle := sum_words_le hbuf
  have hacc : accumulate buf buf.length = (words buf).sum := by
    rw [accumulate_eq le_rfl hbuf, List.take_length]
  have hadd : foldOnce (words buf).sum + foldOnce (words buf).sum >>> 16 < 2 ^ 32 :=
    foldOnce_add_lt (by omega)
  have hreduces := OnesComplement.reduces_sum (by norm_num) fun w (hw : w ∈ words buf) =>
    words_lt hw
  have hfold := OnesComplement.reduces_fold_mod (B := 65536) (s := (words buf).sum) (by omega)
  rw [hreduces.unique hfold, checksum, hacc]
  rw [addUint_eq hadd, foldOnce_eq (by omega)] at *
  rw [Nat.shiftRight_eq_div_pow] at *
  omega

theorem words_eq_append (heven : off % 2 = 0) (hoff : off + 2 ≤ buf.length) :
    words buf = words (buf.take off) ++ load 2 off buf :: words (buf.drop (off + 2)) := by
  have hpre : (buf.take off).length % 2 = 0 := by
    rw [List.length_take, Nat.min_eq_left (by omega), heven]
  have hrest := @words_take_drop buf off (buf.length - (off + 2)) (by omega)
  rw [List.take_of_length_le (by simp; omega), List.take_of_length_le (by simp)] at hrest
  rw [← hrest, ← words_append hpre, List.take_append_drop]

/-- A word stored where there was a zero is added to the sum. -/
theorem sum_words_store (heven : off % 2 = 0) (hoff : off + 2 ≤ buf.length)
    (hzero : load 2 off buf = 0) {x : ℕ} (hx : x < 65536) :
    (words (store 2 off x buf)).sum = (words buf).sum + x := by
  have hword : load 2 off (store 2 off x buf) = x := by
    rw [load_store_self hoff, Nat.mod_eq_of_lt (by norm_num; exact hx)]
  have htake : (store 2 off x buf).take off = buf.take off := take_blit_of_le le_rfl
  have hdrop : (store 2 off x buf).drop (off + 2) = buf.drop (off + 2) :=
    drop_blit_of_ge (by rw [length_toLE])
  rw [words_eq_append heven (by simpa using hoff), words_eq_append heven hoff, hword, htake, hdrop,
    hzero]
  simp only [List.sum_append, List.sum_cons]
  omega

/-- With the checksum in its field, the checksum of the buffer is 0. -/
theorem checksum_store (hbuf : buf.length ≤ 65535) (heven : off % 2 = 0)
    (hoff : off + 2 ≤ buf.length) (hzero : load 2 off buf = 0) :
    let stored := store 2 off (checksum buf buf.length) buf
    checksum stored stored.length = 0 := by
  intro stored
  have hreduces := OnesComplement.reduces_sum (B := 65536) (by norm_num)
    fun w (hw : w ∈ words buf) => words_lt hw
  have hstored := OnesComplement.reduces_sum (B := 65536) (by norm_num)
    fun w (hw : w ∈ words stored) => words_lt hw
  have hones := hreduces.complement (by norm_num)
  have hlt : checksum buf buf.length < 65536 := Nat.mod_lt _ (by norm_num)
  rw [sum_words_store heven hoff hzero hlt, checksum_eq hbuf] at hstored
  rw [checksum_eq (by simpa [stored] using hbuf), hstored.unique hones]

/-- The accumulator does not wrap in the loop or the folds, the checksum is the complement of the
one's complement sum of the words, and a buffer with its checksum in it has the checksum 0. -/
theorem checksum_onesComplement (buf : Bytes) (off : ℕ) (hbuf : buf.length ≤ 65535)
    (heven : off % 2 = 0) (hoff : off + 2 ≤ buf.length) (hzero : load 2 off buf = 0) :
    (∀ len ≤ buf.length, accumulate buf len = (words (buf.take len)).sum ∧
      accumulate buf len < 2 ^ 32) ∧
    checksum buf buf.length = 65535 - OnesComplement.sum 65536 (words buf) ∧
    let sum := accumulate buf buf.length
    foldOnce sum = sum / 2 ^ 16 + sum % 2 ^ 16 ∧ foldOnce sum + foldOnce sum >>> 16 < 2 ^ 32 ∧
    let stored := store 2 off (checksum buf buf.length) buf
    checksum stored stored.length = 0 := by
  have hlt : ∀ len ≤ buf.length, accumulate buf len < 2 ^ 32 := by
    intro len hlen
    have hle := sum_words_le (b := buf.take len) (by simp; omega)
    rw [accumulate_eq hlen hbuf]
    omega
  exact ⟨fun len hlen => ⟨accumulate_eq hlen hbuf, hlt len hlen⟩, checksum_eq hbuf,
    foldOnce_eq (hlt _ le_rfl), foldOnce_add_lt (hlt _ le_rfl),
    checksum_store hbuf heven hoff hzero⟩

/-- An echo request of 9 bytes. -/
theorem checksum_onesComplement_echo :
    let buf : Bytes := [8, 0, 0, 0, 1, 0, 7, 0, 255]
    checksum buf 9 = 65535 - OnesComplement.sum 65536 (words buf) ∧
      checksum (store 2 2 (checksum buf 9) buf) 9 = 0 := by
  intro buf
  have h := checksum_onesComplement buf 2 (by decide) rfl (by decide) rfl
  exact ⟨h.2.1, h.2.2.2.2⟩

end Vs17.Net
