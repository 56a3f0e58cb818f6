import Vs17.Library.Text

/-! # C strings and fixed-size buffers

The string functions of the C library on a block of memory, and copies into buffers of a
fixed size. A copy that is longer than its buffer, and reading a buffer without a zero
byte as a string, are faults.
-/

namespace Vs17.CString

open Words Text

/-- The bytes of an ASCII literal. -/
def ascii (s : String) : Bytes := s.toList.map fun c => UInt8.ofNat c.toNat

/-- The length of a string. A block without a zero byte is read past its end. -/
def strlen (b : Bytes) : Option ℕ := if 0 ∈ b then some (cstr b).length else none

/-- The offset of the first such byte in a string, other than its end. -/
def strchr (c : UInt8) (b : Bytes) : Option ℕ := (cstr b).idxOf? c

/-- What follows the first place where the text occurs in a string: `strstr`, and a step over
what it has found. -/
def after (needle : Bytes) : Bytes → Option Bytes
  | [] => if needle = [] then some [] else none
  | c :: s => if needle <+: c :: s then some ((c :: s).drop needle.length) else after needle s

def isDigit (c : UInt8) : Bool := 48 ≤ c && c ≤ 57

/-- The digits at the front of a string. -/
def digits (s : Bytes) : Bytes := s.takeWhile isDigit

/-- `atoi`, for a string without a sign or space before its digits. -/
def atoi (s : Bytes) : ℕ := (digits s).foldl (fun n c => 10 * n + (c.toNat - 48)) 0

/-- `strcmp`, by the sign of its result. -/
def strcmp (a b : Bytes) : ℤ :=
  if cstr a = cstr b then 0 else if (cstr a).lex (cstr b) (· < ·) then -1 else 1

/-- What `strncpy` writes: the string cut short, or with zeros behind it. -/
def strncpy (n : ℕ) (src : Bytes) : Bytes :=
  (cstr src).take n ++ List.replicate (n - (cstr src).length) 0

inductive Fault
  | overruns
  | unterminated
  deriving DecidableEq, Repr

/-- Copy to the front of a buffer. -/
def copy (src buf : Bytes) : Except Fault Bytes :=
  if src.length ≤ buf.length then .ok (blit 0 src buf) else .error .overruns

/-- The string in a buffer. -/
def read (buf : Bytes) : Except Fault Bytes :=
  if 0 ∈ buf then .ok (cstr buf) else .error .unterminated

theorem bind_ok_iff {ε α β : Type*} {x : Except ε α} {f : α → Except ε β} {b : β} :
    x.bind f = .ok b ↔ ∃ a, x = .ok a ∧ f a = .ok b := by
  cases x <;> simp [Except.bind]

section Functions

variable {c : UInt8} {b l r s t needle : Bytes}

theorem zero_not_mem_cstr (b : Bytes) : (0 : UInt8) ∉ cstr b := by
  intro h
  simpa using List.mem_takeWhile_imp h

theorem cstr_append (h : (0 : UInt8) ∉ b) : cstr (b ++ l) = b ++ cstr l := by
  apply List.takeWhile_append_of_pos
  intro x hx
  have hne : x ≠ 0 := by
    rintro rfl
    exact h hx
  simpa using hne

theorem cstr_text (h : (0 : UInt8) ∉ s) (r : Bytes) : cstr (s ++ 0 :: r) = s := by
  rw [cstr_append_zero, cstr_eq_self h]

theorem strlen_text (h : (0 : UInt8) ∉ s) (r : Bytes) : strlen (s ++ 0 :: r) = some s.length := by
  rw [strlen, if_pos (by simp), cstr_text h]

theorem strchr_eq_none : strchr c b = none ↔ c ∉ cstr b := List.idxOf?_eq_none_iff

/-- The first such byte stands behind bytes of other kinds. -/
theorem idxOf?_append_cons (hl : c ∉ l) : (l ++ c :: b).idxOf? c = some l.length := by
  induction l with
  | nil => simp [List.idxOf?_cons]
  | cons x l ih =>
    obtain ⟨hx, hl⟩ := not_or.mp (mt List.mem_cons.mpr hl)
    simp [List.idxOf?_cons, Ne.symm hx, ih hl]

theorem strchr_append_cons (hl : c ∉ l) (h₀ : (0 : UInt8) ∉ l) (hc : c ≠ 0) :
    strchr c (l ++ c :: b) = some l.length := by
  have hcons : cstr (c :: b) = c :: cstr b := by simp [cstr, hc]
  rw [strchr, cstr_append h₀, hcons, idxOf?_append_cons hl]

theorem exists_of_strchr {n : ℕ} (h : strchr c b = some n) :
    ∃ l r, b = l ++ c :: r ∧ l.length = n := by
  have hmem : c ∈ cstr b := by
    by_contra hmem
    rw [strchr_eq_none.mpr hmem] at h
    cases h
  obtain ⟨l, r, hl, hfree⟩ := List.eq_append_cons_of_mem hmem
  obtain ⟨rest, hrest⟩ := List.takeWhile_prefix (p := (· ≠ (0 : UInt8))) (l := b)
  rw [strchr, hl, idxOf?_append_cons hfree] at h
  refine ⟨l, r ++ rest, ?_, Option.some.inj h⟩
  rw [← List.cons_append, ← List.append_assoc, ← hl]
  exact hrest.symm

/-- More text leaves the characters of the string where they are. -/
theorem mem_cstr_append (h : c ∈ cstr l) (r : Bytes) : c ∈ cstr (l ++ r) := by
  by_cases hzero : 0 ∈ l
  · obtain ⟨rest, hl⟩ := eq_cstr_append hzero
    rw [hl, List.append_assoc, List.cons_append, cstr_text (zero_not_mem_cstr l)]
    exact h
  · rw [cstr_append hzero]
    rw [cstr_eq_self hzero] at h
    exact List.mem_append_left _ h

theorem strchr_lt {n : ℕ} (h : strchr c b = some n) : n < b.length := by
  obtain ⟨l, r, rfl, rfl⟩ := exists_of_strchr h
  rw [List.length_append, List.length_cons]
  omega

theorem length_le_of_after (h : after needle t = some s) : needle.length ≤ t.length := by
  induction t with
  | nil =>
    rw [after] at h
    split at h
    · rename_i hn
      simp [hn]
    · cases h
  | cons c t ih =>
    rw [after] at h
    split at h
    · rename_i hp
      exact hp.length_le
    · exact (ih h).trans (Nat.le_succ _)

/-- The first place stays where it is when more text follows. -/
theorem after_append (h : after needle t = some s) (r : Bytes) :
    after needle (t ++ r) = some (s ++ r) := by
  induction t with
  | nil =>
    rw [after] at h
    split at h
    · rename_i hn
      cases h
      subst hn
      cases r <;> simp [after]
    · cases h
  | cons c t ih =>
    have hle := length_le_of_after h
    rw [after] at h
    rw [List.cons_append, after]
    split at h
    · rename_i hp
      cases h
      have hp' : needle <+: c :: (t ++ r) := hp.trans (List.prefix_append (c :: t) r)
      rw [if_pos hp', ← List.cons_append, List.drop_append_of_le_length hle]
    · rename_i hp
      have hp' : ¬ needle <+: c :: (t ++ r) := fun hp' =>
        hp (List.prefix_of_prefix_length_le hp' (List.prefix_append (c :: t) r) hle)
      rw [if_neg hp', ih h]

theorem strcmp_eq_zero_iff {a b : Bytes} : strcmp a b = 0 ↔ cstr a = cstr b := by
  unfold strcmp
  split_ifs with heq <;> simp [heq]

@[simp] theorem length_strncpy (n : ℕ) (src : Bytes) : (strncpy n src).length = n := by
  simp only [strncpy, List.length_append, List.length_take, List.length_replicate]
  omega

theorem cstr_strncpy_append (n : ℕ) (src r : Bytes) :
    cstr (strncpy n src ++ 0 :: r) = (cstr src).take n := by
  have hnot : (0 : UInt8) ∉ (cstr src).take n := fun h =>
    zero_not_mem_cstr src (List.mem_of_mem_take h)
  rw [cstr_append_zero, strncpy]
  cases n - (cstr src).length with
  | zero => rw [List.replicate_zero, List.append_nil, cstr_eq_self hnot]
  | succ m => rw [List.replicate_succ, cstr_text hnot]

theorem isDigit_ne_zero (h : isDigit c = true) : c ≠ 0 := by
  rintro rfl
  cases h

theorem zero_not_mem_digits (s : Bytes) : (0 : UInt8) ∉ digits s := fun h =>
  isDigit_ne_zero (List.mem_takeWhile_imp h) rfl

@[simp] theorem digits_digits (s : Bytes) : digits (digits s) = digits s :=
  List.takeWhile_idem

@[simp] theorem atoi_digits (s : Bytes) : atoi (digits s) = atoi s := by
  rw [atoi, digits_digits, atoi]

theorem digits_append (s r : Bytes) : ∃ w, digits (s ++ r) = digits s ++ w := by
  rw [digits, List.takeWhile_append]
  split
  · rename_i h
    refine ⟨digits r, ?_⟩
    rw [digits, (List.takeWhile_prefix _).eq_of_length h, digits]
  · exact ⟨[], (List.append_nil _).symm⟩

theorem mul_pow_le_foldl (n : ℕ) (w : Bytes) :
    n * 10 ^ w.length ≤ w.foldl (fun n c => 10 * n + (c.toNat - 48)) n := by
  induction w generalizing n with
  | nil => simp
  | cons c w ih =>
    have hmul : n * 10 ^ (w.length + 1) = 10 * n * 10 ^ w.length := by
      rw [pow_succ]
      ring
    rw [List.length_cons, List.foldl_cons, hmul]
    exact (Nat.mul_le_mul_right _ (Nat.le_add_right _ _)).trans (ih _)

/-- More digits leave a number as it is only when it is 0. -/
theorem atoi_append_eq_iff (s r : Bytes) :
    atoi (s ++ r) = atoi s ↔ digits (s ++ r) = digits s ∨ atoi (s ++ r) = 0 := by
  obtain ⟨w, hw⟩ := digits_append s r
  have hle : atoi s * 10 ^ w.length ≤ atoi (s ++ r) := by
    rw [atoi, atoi, hw, List.foldl_append]
    exact mul_pow_le_foldl _ w
  constructor
  · intro h
    rcases Nat.eq_zero_or_pos w.length with h₀ | hpos
    · rw [List.length_eq_zero_iff.mp h₀, List.append_nil] at hw
      exact .inl hw
    · have hten : 10 ≤ 10 ^ w.length := Nat.le_self_pow hpos.ne' 10
      have hmul := (Nat.mul_le_mul_left (atoi s) hten).trans hle
      right
      omega
  · rintro (h | h)
    · rw [← atoi_digits, h, atoi_digits]
    · rw [h, Nat.le_zero, Nat.mul_eq_zero] at hle
      have hpow : 10 ^ w.length ≠ 0 := by positivity
      rw [h, hle.resolve_right hpow]

end Functions

section Buffers

variable {src buf t : Bytes}

theorem copy_ok_iff : copy src buf = .ok t ↔ src.length ≤ buf.length ∧ blit 0 src buf = t := by
  rw [copy]
  split <;> simp [*]

theorem read_ok_iff : read buf = .ok t ↔ 0 ∈ buf ∧ cstr buf = t := by
  rw [read]
  split <;> simp [*]

theorem blit_zero (h : src.length ≤ buf.length) : blit 0 src buf = src ++ buf.drop src.length := by
  rw [blit_eq_append (by omega), List.take_zero, List.nil_append, Nat.zero_add]

/-- A string read after a copy that does not end it goes on with what was there before. -/
theorem read_copy_iff (hsrc : (0 : UInt8) ∉ src) :
    (copy src buf).bind read = .ok t ↔
      0 ∈ buf.drop src.length ∧ src ++ cstr (buf.drop src.length) = t := by
  by_cases hle : src.length ≤ buf.length
  · rw [copy, if_pos hle, Except.bind, read_ok_iff, blit_zero hle, List.mem_append,
      or_iff_right hsrc, cstr_append hsrc]
  · rw [copy, if_neg hle, List.drop_eq_nil_of_le (not_le.mp hle).le]
    simp [Except.bind]

end Buffers

end Vs17.CString
