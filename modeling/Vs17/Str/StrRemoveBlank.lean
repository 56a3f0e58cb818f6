import Vs17.Library.CString
import Vs17.Library.Ints
import Vs17.Library.Loop
import Vs17.Library.Shifting
import Vs17.Library.Squeeze

/-! # Removing blanks in place

`strRemoveBlank` moves the rest of the string over each blank that follows another one. The
bound of its loop is the length of the string before the first removal, as an `int`.
-/

namespace Vs17.Str

open CString Arrays Counted Ints Shifting Squeeze

structure BlankScan where
  str : Bytes
  i : ℤ
  nCountBlank : ℤ
  deriving DecidableEq, Repr

/-- A round of the outer loop. No result is an access outside the block of memory. -/
def blankBody (nlen : ℤ) (s : BlankScan) : BlankScan ⊕ Option Bytes :=
  if s.i < nlen then
    match load s.str s.i with
    | none => .inr none
    | some c =>
      if c ≠ 32 then .inl { s with i := s.i + 1, nCountBlank := 0 }
      else if s.nCountBlank + 1 ≥ 2 then
        match forUp (pull 1) s.i nlen s.str with
        | none => .inr none
        | some str => .inl ⟨str, s.i - 1 + 1, s.nCountBlank + 1⟩
      else .inl { s with i := s.i + 1, nCountBlank := s.nCountBlank + 1 }
  else .inr (some s.str)

def strRemoveBlank (n : ℕ) (str : Bytes) : Option Bytes := do
  let nlen ← strlen str
  (Loop.run (blankBody (toInt32 nlen)) n ⟨str, 0, 0⟩).join

section Rounds

variable {nlen count : ℤ} {c : UInt8} {p r tail : Bytes} {k : ℕ}

theorem blankBody_exit (h : nlen ≤ p.length) (str : Bytes) :
    blankBody nlen ⟨str, p.length, count⟩ = .inr (some str) := by
  rw [blankBody, if_neg (not_lt.mpr h)]

theorem blankBody_other (hc : c ≠ 32) (h : p.length < nlen) :
    blankBody nlen ⟨p ++ c :: r, p.length, count⟩ =
      .inl ⟨p ++ c :: r, (p ++ [c]).length, 0⟩ := by
  simp [blankBody, h, load_at, hc]

theorem blankBody_first (h : p.length < nlen) :
    blankBody nlen ⟨p ++ 32 :: r, p.length, 0⟩ =
      .inl ⟨p ++ 32 :: r, (p ++ [32]).length, 1⟩ := by
  simp [blankBody, h, load_at]

/-- A blank behind another one is overwritten by the rest of the string and its terminator. -/
theorem blankBody_further (hcount : 1 ≤ count) (h : nlen = p.length + r.length + 1) :
    blankBody nlen ⟨p ++ 32 :: (r ++ 0 :: tail), p.length, count⟩ =
      .inl ⟨p ++ (r ++ 0 :: 0 :: tail), p.length, count + 1⟩ := by
  have hmove : forUp (pull 1) p.length nlen (p ++ 32 :: (r ++ 0 :: tail)) =
      some (p ++ (r ++ 0 :: 0 :: tail)) := by
    have hpull := forUp_pull p [32] (r ++ [0]) tail
    have hlast : ([32] ++ (r ++ [0])).drop (r ++ [0]).length = [(0 : UInt8)] := by
      rw [← List.append_assoc]
      exact List.drop_left' (by simp)
    have hend : (p.length : ℤ) + (r ++ [0]).length = nlen := by
      rw [List.length_append, List.length_singleton]
      omega
    rw [hlast, hend] at hpull
    simpa using hpull
  have hlt : (p.length : ℤ) < nlen := by omega
  simp only [blankBody, if_pos hlt, load_at, ne_eq, not_true_eq_false, if_false, hmove,
    if_pos (by omega : count + 1 ≥ 2), sub_add_cancel]

theorem zeros_ends (count : ℤ) (p tail : Bytes) (k : ℕ) (h : nlen = p.length + k) :
    Loop.Ends (blankBody nlen) ⟨p ++ (List.replicate k 0 ++ tail), p.length, count⟩
      (some (p ++ (List.replicate k 0 ++ tail))) := by
  induction k generalizing p count with
  | zero => exact .exit (blankBody_exit (by omega) _)
  | succ k ih =>
    rw [List.replicate_succ]
    apply Loop.Ends.round (blankBody_other (by decide) (by omega))
    have hnext := ih 0 (p ++ [0]) (by simp; omega)
    simpa using hnext

theorem blank_ends (p r tail : Bytes) (k : ℕ) {count : ℤ} (hcount : 0 ≤ count)
    (h : nlen = p.length + r.length + k) :
    Loop.Ends (blankBody nlen) ⟨p ++ (r ++ (List.replicate k 0 ++ 0 :: tail)), p.length, count⟩
      (some (p ++ (squeezeBehind 32 (1 ≤ count) r ++
        (List.replicate (k + r.length - (squeezeBehind 32 (1 ≤ count) r).length) 0 ++
          0 :: tail)))) := by
  induction r generalizing p k count with
  | nil =>
    have hzeros := zeros_ends count p (0 :: tail) k (by simpa using h)
    simpa [squeezeBehind] using hzeros
  | cons c r ih =>
    rw [List.length_cons] at h
    by_cases hc : c = 32
    · subst hc
      by_cases hone : 1 ≤ count
      · rw [decide_eq_true hone, squeezeBehind_blank_blank]
        have hround : blankBody nlen ⟨p ++ 32 :: (r ++ List.replicate k 0 ++ 0 :: tail), p.length,
            count⟩ = .inl ⟨p ++ (r ++ List.replicate k 0 ++ 0 :: 0 :: tail), p.length, count + 1⟩ :=
          blankBody_further hone (by simp; omega)
        rw [List.append_assoc] at hround
        apply Loop.Ends.round hround
        have hnext := ih p (k + 1) (by omega : 0 ≤ count + 1) (by omega)
        rw [decide_eq_true (by omega : 1 ≤ count + 1)] at hnext
        have hk : k + 1 + r.length = k + (r.length + 1) := by omega
        rw [hk, List.replicate_succ'] at hnext
        simpa using hnext
      · obtain rfl : count = 0 := by omega
        rw [decide_eq_false hone, squeezeBehind_blank]
        apply Loop.Ends.round (blankBody_first (by omega))
        have hnext := ih (p ++ [32]) k (by omega : (0 : ℤ) ≤ 1) (by simp; omega)
        rw [decide_eq_true le_rfl] at hnext
        simpa [Nat.add_sub_add_right, ← Nat.add_assoc] using hnext
    · rw [squeezeBehind_of_ne hc]
      apply Loop.Ends.round (blankBody_other hc (by omega))
      have hnext := ih (p ++ [c]) k (le_refl (0 : ℤ)) (by simp; omega)
      rw [decide_eq_false (by omega : ¬ (1 : ℤ) ≤ 0)] at hnext
      simpa [Nat.add_sub_add_right, ← Nat.add_assoc] using hnext

end Rounds

section Result

variable {s : Bytes} {nlen : ℤ} {L : ℕ}

def squeezed (s tail : Bytes) : Bytes :=
  squeeze 32 s ++ (List.replicate (s.length - (squeeze 32 s).length) 0 ++ 0 :: tail)

theorem strRemoveBlank_of_lt (h₀ : (0 : UInt8) ∉ s) (hlen : s.length < 2 ^ 31) (tail : Bytes) :
    ∃ n₀, ∀ n ≥ n₀, strRemoveBlank n (s ++ 0 :: tail) = some (squeezed s tail) := by
  have hint : toInt32 s.length = s.length := toInt32_eq (by omega) (by omega)
  have hends := blank_ends [] s tail 0 (le_refl (0 : ℤ)) (by simp : (s.length : ℤ) = _)
  obtain ⟨n₀, hn₀⟩ := hends.exists_join
  refine ⟨n₀, fun n hn => ?_⟩
  have hrun := hn₀ n hn
  rw [decide_eq_false (by omega : ¬ (1 : ℤ) ≤ 0)] at hrun
  rw [strRemoveBlank, strlen_text h₀, Option.bind_eq_bind, Option.bind_some, hint]
  simpa [squeezed, squeeze] using hrun

theorem keeps_ends (p r tail : Bytes) (count : ℤ) (hpair : ¬ [32, 32] <:+: p ++ r)
    (hcount : count ≠ 0 → ∃ q, p = q ++ [32]) (hle : nlen ≤ p.length + r.length) :
    Loop.Ends (blankBody nlen) ⟨p ++ (r ++ 0 :: tail), p.length, count⟩
      (some (p ++ (r ++ 0 :: tail))) := by
  induction r generalizing p count with
  | nil => exact .exit (blankBody_exit (by simpa using hle) _)
  | cons c r ih =>
    by_cases hlt : (p.length : ℤ) < nlen
    · have hpair' : ¬ [32, 32] <:+: p ++ [c] ++ r := by simpa using hpair
      have hle' : nlen ≤ (p ++ [c]).length + r.length := by
        simp only [List.length_cons, List.length_append, List.length_nil] at hle ⊢
        omega
      by_cases hc : c = 32
      · subst hc
        have hzero : count = 0 := by
          by_contra hne
          obtain ⟨q, rfl⟩ := hcount hne
          exact hpair ⟨q, r, by simp⟩
        subst hzero
        apply Loop.Ends.round (blankBody_first hlt)
        simpa using ih (p ++ [32]) 1 hpair' (fun _ => ⟨p, rfl⟩) hle'
      · apply Loop.Ends.round (blankBody_other hc hlt)
        simpa using ih (p ++ [c]) 0 hpair' (fun hne => absurd rfl hne) hle'
    · exact .exit (blankBody_exit (not_lt.mp hlt) _)

theorem strRemoveBlank_of_no_pair (h₀ : (0 : UInt8) ∉ s) (hpair : ¬ [32, 32] <:+: s)
    (tail : Bytes) :
    ∃ n₀, ∀ n ≥ n₀, strRemoveBlank n (s ++ 0 :: tail) = some (s ++ 0 :: tail) := by
  have hle : toInt32 s.length ≤ ([] : Bytes).length + s.length := by
    simpa using toInt32_le (by omega : (0 : ℤ) ≤ s.length)
  have hends := keeps_ends [] s tail 0 hpair (fun hne => absurd rfl hne) hle
  obtain ⟨n₀, hn₀⟩ := hends.exists_join
  refine ⟨n₀, fun n hn => ?_⟩
  have hrun := hn₀ n hn
  rw [strRemoveBlank, strlen_text h₀, Option.bind_eq_bind, Option.bind_some]
  simpa using hrun

theorem blankBody_avoids (hnlen : nlen < L) {t t' : BlankScan}
    (ht : ∀ l < (L : ℤ), load t.str l ≠ some 0) (hround : blankBody nlen t = .inl t') :
    ∀ l < (L : ℤ), load t'.str l ≠ some 0 := by
  rw [blankBody] at hround
  split at hround
  · rename_i hlt
    split at hround
    · cases hround
    · split at hround
      · cases hround
        exact ht
      · split at hround
        · split at hround
          · cases hround
          · rename_i str hmove
            cases hround
            exact forUp_pull_avoids hmove hlt.le (by omega) ht
        · cases hround
          exact ht
  · cases hround

theorem blankBody_result {t : BlankScan} {res : Option Bytes} {str : Bytes}
    (hround : blankBody nlen t = .inr res) (hres : res = some str) : str = t.str := by
  rw [blankBody] at hround
  split at hround
  · split at hround
    · cases hround
      cases hres
    · split at hround
      · cases hround
      · split at hround
        · split at hround
          · cases hround
            cases hres
          · cases hround
        · cases hround
  · cases hround
    exact (Option.some.inj hres).symm

/-- The result has the string squeezed, and a second call changes nothing. -/
def Squeezes (s tail : Bytes) : Prop :=
  ∃ n₀, ∀ n ≥ n₀, strRemoveBlank n (s ++ 0 :: tail) = some (squeezed s tail) ∧
    strRemoveBlank n (squeezed s tail) = some (squeezed s tail)

theorem not_squeezes (h₀ : (0 : UInt8) ∉ s) (hlen : 2 ^ 31 ≤ s.length)
    (hpair : [32, 32] <:+: s) (tail : Bytes) : ¬ Squeezes s tail := by
  rintro ⟨n₀, hn₀⟩
  obtain ⟨hrun, _⟩ := hn₀ n₀ le_rfl
  rw [strRemoveBlank, strlen_text h₀, Option.bind_eq_bind, Option.bind_some] at hrun
  have hshort := toInt32_lt_of_le (by omega : (2 : ℤ) ^ 31 ≤ s.length)
  have hends := Loop.ends_of_join hrun
  have havoids : ∀ l < (s.length : ℤ), load (squeezed s tail) l ≠ some 0 := by
    refine hends.invariant (I := fun t => ∀ l < (s.length : ℤ), load t.str l ≠ some 0)
      (J := fun res => ∀ str, res = some str → ∀ l < (s.length : ℤ), load str l ≠ some 0)
      ?_ (fun t t' => blankBody_avoids hshort) (fun t res ht hround str hres => ?_) _ rfl
    · intro l hl hzero
      have hneg := (load_bounds hzero).1
      rw [load_append hl] at hzero
      exact h₀ (mem_of_load hzero)
    · rwa [blankBody_result hround hres]
  have hlt := length_squeeze_lt hpair
  apply havoids (squeeze 32 s).length (by omega)
  obtain ⟨k, hk⟩ : ∃ k, s.length - (squeeze 32 s).length = k + 1 :=
    ⟨s.length - (squeeze 32 s).length - 1, by omega⟩
  rw [squeezed, hk, List.replicate_succ]
  exact load_at _ _ _

theorem zero_not_mem_squeeze (h₀ : (0 : UInt8) ∉ s) : (0 : UInt8) ∉ squeeze 32 s :=
  fun h => h₀ (mem_of_mem_squeeze h)

/-- `strRemoveBlank` squeezes a string that is shorter than 2^31 bytes, or that has no two
blanks side by side, and no other. -/
theorem strRemoveBlank_squeezes_iff (h₀ : (0 : UInt8) ∉ s) (tail : Bytes) :
    Squeezes s tail ↔ s.length < 2 ^ 31 ∨ ¬ [32, 32] <:+: s := by
  have htail : ∃ tail', squeezed s tail = squeeze 32 s ++ 0 :: tail' := by
    rw [squeezed]
    cases s.length - (squeeze 32 s).length with
    | zero => exact ⟨tail, rfl⟩
    | succ k => exact ⟨List.replicate k 0 ++ 0 :: tail, rfl⟩
  obtain ⟨tail', htail⟩ := htail
  constructor
  · intro h
    by_contra hnot
    obtain ⟨hlen, hpair⟩ := not_or.mp hnot
    exact not_squeezes h₀ (not_lt.mp hlen) (not_not.mp hpair) tail h
  · intro h
    obtain ⟨n₁, hn₁⟩ : ∃ n₀, ∀ n ≥ n₀,
        strRemoveBlank n (s ++ 0 :: tail) = some (squeezed s tail) := by
      rcases h with hlen | hpair
      · exact strRemoveBlank_of_lt h₀ hlen tail
      · have hsame : squeezed s tail = s ++ 0 :: tail := by
          simp [squeezed, squeeze_eq_self hpair]
        rw [hsame]
        exact strRemoveBlank_of_no_pair h₀ hpair tail
    obtain ⟨n₂, hn₂⟩ := strRemoveBlank_of_no_pair (zero_not_mem_squeeze h₀)
      (not_pair_squeeze s) tail'
    refine ⟨max n₁ n₂, fun n hn => ⟨hn₁ n (by omega), ?_⟩⟩
    rw [htail]
    exact hn₂ n (by omega)

theorem strRemoveBlank_two_blanks : Squeezes [97, 32, 32, 98] [] ↔
    ([97, 32, 32, 98] : Bytes).length < 2 ^ 31 ∨ ¬ [32, 32] <:+: ([97, 32, 32, 98] : Bytes) :=
  @strRemoveBlank_squeezes_iff [97, 32, 32, 98] (by decide) []

/-- The length of 2^31 blanks is negative as an `int`, and none of them is removed. -/
theorem strRemoveBlank_blanks : ¬ Squeezes (List.replicate (2 ^ 31) 32) [] := by
  apply not_squeezes
  · intro h
    exact absurd (List.eq_of_mem_replicate h) (by decide)
  · rw [List.length_replicate]
  · have hsplit : List.replicate 2 (32 : UInt8) ++ List.replicate (2 ^ 31 - 2) 32 =
        List.replicate (2 ^ 31) 32 := List.replicate_append_replicate
    exact ⟨[], List.replicate (2 ^ 31 - 2) 32, hsplit⟩

end Result

example : strRemoveBlank 20 [97, 32, 32, 32, 98, 32, 32, 0] =
    some [97, 32, 98, 32, 0, 0, 0, 0] := by decide

end Vs17.Str
