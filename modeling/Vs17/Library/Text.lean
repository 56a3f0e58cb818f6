import Vs17.Library.Words
import Mathlib.Data.List.Chain
import Mathlib.Data.List.TakeWhile

/-! # Texts in memory

A C string ends before the first zero byte. A record ends with a newline and may hold others.
-/

namespace Vs17.Text

/-- The C string at the front of a block of memory. -/
def cstr (b : Bytes) : Bytes := b.takeWhile (· ≠ 0)

/-- The newline byte. -/
def newline : UInt8 := 10

variable {b c : Bytes}

theorem cstr_eq_self (h : (0 : UInt8) ∉ b) : cstr b = b := by
  rw [cstr, List.takeWhile_eq_self_iff]
  intro x hx
  have hne : x ≠ 0 := by
    rintro rfl
    exact h hx
  simpa using hne

/-- What lies behind a zero byte is not part of the string. -/
theorem cstr_append_zero : cstr (b ++ 0 :: c) = cstr b := by
  induction b with
  | nil => rfl
  | cons x b ih =>
    simp only [cstr, List.cons_append, List.takeWhile_cons] at ih ⊢
    split
    · rw [ih]
    · rfl

/-- A text with a zero byte is its C string, the zero byte and some rest. -/
theorem eq_cstr_append (h : (0 : UInt8) ∈ b) : ∃ c, b = cstr b ++ 0 :: c := by
  induction b with
  | nil => cases h
  | cons x b ih =>
    by_cases hx : x = 0
    · exact ⟨b, by simp [cstr, hx]⟩
    · obtain ⟨c, hc⟩ := ih ((List.mem_cons.mp h).resolve_left (Ne.symm hx))
      refine ⟨c, ?_⟩
      have hcons : cstr (x :: b) = x :: cstr b := by simp [cstr, hx]
      rw [hcons, List.cons_append, ← hc]

/-- What follows the first newline of a text that has one. -/
def afterNewline (b : Bytes) : Option Bytes :=
  match b.dropWhile (· ≠ newline) with
  | [] => none
  | _ :: rest => some rest

theorem afterNewline_append (h : newline ∉ b) : afterNewline (b ++ newline :: c) = some c := by
  induction b with
  | nil => simp [afterNewline]
  | cons x b ih =>
    obtain ⟨hx, hb⟩ := not_or.mp (mt List.mem_cons.mpr h)
    have hcons : afterNewline (x :: b ++ newline :: c) = afterNewline (b ++ newline :: c) := by
      simp [afterNewline, Ne.symm hx]
    rw [hcons, ih hb]

theorem eq_append_of_afterNewline (h : afterNewline b = some c) :
    ∃ x, b = x ++ newline :: c ∧ newline ∉ x := by
  induction b with
  | nil => cases h
  | cons x b ih =>
    by_cases hx : x = newline
    · subst hx
      have hb : b = c := by simpa [afterNewline] using h
      exact ⟨[], by rw [hb, List.nil_append], List.not_mem_nil⟩
    · have hb : afterNewline b = some c := by simpa [afterNewline, hx] using h
      obtain ⟨y, rfl, hy⟩ := ih hb
      exact ⟨x :: y, rfl, by simp [Ne.symm hx, hy]⟩

/-- A record: it ends with a newline, and does not begin with a zero byte. -/
def IsRecord (l : Bytes) : Prop := ∃ x body, l = x :: body ++ [newline] ∧ x ≠ 0

theorem IsRecord.ne_nil {l : Bytes} (h : IsRecord l) : l ≠ [] := by
  obtain ⟨x, body, rfl, -⟩ := h
  simp

theorem IsRecord.newline_mem_of_suffix {l : Bytes} (h : IsRecord l) (hb : b ≠ [])
    (hl : b <:+ l) : newline ∈ b := by
  obtain ⟨x, body, rfl, -⟩ := h
  obtain ⟨b', y, rfl⟩ := (List.eq_nil_or_concat b).resolve_left hb
  obtain ⟨w, hw⟩ := hl
  rw [List.concat_eq_append, ← List.append_assoc] at hw
  cases (List.append_inj' hw rfl).2
  simp

section Suffixes

variable {α : Type*} {b : List α} {K : List (List α)}

/-- A part that reaches to the end of a sequence of blocks is the end of one block and the
blocks behind it. -/
theorem exists_of_suffix_flatten (hb : b ≠ []) (h : b <:+ K.flatten) :
    ∃ before l after y, K = before ++ l :: after ∧ y ≠ [] ∧ y <:+ l ∧ b = y ++ after.flatten := by
  induction K with
  | nil => exact absurd (List.suffix_nil.mp h) hb
  | cons l K ih =>
    by_cases hin : b <:+ K.flatten
    · obtain ⟨before, l', after, y, rfl, hy⟩ := ih hin
      exact ⟨l :: before, l', after, y, rfl, hy⟩
    · -- the part begins within this block
      obtain ⟨w, hw⟩ := h
      rw [List.flatten_cons] at hw
      rcases List.append_eq_append_iff.mp hw with ⟨y, rfl, rfl⟩ | ⟨y, -, hy⟩
      · refine ⟨[], w ++ y, K, y, rfl, ?_, ⟨w, rfl⟩, rfl⟩
        rintro rfl
        exact hin ⟨[], rfl⟩
      · exact absurd ⟨y, hy.symm⟩ hin

end Suffixes

variable {K : List Bytes}

/-- A part that reaches to the end of a sequence of records, with a newline at its end only, is
the end of the last record. -/
theorem exists_of_newline_suffix (hK : ∀ l ∈ K, IsRecord l) (h : b ++ [newline] <:+ K.flatten)
    (hb : newline ∉ b) : ∃ older x, K = older ++ [x ++ b ++ [newline]] := by
  obtain ⟨before, l, after, y, rfl, hy, hyl, heq⟩ := exists_of_suffix_flatten (by simp) h
  have hl : IsRecord l := hK l (by simp)
  rcases after with _ | ⟨l', after⟩
  · obtain ⟨x, rfl⟩ := hyl
    rw [List.flatten_nil, List.append_nil] at heq
    exact ⟨before, x, by rw [← heq, List.append_assoc]⟩
  · -- then the end of this record lies in front of the last byte
    have hne : (l' :: after).flatten ≠ [] := by simp [(hK l' (by simp)).ne_nil]
    obtain ⟨z, last, hz⟩ := (List.eq_nil_or_concat _).resolve_left hne
    rw [hz, List.concat_eq_append, ← List.append_assoc] at heq
    obtain ⟨rfl, -⟩ := List.append_inj' heq rfl
    exact absurd (List.mem_append_left z (hl.newline_mem_of_suffix hy hyl)) hb

/-- Where no record has a zero byte right behind a newline, the sequence of them has none. -/
theorem newline_zero_not_infix (hK : ∀ l ∈ K, IsRecord l)
    (hclean : ∀ l ∈ K, ¬ [newline, 0] <:+: l) : ¬ [newline, 0] <:+: K.flatten := by
  have hnil : [] ∉ K := fun hmem => (hK _ hmem).ne_nil rfl
  have hchain : K.flatten.IsChain fun a b => a = newline → b ≠ 0 := by
    rw [List.isChain_flatten hnil]
    constructor
    · intro l hl
      rw [List.isChain_iff_forall_rel_of_append_cons_cons]
      rintro _ _ l₁ l₂ rfl rfl rfl
      exact hclean _ hl ⟨l₁, l₂, by simp⟩
    · apply List.Pairwise.isChain
      apply List.pairwise_of_forall_mem_list
      rintro l₁ - l₂ hl₂ - - y hy -
      obtain ⟨x, body, rfl, hx⟩ := hK l₂ hl₂
      cases hy
      exact hx
  intro h
  have hpair := hchain.infix h
  simp at hpair

/-- Where a zero byte cuts a part of a sequence of such records short, what is left behind its
first newline is not a sequence of records. -/
theorem afterNewline_cstr_ne_flatten (hK : ∀ l ∈ K, IsRecord l)
    (hclean : ∀ l ∈ K, ¬ [newline, 0] <:+: l) (h : b <:+ K.flatten) (hzero : (0 : UInt8) ∈ b)
    {L : List Bytes} (hL : ∀ l ∈ L, IsRecord l) (hne : L ≠ []) :
    afterNewline (cstr b) ≠ some L.flatten := by
  intro hafter
  obtain ⟨x, hx, -⟩ := eq_append_of_afterNewline hafter
  obtain ⟨c, hc⟩ := eq_cstr_append hzero
  obtain ⟨L', l, rfl⟩ := (List.eq_nil_or_concat L).resolve_left hne
  obtain ⟨y, body, hl, -⟩ := hL l (by simp)
  apply newline_zero_not_infix hK hclean
  refine List.IsInfix.trans ?_ h.isInfix
  refine ⟨x ++ newline :: L'.flatten ++ (y :: body), c, ?_⟩
  rw [hc, hx]
  simp [hl]

end Vs17.Text
