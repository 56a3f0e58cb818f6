import Vs17.Library.Words

/-! # Buffers of the tap device

`struct buffer` with the operations that append to it. The content starts at the offset and
never goes beyond the capacity.
-/

namespace Vs17.Net

/-- `len` is the length of the content. -/
@[ext]
structure Buffer where
  capacity : ℕ
  offset : ℕ
  content : Bytes
  fits : offset + content.length ≤ capacity

/-- The same memory, with nothing in it: `len` is set to zero. -/
def Buffer.clear (buf : Buffer) : Buffer :=
  ⟨buf.capacity, buf.offset, [], (Nat.le_add_right _ _).trans buf.fits⟩

def bufSizeMax : ℕ := 1000000

/-- There is room for so many bytes more. -/
def bufSafe (buf : Buffer) (len : ℕ) : Prop :=
  len < bufSizeMax ∧ buf.offset + buf.content.length + len ≤ buf.capacity

instance (buf : Buffer) (len : ℕ) : Decidable (bufSafe buf len) :=
  inferInstanceAs (Decidable (_ ∧ _))

/-- The buffer with the bytes appended, when there is room for them. -/
def bufWrite (dest : Buffer) (src : Bytes) : Option Buffer :=
  if h : bufSafe dest src.length then
    some ⟨dest.capacity, dest.offset, dest.content ++ src, by
      rw [List.length_append, ← Nat.add_assoc]
      exact h.2⟩
  else none

/-- A call whose result is not looked at. -/
def bufPut (dest : Buffer) (src : Bytes) : Buffer := (bufWrite dest src).getD dest

variable {buf : Buffer} {src : Bytes} {m n : ℕ}

theorem bufSafe.mono (h : bufSafe buf n) (hm : m ≤ n) : bufSafe buf m :=
  ⟨hm.trans_lt h.1, (Nat.add_le_add_left hm _).trans h.2⟩

theorem bufPut_of_safe (h : bufSafe buf src.length) :
    (bufPut buf src).content = buf.content ++ src ∧ (bufPut buf src).offset = buf.offset ∧
      (bufPut buf src).capacity = buf.capacity := by
  simp [bufPut, bufWrite, h]

theorem bufPut_nil (h : bufSafe buf 0) : bufPut buf [] = buf := by
  simp [bufPut, bufWrite, h]

/-- What is left of the room behind a call that has used some of it. -/
theorem bufSafe_bufPut (h : bufSafe buf (src.length + n)) : bufSafe (bufPut buf src) n := by
  obtain ⟨hcontent, hoffset, hcapacity⟩ := bufPut_of_safe (h.mono (Nat.le_add_right _ n))
  have hroom := h.2
  refine ⟨lt_of_le_of_lt (Nat.le_add_left _ _) h.1, ?_⟩
  rw [hcontent, hoffset, hcapacity, List.length_append]
  omega

/-- Two blocks that there is room for are as good as one. -/
theorem bufPut_bufPut {src' : Bytes} (h : bufSafe buf (src.length + src'.length)) :
    bufPut (bufPut buf src) src' = bufPut buf (src ++ src') := by
  have hboth : bufSafe buf (src ++ src').length := by rwa [List.length_append]
  obtain ⟨hcontent, hoffset, hcapacity⟩ := bufPut_of_safe (h.mono (Nat.le_add_right _ _))
  obtain ⟨hcontent₂, hoffset₂, hcapacity₂⟩ := bufPut_of_safe (bufSafe_bufPut h)
  obtain ⟨hcontent', hoffset', hcapacity'⟩ := bufPut_of_safe hboth
  ext1
  · rw [hcapacity₂, hcapacity, hcapacity']
  · rw [hoffset₂, hoffset, hoffset']
  · rw [hcontent₂, hcontent, hcontent', List.append_assoc]

/-- Pieces that are written one after another. -/
theorem foldl_bufPut {α : Type*} (f : α → Bytes) {l : List α}
    (h : bufSafe buf (l.flatMap f).length) :
    l.foldl (fun buf a => bufPut buf (f a)) buf = bufPut buf (l.flatMap f) := by
  induction l generalizing buf with
  | nil => exact (bufPut_nil h).symm
  | cons a l ih =>
    rw [List.flatMap_cons, List.length_append] at h
    rw [List.foldl_cons, List.flatMap_cons, ih (bufSafe_bufPut h), bufPut_bufPut h]

end Vs17.Net
