import Vs17.Library.Words

/-! # Records of type, length and value

A record is written as a byte for its type, a byte for the length of its value, and the value.
Records one behind another can be read back.
-/

namespace Vs17.Tlv

/-- The value of a record, and what it is. -/
structure Record where
  type : UInt8
  value : Bytes
  deriving DecidableEq, Repr

/-- The length of the value fits a byte. -/
def Record.Short (r : Record) : Prop := r.value.length ≤ 255

instance (r : Record) : Decidable r.Short := inferInstanceAs (Decidable (_ ≤ _))

def Record.encode (r : Record) : Bytes := r.type :: UInt8.ofNat r.value.length :: r.value

def encode (rs : List Record) : Bytes := rs.flatMap Record.encode

/-- At most so many records, and nothing behind them. -/
def decodeAtMost : ℕ → Bytes → Option (List Record)
  | _, [] => some []
  | n + 1, type :: len :: b =>
    if len.toNat ≤ b.length then
      (decodeAtMost n (b.drop len.toNat)).map (⟨type, b.take len.toNat⟩ :: ·)
    else none
  | _, _ => none

def decode (b : Bytes) : Option (List Record) := decodeAtMost b.length b

variable {r : Record} {rs : List Record} {n : ℕ} {b : Bytes}

@[simp] theorem length_encode_record (r : Record) : r.encode.length = 2 + r.value.length := by
  simp [Record.encode]
  omega

@[simp] theorem encode_nil : encode [] = [] := rfl

@[simp] theorem encode_cons : encode (r :: rs) = r.encode ++ encode rs := rfl

@[simp] theorem encode_append (rs rs' : List Record) :
    encode (rs ++ rs') = encode rs ++ encode rs' := List.flatMap_append

theorem decodeAtMost_encode (h : ∀ r ∈ rs, r.Short) (hn : rs.length ≤ n) :
    decodeAtMost n (encode rs) = some rs := by
  induction rs generalizing n with
  | nil => cases n <;> rfl
  | cons r rs ih =>
    obtain ⟨n, rfl⟩ : ∃ k, n = k + 1 := ⟨n - 1, by simp at hn; omega⟩
    have hshort : r.value.length ≤ 255 := h r (by simp)
    have hlen : (UInt8.ofNat r.value.length).toNat = r.value.length := by
      rw [UInt8.toNat_ofNat']
      exact Nat.mod_eq_of_lt (by omega)
    have hrest := ih (n := n) (fun r hr => h r (by simp [hr])) (by simpa using hn)
    simp only [encode_cons, Record.encode, List.cons_append, decodeAtMost, hlen,
      List.length_append, Nat.le_add_right, if_true, List.drop_left, List.take_left, hrest,
      Option.map_some]

theorem length_le_encode (rs : List Record) : rs.length ≤ (encode rs).length := by
  induction rs with
  | nil => simp
  | cons r rs ih =>
    simp only [encode_cons, List.length_cons, List.length_append, length_encode_record]
    omega

/-- Records whose values are short enough are read back. -/
theorem decode_encode (h : ∀ r ∈ rs, r.Short) : decode (encode rs) = some rs :=
  decodeAtMost_encode h (length_le_encode rs)

end Vs17.Tlv
