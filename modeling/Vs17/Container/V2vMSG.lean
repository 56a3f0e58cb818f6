import Vs17.Library.CString

/-! # The keys of the hash map

A key has two fields of 8 bytes. They are filled by a bounded copy, compared as strings, and
hashed as the one string that begins where the first of them was copied to.
-/

namespace Vs17.Container

open CString Text Words

structure V2vMSG where
  cmd : Bytes
  subcmd : Bytes
  length_cmd : cmd.length = 8
  length_subcmd : subcmd.length = 8
  zero_mem_cmd : 0 ∈ cmd
  zero_mem_subcmd : 0 ∈ subcmd

namespace V2vMSG

/-- A field of zeros with a copy of at most 7 bytes in it. -/
def field (src : Bytes) : Bytes :=
  blit 0 (strncpy 7 src) (List.replicate 8 0)

theorem field_eq (src : Bytes) : field src = strncpy 7 src ++ [0] := by
  rw [field, blit_eq_append (by simp)]
  simp

/-- The constructor from two strings. -/
def v2vMSG (cmd subcmd : Bytes) : V2vMSG where
  cmd := field cmd
  subcmd := field subcmd
  length_cmd := by simp [field]
  length_subcmd := by simp [field]
  zero_mem_cmd := by simp [field_eq]
  zero_mem_subcmd := by simp [field_eq]

def equalT (lhs rhs : V2vMSG) : Bool :=
  strcmp lhs.cmd rhs.cmd = 0 ∧ strcmp lhs.subcmd rhs.subcmd = 0

/-- The hash, by a hash of strings. -/
def myHashFun {σ : Type*} (hash : Bytes → σ) (pmsg : V2vMSG) : σ :=
  hash (cstr (blit 8 pmsg.subcmd (blit 0 pmsg.cmd (List.replicate 128 0))))

variable {σ : Type*} {hash : Bytes → σ} {k l : V2vMSG}

theorem cstr_field (src : Bytes) : cstr (field src) = (cstr src).take 7 := by
  rw [field_eq, cstr_strncpy_append]

theorem equalT_iff :
    equalT k l ↔ cstr k.cmd = cstr l.cmd ∧ cstr k.subcmd = cstr l.subcmd := by
  rw [equalT, decide_eq_true_iff, strcmp_eq_zero_iff, strcmp_eq_zero_iff]

/-- The string that is hashed ends in the first field. -/
theorem myHashFun_eq : myHashFun hash k = hash (cstr k.cmd) := by
  obtain ⟨rest, hrest⟩ := eq_cstr_append k.zero_mem_cmd
  have htotal : blit 0 k.cmd (List.replicate 128 0) = k.cmd ++ List.replicate 120 0 := by
    rw [blit_eq_append (by simp [k.length_cmd])]
    simp [k.length_cmd]
  have hstring : cstr (blit 8 k.subcmd (k.cmd ++ List.replicate 120 0)) = cstr k.cmd := by
    rw [blit_eq_append (by simp [k.length_cmd, k.length_subcmd]), List.append_assoc,
      List.take_left' k.length_cmd]
    conv_lhs => rw [hrest]
    rw [List.append_assoc, List.cons_append, cstr_append_zero,
      cstr_eq_self (zero_not_mem_cstr _)]
  rw [myHashFun, htotal, hstring]

/-- Two keys are equal if their strings agree on 7 characters, equal keys have one hash, and what
lies behind the end of a string counts for neither. -/
theorem equalT_myHashFun (hash : Bytes → σ) :
    (∀ a b c d, equalT (v2vMSG a b) (v2vMSG c d) ↔
      (cstr a).take 7 = (cstr c).take 7 ∧ (cstr b).take 7 = (cstr d).take 7) ∧
    (∀ k l, equalT k l → myHashFun hash k = myHashFun hash l) ∧
    ∀ k k' : V2vMSG, cstr k.cmd = cstr k'.cmd → cstr k.subcmd = cstr k'.subcmd →
      myHashFun hash k = myHashFun hash k' ∧
        ∀ l, equalT k l = equalT k' l ∧ equalT l k = equalT l k' := by
  refine ⟨fun a b c d => ?_, fun k l h => ?_, fun k k' hcmd hsubcmd => ⟨?_, fun l => ⟨?_, ?_⟩⟩⟩
  · rw [equalT_iff]
    simp only [v2vMSG, cstr_field]
  · rw [myHashFun_eq, myHashFun_eq, (equalT_iff.mp h).1]
  · rw [myHashFun_eq, myHashFun_eq, hcmd]
  · rw [Bool.eq_iff_iff, equalT_iff, equalT_iff, hcmd, hsubcmd]
  · rw [Bool.eq_iff_iff, equalT_iff, equalT_iff, hcmd, hsubcmd]

end V2vMSG

end Vs17.Container
