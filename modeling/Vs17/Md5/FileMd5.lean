import Vs17.Md5.Update

/-! # The digest of a file

`fileMD5` feeds the file to its object in pieces, finalizes and returns the digest in
hexadecimal. `finalize` does its work once: it does nothing on an object that is finalized
already, and nothing sets an object back.
-/

namespace Vs17.Md5

open Words

/-- `encode`, of words into bytes. -/
def encode (words : List ℕ) : Bytes := words.flatMap (toLE 4)

def Chain.words (c : Chain) : List ℕ := [c.a.toNat, c.b.toNat, c.c.toNat, c.d.toNat]

def padding : Bytes := 0x80 :: List.replicate 63 0

def padLen (index : ℕ) : ℕ := if index < 56 then 56 - index else 120 - index

def hexDigit (n : ℕ) : UInt8 := UInt8.ofNat (if n < 10 then 48 + n else 87 + n)

def hex (b : Bytes) : Bytes := b.flatMap fun c => [hexDigit (c.toNat / 16), hexDigit (c.toNat % 16)]

variable (transform : Chain → Bytes → Chain)

def finalize (m : MD5) : Option MD5 :=
  if m.finalized then some m
  else do
    let bits := encode [m.count0, m.count1]
    let m ← update transform (padding.take (padLen (m.count0 / 8 % 64))) m
    let m ← update transform bits m
    return { m with
      digest := encode m.state.words
      buffer := ⟨List.replicate 64 0, by simp⟩
      count0 := 0
      count1 := 0
      finalized := true }

def hexdigest (m : MD5) : Bytes := if m.finalized then hex m.digest else []

def updateAll (chunks : List Bytes) (m : MD5) : Option MD5 :=
  chunks.foldlM (fun m chunk => update transform chunk m) m

def readSize : ℕ := 10240000 - 1

/-- What the calls of `fread` return until one returns nothing. -/
def freads (content : Bytes) : List Bytes :=
  if content = [] then [] else content.take readSize :: freads (content.drop readSize)
termination_by content.length
decreasing_by
  rename_i h
  have hpos := List.length_pos_iff.mpr h
  rw [List.length_drop, readSize]
  omega

/-- `fileMD5`, on the content of a file; none is a directory, or a file that cannot be opened. The
file is never closed. -/
def fileMD5 (content : Option Bytes) (m : MD5) : Option (Bytes × MD5) :=
  match content with
  | none => some ([], m)
  | some content => do
    let m ← updateAll transform (freads content) m
    let m ← finalize transform m
    return (hexdigest m, m)

def fileMD5s : List Bytes → MD5 → Option (List Bytes)
  | [], _ => some []
  | content :: contents, m => do
    let r ← fileMD5 transform (some content) m
    let rs ← fileMD5s contents r.2
    return r.1 :: rs

/-- `MD5(text)`; the length becomes a number of 32 bits. -/
def ofText (text : Bytes) (m : MD5) : Option MD5 := do
  let m ← update transform (text.take (text.length % 2 ^ 32)) (init m)
  finalize transform m

/-- What a fresh object returns that is fed these chunks and finalized. -/
def digestOf (chunks : List Bytes) (m : MD5) : Option Bytes := do
  let m ← updateAll transform chunks (init m)
  let m ← finalize transform m
  return hexdigest m

/-- The padded message: a bit, zeros up to the last eight bytes of a block, and the length in
bits. -/
def pad (content : Bytes) : Bytes :=
  content ++ padding.take (padLen (content.length % 64)) ++ toLE 8 (8 * content.length)

def md5 (content : Bytes) : Bytes :=
  hex (encode (Blocks.feed transform 64 .magic (pad content)).1.words)

section Padding

variable {transform} {content : Bytes} {m m' : MD5}

theorem encode_count (h : Fed transform content m) :
    encode [m.count0, m.count1] = toLE 8 (8 * content.length) := by
  have hcount := h.count
  have hlt := h.count0_lt
  have hbits : encode [m.count0, m.count1] = toLE 4 m.count0 ++ toLE 4 m.count1 := by
    simp [encode]
  have hvalue : m.count0 % 256 ^ 4 + 256 ^ 4 * (m.count1 % 256 ^ 4) =
      8 * content.length % 256 ^ 8 := by omega
  rw [hbits, toLE_append, hvalue, toLE_mod]

theorem length_padding_take (n : ℕ) :
    (padding.take (padLen (n % 64))).length = padLen (n % 64) := by
  rw [List.length_take, padding, List.length_cons, List.length_replicate, padLen]
  split <;> omega

theorem update_returns (transform : Chain → Bytes → Chain) (input : Bytes) (m : MD5)
    (h : input.length ≤ readSize) :
    ∃ m', update transform input m = some m' := by
  rw [readSize] at h
  exact (update_returns_iff (by omega)).mpr (by omega)

theorem finalize_returns (transform : Chain → Bytes → Chain) (m : MD5) :
    ∃ m', finalize transform m = some m' := by
  rw [finalize]
  split
  · exact ⟨m, rfl⟩
  · obtain ⟨m₁, h₁⟩ := update_returns transform (padding.take (padLen (m.count0 / 8 % 64))) m (by
      rw [length_padding_take, padLen, readSize]; split <;> omega)
    obtain ⟨m₂, h₂⟩ := update_returns transform (encode [m.count0, m.count1]) m₁ (by
      simp [encode, readSize])
    rw [h₁, Option.bind_eq_bind, Option.bind_some, h₂]
    exact ⟨_, rfl⟩

theorem finalize_of_finalized (h : m.finalized = true) : finalize transform m = some m := by
  rw [finalize, if_pos h]

theorem Fed.finalize (h : Fed transform content m) (hm : m.finalized = false)
    (hfin : finalize transform m = some m') :
    m'.finalized = true ∧ hexdigest m' = md5 transform content := by
  rw [Md5.finalize, if_neg (by simp [hm])] at hfin
  obtain ⟨m₁, h₁, hfin⟩ := Option.bind_eq_some_iff.mp hfin
  obtain ⟨m₂, h₂, hfin⟩ := Option.bind_eq_some_iff.mp hfin
  obtain rfl := Option.some.inj hfin
  rw [h.index] at h₁
  rw [encode_count h] at h₂
  have hpad₁ := h.update (by rw [length_padding_take, padLen]; split <;> omega) h₁
  have hpad₂ := hpad₁.update (by rw [length_toLE]; omega) h₂
  have hstate : m₂.state = _ := hpad₂.state
  exact ⟨rfl, by simp [hexdigest, md5, pad, hstate]⟩

end Padding

section Files

variable {transform} {content : Bytes} {m m' : MD5} {chunks : List Bytes}

theorem freads_spec (content : Bytes) :
    (freads content).flatten = content ∧ ∀ c ∈ freads content, c.length ≤ readSize := by
  induction hn : content.length using Nat.strongRecOn generalizing content with
  | ind n ih =>
    subst hn
    rw [freads]
    split
    · rename_i h
      simp [h]
    · rename_i h
      have hpos := List.length_pos_iff.mpr h
      have hlt : (content.drop readSize).length < content.length := by
        rw [List.length_drop, readSize]
        omega
      obtain ⟨hflat, hall⟩ := ih _ hlt _ rfl
      rw [List.flatten_cons, hflat, List.take_append_drop, List.forall_mem_cons]
      exact ⟨rfl, List.length_take_le _ _, hall⟩

theorem freads_lt (content : Bytes) : ∀ c ∈ freads content, c.length < 2 ^ 32 := fun c hc =>
  ((freads_spec content).2 c hc).trans_lt (by decide)

theorem Fed.updateAll (h : Fed transform content m) (hlen : ∀ c ∈ chunks, c.length < 2 ^ 32)
    (hu : updateAll transform chunks m = some m') :
    Fed transform (content ++ chunks.flatten) m' := by
  induction chunks generalizing content m with
  | nil =>
    obtain rfl := Option.some.inj hu
    simpa using h
  | cons c chunks ih =>
    obtain ⟨hc, hchunks⟩ := List.forall_mem_cons.mp hlen
    obtain ⟨m₁, hm₁, hu⟩ := Option.bind_eq_some_iff.mp hu
    rw [List.flatten_cons, ← List.append_assoc]
    exact ih (h.update hc hm₁) hchunks hu

theorem updateAll_keeps (hu : updateAll transform chunks m = some m') :
    m'.finalized = m.finalized ∧ m'.digest = m.digest := by
  induction chunks generalizing m with
  | nil =>
    obtain rfl := Option.some.inj hu
    exact ⟨rfl, rfl⟩
  | cons c chunks ih =>
    obtain ⟨m₁, hm₁, hu⟩ := Option.bind_eq_some_iff.mp hu
    obtain ⟨hfin, hdig⟩ := ih hu
    obtain ⟨hfin₁, hdig₁⟩ := update_keeps hm₁
    exact ⟨hfin.trans hfin₁, hdig.trans hdig₁⟩

theorem updateAll_returns (transform : Chain → Bytes → Chain) (m : MD5)
    (hlen : ∀ c ∈ chunks, c.length ≤ readSize) : ∃ m', updateAll transform chunks m = some m' := by
  induction chunks generalizing m with
  | nil => exact ⟨m, rfl⟩
  | cons c chunks ih =>
    obtain ⟨hc, hchunks⟩ := List.forall_mem_cons.mp hlen
    obtain ⟨m₁, hm₁⟩ := update_returns transform c m hc
    obtain ⟨m', hm'⟩ := ih m₁ hchunks
    exact ⟨m', Option.bind_eq_some_iff.mpr ⟨m₁, hm₁, hm'⟩⟩

theorem digestOf_eq {r : Bytes} (hlen : ∀ c ∈ chunks, c.length < 2 ^ 32)
    (h : digestOf transform chunks m = some r) : r = md5 transform chunks.flatten := by
  obtain ⟨m₁, h₁, h⟩ := Option.bind_eq_some_iff.mp h
  obtain ⟨m₂, h₂, h⟩ := Option.bind_eq_some_iff.mp h
  obtain rfl := Option.some.inj h
  have hfed := (fed_init transform m).updateAll hlen h₁
  exact (hfed.finalize (updateAll_keeps h₁).1 h₂).2

end Files

/-- Memory that no constructor has run on. -/
def raw : MD5 := ⟨true, ⟨List.replicate 64 0xcd, by simp⟩, 0xcdcdcdcd, 0xcdcdcdcd, .magic, []⟩

/-- The string a fresh object returns that is fed the content in any chunks. -/
def IsDigest (content r : Bytes) : Prop :=
  (∃ chunks, chunks.flatten = content ∧ ∀ m, digestOf transform chunks m = some r) ∧
  ∀ chunks m r', chunks.flatten = content → (∀ c ∈ chunks, c.length < 2 ^ 32) →
    digestOf transform chunks m = some r' → r' = r

/-- The two constructors; the second has hashed its text already. -/
inductive Constructed : MD5 → Option Bytes → Prop
  | default (m : MD5) : Constructed (init m) none
  | text {text : Bytes} {m o : MD5} : ofText transform text m = some o →
      Constructed o (some (text.take (text.length % 2 ^ 32)))

/-- What an object hashes first: its text, or the first file. -/
def firstOf (text : Option Bytes) (contents : List Bytes) : Bytes := text.getD (contents.headD [])

section Calls

variable {transform} {content : Bytes} {m o : MD5}

theorem digestOf_freads (transform : Chain → Bytes → Chain) (content : Bytes) (m : MD5) :
    digestOf transform (freads content) m = some (md5 transform content) := by
  obtain ⟨hflat, hall⟩ := freads_spec content
  obtain ⟨m₁, h₁⟩ := updateAll_returns transform (init m) hall
  obtain ⟨m₂, h₂⟩ := finalize_returns transform m₁
  have h : digestOf transform (freads content) m = some (hexdigest m₂) := by
    simp [digestOf, h₁, h₂]
  rw [h, digestOf_eq (freads_lt content) h, hflat]

/-- The digest of "a". -/
example : digestOf Md5.transform [[97]] raw =
    some ("0cc175b9c0f1b6a831c399e269772661".toList.map fun c => UInt8.ofNat c.toNat) := by
  decide +kernel

theorem isDigest_iff {r : Bytes} : IsDigest transform content r ↔ r = md5 transform content := by
  have hflat := (freads_spec content).1
  constructor
  · rintro ⟨-, hall⟩
    exact (hall _ raw _ hflat (freads_lt content) (digestOf_freads transform content raw)).symm
  · rintro rfl
    refine ⟨⟨freads content, hflat, digestOf_freads transform content⟩, ?_⟩
    rintro chunks m r' rfl hlen h
    exact digestOf_eq hlen h

theorem fileMD5_fresh (content : Bytes) (h : Fed transform [] m) (hm : m.finalized = false) : ∃ m',
    fileMD5 transform (some content) m = some (md5 transform content, m') ∧
      m'.finalized = true ∧ hexdigest m' = md5 transform content := by
  obtain ⟨hflat, hall⟩ := freads_spec content
  obtain ⟨m₁, h₁⟩ := updateAll_returns transform m hall
  obtain ⟨m₂, h₂⟩ := finalize_returns transform m₁
  have hfed := h.updateAll (freads_lt content) h₁
  rw [List.nil_append, hflat] at hfed
  obtain ⟨hfin, hhex⟩ := hfed.finalize ((updateAll_keeps h₁).1.trans hm) h₂
  exact ⟨m₂, by simp [fileMD5, h₁, h₂, hhex], hfin, hhex⟩

theorem fileMD5_finalized (transform : Chain → Bytes → Chain) (content : Bytes)
    (hm : m.finalized = true) : ∃ m',
    fileMD5 transform (some content) m = some (hexdigest m, m') ∧
      m'.finalized = true ∧ hexdigest m' = hexdigest m := by
  obtain ⟨m₁, h₁⟩ := updateAll_returns transform m (freads_spec content).2
  obtain ⟨hfin, hdig⟩ := updateAll_keeps h₁
  have hfin₁ : m₁.finalized = true := hfin.trans hm
  have hhex : hexdigest m₁ = hexdigest m := by rw [hexdigest, hexdigest, hfin, hdig]
  refine ⟨m₁, ?_, hfin₁, hhex⟩
  simp [fileMD5, h₁, finalize_of_finalized hfin₁, hhex]

theorem fileMD5s_finalized (contents : List Bytes) (hm : m.finalized = true) :
    fileMD5s transform contents m = some (List.replicate contents.length (hexdigest m)) := by
  induction contents generalizing m with
  | nil => rfl
  | cons content contents ih =>
    obtain ⟨m', hm', hfin, hhex⟩ := fileMD5_finalized transform content hm
    rw [fileMD5s, hm']
    simp [ih hfin, hhex, List.replicate_succ]

/-- Every call returns the digest of what the object hashed first. -/
theorem fileMD5s_eq {text : Option Bytes} (h : Constructed transform o text)
    (contents : List Bytes) : fileMD5s transform contents o =
      some (List.replicate contents.length (md5 transform (firstOf text contents))) := by
  cases h with
  | default m =>
    rcases contents with _ | ⟨content, contents⟩
    · rfl
    obtain ⟨m', hm', hfin, hhex⟩ := fileMD5_fresh content (fed_init transform m) rfl
    rw [fileMD5s, hm', Option.bind_eq_bind, Option.bind_some,
      fileMD5s_finalized contents hfin, hhex]
    rfl
  | @text text m o ho =>
    obtain ⟨m₁, h₁, h₂⟩ := Option.bind_eq_some_iff.mp ho
    have hlen : (text.take (text.length % 2 ^ 32)).length < 2 ^ 32 :=
      (List.length_take_le _ _).trans_lt (Nat.mod_lt _ (by decide))
    have hfed := (fed_init transform m).update hlen h₁
    obtain ⟨hfin, hhex⟩ := hfed.finalize (update_keeps h₁).1 h₂
    rw [fileMD5s_finalized contents hfin, hhex]
    rfl

theorem forall₂_replicate {R : Bytes → Bytes → Prop} {l : List Bytes} {x : Bytes} :
    List.Forall₂ R l (List.replicate l.length x) ↔ ∀ c ∈ l, R c x := by
  induction l with
  | nil => simp
  | cons c l ih => simp [List.replicate_succ, ih]

/-- Over any calls on one object, whatever the transform: each returns the digest of its file
exactly when all files have the digest of what the object hashed first. -/
theorem fileMD5s_isDigest_iff {text : Option Bytes} (h : Constructed transform o text)
    (contents : List Bytes) : ∃ rs, fileMD5s transform contents o = some rs ∧
      (List.Forall₂ (IsDigest transform) contents rs ↔
        ∀ c ∈ contents, md5 transform c = md5 transform (firstOf text contents)) := by
  refine ⟨_, fileMD5s_eq h contents, ?_⟩
  rw [forall₂_replicate]
  simp only [isDigest_iff, eq_comm]

theorem fileMD5s_isDigest_same : ∃ rs,
    fileMD5s Md5.transform [[97], [97]] (init raw) = some rs ∧
      List.Forall₂ (IsDigest Md5.transform) [[97], [97]] rs := by
  have h : Constructed Md5.transform (init raw) none := .default raw
  obtain ⟨rs, hrs, hiff⟩ := fileMD5s_isDigest_iff h [[97], [97]]
  exact ⟨rs, hrs, hiff.mpr (by simp [firstOf])⟩

/-- A file with the content "a" and one with the content "b": the second call returns the
digest of the first file. -/
theorem fileMD5s_not_isDigest : ∃ rs,
    fileMD5s Md5.transform [[97], [98]] (init raw) = some rs ∧
      ¬ List.Forall₂ (IsDigest Md5.transform) [[97], [98]] rs := by
  refine ⟨_, fileMD5s_eq (.default raw) [[97], [98]], ?_⟩
  have hne : md5 Md5.transform [97] ≠ md5 Md5.transform [98] := by decide +kernel
  simpa [List.replicate, firstOf, isDigest_iff] using hne

end Calls

end Vs17.Md5
