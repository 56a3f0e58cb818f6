import Vs17.Library.Tlv
import Vs17.Net.Buffer

/-! # DHCP options of the tap device

The options are written one behind another into a buffer, each as its type, its length and its
value. An option that the buffer has no room for, or whose length is not between 1 and 255, is
left out as a whole and reported.
-/

namespace Vs17.Net

open Words Tlv

def nDhcpAddr : ℕ := 4

/-- An array of addresses, as far as it is in use. -/
abbrev Addresses := {addrs : List UInt32 // addrs.length ≤ nDhcpAddr}

/-- The members of `tuntap_options` that become DHCP options. -/
structure TuntapOptions where
  domain : Option Bytes
  netbiosScope : Option Bytes
  netbiosNodeType : ℤ
  dns : Addresses
  wins : Addresses
  ntp : Addresses
  nbdd : Addresses
  disableNbt : Bool

/-- A buffer that options are written to, and the flag `error`. -/
abbrev Build := Buffer × Bool

def bufWriteU8 (dest : Buffer) (data : ℤ) : Buffer := bufPut dest [UInt8.ofInt data]

def bufWriteU32 (dest : Buffer) (data : UInt32) : Buffer :=
  bufPut dest (toLE 4 (bswap 4 data.toNat))

def writeDhcpU8 (type data : ℤ) : Build → Build
  | (buf, error) =>
    if ¬ bufSafe buf 3 then (buf, true)
    else (bufWriteU8 (bufWriteU8 (bufWriteU8 buf type) 1) data, error)

def writeDhcpU32Array (type : ℤ) (data : List UInt32) : Build → Build
  | (buf, error) =>
    if 0 < data.length then
      let size := data.length * 4
      if ¬ bufSafe buf (2 + size) then (buf, true)
      else if size < 1 ∨ 255 < size then (buf, true)
      else (data.foldl bufWriteU32 (bufWriteU8 (bufWriteU8 buf type) size), error)
    else (buf, error)

def writeDhcpStr (type : ℤ) (str : Bytes) : Build → Build
  | (buf, error) =>
    if ¬ bufSafe buf (2 + str.length) then (buf, true)
    else if str.length < 1 ∨ 255 < str.length then (buf, true)
    else (bufPut (bufWriteU8 (bufWriteU8 buf type) str.length) str, error)

/-- The buffer, and whether all options are in it. -/
def buildDhcpOptionsString (buf : Buffer) (o : TuntapOptions) : Build :=
  let s : Build := (buf, false)
  let s := match o.domain with
    | some domain => writeDhcpStr 15 domain s
    | none => s
  let s := match o.netbiosScope with
    | some netbiosScope => writeDhcpStr 47 netbiosScope s
    | none => s
  let s := if o.netbiosNodeType ≠ 0 then writeDhcpU8 46 o.netbiosNodeType s else s
  let s := writeDhcpU32Array 6 o.dns s
  let s := writeDhcpU32Array 44 o.wins s
  let s := writeDhcpU32Array 42 o.ntp s
  let s := writeDhcpU32Array 45 o.nbdd s
  if o.disableNbt then
    if ¬ bufSafe s.1 8 then (s.1, false)
    else
      let buf := bufWriteU8 (bufWriteU8 s.1 43) 6
      let buf := bufWriteU8 (bufWriteU8 buf 0x001) 4
      (bufWriteU32 buf 0x002, !s.2)
  else (s.1, !s.2)

section Records

/-- An array of addresses as an option, unless it is empty. -/
def addressRecord (type : UInt8) (addrs : Addresses) : List Record :=
  if addrs.1 = [] then [] else [⟨type, addrs.1.flatMap fun a => toLE 4 (bswap 4 a.toNat)⟩]

/-- The options that are asked for, in order. -/
def requested (o : TuntapOptions) : List Record :=
  (o.domain.map (Record.mk 15)).toList ++ (o.netbiosScope.map (Record.mk 47)).toList ++
    (if o.netbiosNodeType ≠ 0 then [⟨46, [UInt8.ofInt o.netbiosNodeType]⟩] else []) ++
    addressRecord 6 o.dns ++ addressRecord 44 o.wins ++ addressRecord 42 o.ntp ++
    addressRecord 45 o.nbdd ++
    if o.disableNbt then [⟨43, 1 :: 4 :: toLE 4 (bswap 4 2)⟩] else []

/-- An option that can be written at all. -/
def Writable (r : Record) : Prop := 1 ≤ r.value.length ∧ r.value.length ≤ 255

instance : DecidablePred Writable := fun _ => inferInstanceAs (Decidable (_ ∧ _))

/-- One option is written, or reported. -/
def putRecord (s : Build) (r : Record) : Build :=
  if bufSafe s.1 r.encode.length ∧ Writable r then (bufPut s.1 r.encode, s.2) else (s.1, true)

variable {s : Build} {o : TuntapOptions}

theorem ofInt_natCast (n : ℕ) : UInt8.ofInt n = UInt8.ofNat n := by
  unfold UInt8.ofInt
  apply UInt8.toNat.inj
  rw [UInt8.toNat_ofNat', UInt8.toNat_ofNat']
  omega

theorem bufSafe_encode_iff {buf : Buffer} {r : Record} :
    bufSafe buf r.encode.length ↔ bufSafe buf (2 + r.value.length) := by
  rw [length_encode_record]

theorem putRecord_of_safe {r : Record} (hsafe : bufSafe s.1 (2 + r.value.length))
    (hr : Writable r) : putRecord s r = (bufPut s.1 r.encode, s.2) := by
  rw [← length_encode_record] at hsafe
  exact if_pos ⟨hsafe, hr⟩

theorem putRecord_of_not {r : Record} (h : ¬ (bufSafe s.1 (2 + r.value.length) ∧ Writable r)) :
    putRecord s r = (s.1, true) := by
  rw [← length_encode_record] at h
  exact if_neg h

/-- The type, the length and the value, one after another. -/
theorem bufPut_encode {buf : Buffer} {r : Record} (h : bufSafe buf (2 + r.value.length)) :
    bufPut (bufPut (bufPut buf [r.type]) [UInt8.ofNat r.value.length]) r.value =
      bufPut buf r.encode := by
  have hheader : bufSafe buf ([r.type].length + [UInt8.ofNat r.value.length].length) :=
    h.mono (Nat.le_add_right 2 _)
  rw [bufPut_bufPut hheader, bufPut_bufPut h]
  rfl

theorem writeDhcpU8_eq (type data : ℤ) (s : Build) :
    writeDhcpU8 type data s = putRecord s ⟨UInt8.ofInt type, [UInt8.ofInt data]⟩ := by
  obtain ⟨buf, error⟩ := s
  rw [writeDhcpU8]
  split_ifs with hsafe
  · rw [putRecord_of_safe hsafe ⟨le_rfl, Nat.le_of_ble_eq_true rfl⟩, ← bufPut_encode hsafe]
    rfl
  · rw [putRecord_of_not fun h => hsafe h.1]

theorem writeDhcpStr_eq (type : ℤ) (str : Bytes) (s : Build) :
    writeDhcpStr type str s = putRecord s ⟨UInt8.ofInt type, str⟩ := by
  obtain ⟨buf, error⟩ := s
  rw [writeDhcpStr]
  split_ifs with hsafe hlength
  · rw [putRecord_of_not]
    rintro ⟨-, hr⟩
    have hr : 1 ≤ str.length ∧ str.length ≤ 255 := hr
    omega
  · have hr : Writable ⟨UInt8.ofInt type, str⟩ := by
      change 1 ≤ str.length ∧ str.length ≤ 255
      omega
    rw [putRecord_of_safe hsafe hr, ← bufPut_encode hsafe, ← ofInt_natCast]
    rfl
  · rw [putRecord_of_not fun h => hsafe h.1]

theorem length_addresses (addrs : List UInt32) :
    (addrs.flatMap fun a => toLE 4 (bswap 4 a.toNat)).length = addrs.length * 4 := by
  simp [List.length_flatMap]

theorem writeDhcpU32Array_eq (type : ℤ) (addrs : Addresses) (s : Build) :
    writeDhcpU32Array type addrs.1 s =
      (addressRecord (UInt8.ofInt type) addrs).foldl putRecord s := by
  obtain ⟨buf, error⟩ := s
  obtain ⟨addrs, hshort⟩ := addrs
  have hlength := length_addresses addrs
  unfold nDhcpAddr at hshort
  rw [writeDhcpU32Array, addressRecord]
  by_cases hnil : addrs = []
  · simp [hnil]
  have hpos := List.length_pos_of_ne_nil hnil
  rw [if_pos hpos, if_neg hnil, List.foldl_cons, List.foldl_nil]
  dsimp only
  split_ifs with hsafe hsize
  · omega
  · have hr : Writable ⟨UInt8.ofInt type, addrs.flatMap fun a => toLE 4 (bswap 4 a.toNat)⟩ := by
      unfold Writable
      dsimp only
      omega
    rw [← hlength] at hsafe ⊢
    rw [putRecord_of_safe hsafe hr, ← bufPut_encode hsafe, ← foldl_bufPut, ← ofInt_natCast]
    · rfl
    · refine bufSafe_bufPut (bufSafe_bufPut ?_)
      rwa [List.length_singleton, List.length_singleton, ← Nat.add_assoc]
  · rw [← hlength] at hsafe
    rw [putRecord_of_not fun h => hsafe h.1]

/-- The last option: eight bytes with two lengths in them. -/
theorem vendor_eq (s : Build) (hsafe : bufSafe s.1 8) :
    bufWriteU32 (bufWriteU8 (bufWriteU8 (bufWriteU8 (bufWriteU8 s.1 43) 6) 0x001) 4) 0x002 =
      (putRecord s ⟨43, 1 :: 4 :: toLE 4 (bswap 4 2)⟩).1 := by
  have hroom : bufSafe s.1 ([[43], [6], [1], [4], toLE 4 (bswap 4 2)].flatMap id).length := by
    simpa using hsafe
  have hpieces := foldl_bufPut id hroom
  rw [putRecord_of_safe hsafe ⟨by simp, by simp⟩]
  exact hpieces

/-- The options are written one after another, whatever their kind. -/
theorem buildDhcpOptionsString_eq (buf : Buffer) (o : TuntapOptions) :
    buildDhcpOptionsString buf o =
      (((requested o).foldl putRecord (buf, false)).1,
        !((requested o).foldl putRecord (buf, false)).2) := by
  unfold buildDhcpOptionsString requested
  simp only [List.foldl_append, writeDhcpStr_eq, writeDhcpU8_eq, writeDhcpU32Array_eq,
    show UInt8.ofInt 15 = 15 from rfl, show UInt8.ofInt 47 = 47 from rfl,
    show UInt8.ofInt 46 = 46 from rfl, show UInt8.ofInt 6 = 6 from rfl,
    show UInt8.ofInt 44 = 44 from rfl, show UInt8.ofInt 42 = 42 from rfl,
    show UInt8.ofInt 45 = 45 from rfl]
  have hdomain : ∀ s : Build, (match o.domain with
      | some domain => putRecord s ⟨15, domain⟩
      | none => s) = (o.domain.map (Record.mk 15)).toList.foldl putRecord s := by
    intro s
    cases o.domain <;> rfl
  have hscope : ∀ s : Build, (match o.netbiosScope with
      | some netbiosScope => putRecord s ⟨47, netbiosScope⟩
      | none => s) = (o.netbiosScope.map (Record.mk 47)).toList.foldl putRecord s := by
    intro s
    cases o.netbiosScope <;> rfl
  have hnode : ∀ s : Build, (if o.netbiosNodeType ≠ 0 then
      putRecord s ⟨46, [UInt8.ofInt o.netbiosNodeType]⟩ else s) =
      (if o.netbiosNodeType ≠ 0 then [⟨46, [UInt8.ofInt o.netbiosNodeType]⟩]
        else []).foldl putRecord s := by
    intro s
    split <;> rfl
  rw [hdomain, hscope, hnode]
  generalize List.foldl putRecord _ (addressRecord 45 o.nbdd) = s
  split_ifs with hnbt hsafe
  · have hput := putRecord_of_safe hsafe (r := ⟨43, 1 :: 4 :: toLE 4 (bswap 4 2)⟩)
      ⟨by simp, by simp⟩
    rw [List.foldl_cons, List.foldl_nil, vendor_eq s hsafe, hput]
  · rw [List.foldl_cons, List.foldl_nil, putRecord_of_not fun h => hsafe h.1]
    rfl
  · rfl

/-- What becomes of the options in turn: those that are written lie behind what the buffer held,
and the flag tells whether one was left out. -/
theorem foldl_putRecord (rs : List Record) (s : Build) :
    ∃ written, written.Sublist rs ∧ (∀ r ∈ written, Writable r) ∧
      (rs.foldl putRecord s).1.content = s.1.content ++ encode written ∧
      ((rs.foldl putRecord s).2 = false ↔ s.2 = false ∧ written = rs) := by
  induction rs generalizing s with
  | nil => exact ⟨[], by simp⟩
  | cons r rs ih =>
    rw [List.foldl_cons]
    by_cases h : bufSafe s.1 (2 + r.value.length) ∧ Writable r
    · rw [putRecord_of_safe h.1 h.2]
      obtain ⟨written, hsub, hall, hcontent, hflag⟩ := ih (bufPut s.1 r.encode, s.2)
      have hput := bufPut_of_safe (bufSafe_encode_iff.mpr h.1)
      refine ⟨r :: written, hsub.cons_cons r, by simpa [h.2] using hall, ?_, by simpa using hflag⟩
      rw [hcontent, hput.1, encode_cons, List.append_assoc]
    · rw [putRecord_of_not h]
      obtain ⟨written, hsub, hall, hcontent, hflag⟩ := ih (s.1, true)
      refine ⟨written, hsub.cons r, hall, hcontent, hflag.trans (iff_of_false (by simp) ?_)⟩
      rintro ⟨-, rfl⟩
      exact absurd hsub.length_le (by simp)

/-- All are written exactly when each can be and there is room for all of them. -/
theorem foldl_putRecord_iff (rs : List Record) (s : Build) :
    (rs.foldl putRecord s).2 = false ↔ s.2 = false ∧ (∀ r ∈ rs, Writable r) ∧
      s.1.offset + s.1.content.length + (encode rs).length ≤ s.1.capacity := by
  induction rs generalizing s with
  | nil =>
    have hfits := s.1.fits
    simp [hfits]
  | cons r rs ih =>
    have hlength := length_encode_record r
    rw [List.foldl_cons, ih, encode_cons, List.length_append, List.forall_mem_cons]
    by_cases h : bufSafe s.1 (2 + r.value.length) ∧ Writable r
    · obtain ⟨hcontent, hoffset, hcapacity⟩ := bufPut_of_safe (bufSafe_encode_iff.mpr h.1)
      rw [putRecord_of_safe h.1 h.2]
      dsimp only
      rw [hcontent, hoffset, hcapacity, List.length_append]
      simp only [h.2, true_and, Nat.add_assoc]
    · rw [putRecord_of_not h]
      refine iff_of_false (by simp) ?_
      rintro ⟨-, ⟨hr, -⟩, hroom⟩
      refine h ⟨⟨?_, by omega⟩, hr⟩
      have hshort := hr.2
      unfold bufSizeMax
      omega

/-- The options that are written, behind what the buffer held, are some of those asked for, in
their order, and are read back from there. All of them are written, and the call says so, exactly
when each value has between 1 and 255 bytes and there is room for all. -/
theorem buildDhcpOptionsString_spec (buf : Buffer) (o : TuntapOptions) :
    ∃ written, (buildDhcpOptionsString buf o).1.content = buf.content ++ encode written ∧
      decode ((buildDhcpOptionsString buf o).1.content.drop buf.content.length) = some written ∧
      written.Sublist (requested o) ∧
      ((buildDhcpOptionsString buf o).2 = true ↔ written = requested o) ∧
      ((buildDhcpOptionsString buf o).2 = true ↔ (∀ r ∈ requested o, Writable r) ∧
        buf.offset + buf.content.length + (encode (requested o)).length ≤ buf.capacity) := by
  rw [buildDhcpOptionsString_eq]
  obtain ⟨written, hsub, hall, hcontent, hflag⟩ := foldl_putRecord (requested o) (buf, false)
  have hroom := foldl_putRecord_iff (requested o) (buf, false)
  refine ⟨written, hcontent, ?_, hsub, ?_, ?_⟩
  · rw [hcontent, List.drop_left]
    exact decode_encode fun r hr => (hall r hr).2
  · simpa using hflag
  · simpa using hroom

end Records

end Vs17.Net
