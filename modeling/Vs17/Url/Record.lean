import Vs17.Library.CString
import Vs17.Library.Lines

/-! # One line of a trace

`handleMem` copies what stands before the first eight bars of a line into the members of
`LinkInfo` and the rest into `tag`, and `getError` takes two numbers from the string in
`tag`. The record and the buffer are those of the line before, and no copy looks at the
size of the buffer.
-/

namespace Vs17.Url

open Words Text Lines CString

/-- The sizes of the members of `LinkInfo` that are strings. -/
def memberSizes : List ℕ :=
  [32, -- `traceId`
   32, -- `startTime`
   32, -- `spanId`
   32, -- `parentId`
   8, -- `duration`
   64, -- `serviceName`
   64, -- `spanName`
   32] -- `host`

def tagSize : ℕ := 512

/-- The size of `status` and of `err`. -/
def numberSize : ℕ := 8

structure LinkInfo where
  members : List Bytes
  statusCode : ℕ
  error : ℕ
  deriving DecidableEq, Repr

def LinkInfo.new : LinkInfo := ⟨memberSizes.map fun n => List.replicate n 0, 0, 0⟩

/-- The test before a line is printed. -/
def LinkInfo.failed (info : LinkInfo) : Bool := info.statusCode ≠ 200 && info.statusCode ≠ 0

/-- The variables of `handleMem` that all lines of a call share. -/
structure Locals where
  info : LinkInfo
  tag : Bytes
  deriving DecidableEq, Repr

def bar : UInt8 := 124

/-- The blocks that search a bar and copy what stands before it, one for each member. -/
def copyMembers : List Bytes → Bytes → Except Fault (List Bytes × Bytes)
  | [], pos1 => .ok ([], pos1)
  | m :: ms, pos1 =>
    match strchr bar pos1 with
    | none => (copyMembers ms pos1).bind fun r => .ok (m :: r.1, r.2)
    | some n =>
      (copy (pos1.take n) m).bind fun m' =>
        (copyMembers ms (pos1.drop (n + 1))).bind fun r => .ok (m' :: r.1, r.2)

def statusMarker : Bytes := ascii "http.status_code="

def errorMarker : Bytes := ascii "error="

/-- The digits behind a marker, through a buffer that holds zero bytes at first. Without the
marker the number stays. -/
def getNumber (marker tag : Bytes) (number : ℕ) : Except Fault ℕ :=
  match after marker tag with
  | none => .ok number
  | some pos =>
    ((copy (digits pos) (List.replicate numberSize 0)).bind read).bind fun s => .ok (atoi s)

/-- `getError`: the new `statusCode` and `error`. -/
def getError (tag : Bytes) (statusCode error : ℕ) : Except Fault (ℕ × ℕ) :=
  (read tag).bind fun s =>
    (getNumber statusMarker s statusCode).bind fun statusCode' =>
      (getNumber errorMarker s error).bind fun error' => .ok (statusCode', error')

/-- The body of the loop of `handleMem` up to the call of `getError`. -/
def Locals.readLine (v : Locals) (line : Bytes) : Except Fault Locals :=
  (copyMembers v.info.members line).bind fun r =>
    (copy r.2 v.tag).bind fun tag =>
      (getError tag v.info.statusCode v.info.error).bind fun e =>
        .ok ⟨⟨r.1, e.1, e.2⟩, tag⟩

def fieldsOf (line : Bytes) : List Bytes := fields bar memberSizes.length line

def tagOf (line : Bytes) : Bytes := behind bar memberSizes.length line

/-- The string that `getError` finds in the buffer: the tag, and behind it what the buffer
held before. -/
def seen (old line : Bytes) : Bytes := tagOf line ++ cstr (old.drop (tagOf line).length)

/-- The number behind the first marker, or the given one. -/
def numberAt (marker s : Bytes) (number : ℕ) : ℕ :=
  match after marker s with
  | none => number
  | some pos => atoi pos

/-- The members after the fields have been copied to their fronts. -/
def overlay : List Bytes → List Bytes → List Bytes
  | m :: ms, f :: fs => blit 0 f m :: overlay ms fs
  | ms, _ => ms

/-- The variables after a line. -/
def Locals.next (v : Locals) (line : Bytes) : Locals where
  info :=
    { members := overlay v.info.members (fieldsOf line)
      statusCode := numberAt statusMarker (seen v.tag line) v.info.statusCode
      error := numberAt errorMarker (seen v.tag line) v.info.error }
  tag := blit 0 (tagOf line) v.tag

/-- What a line must meet, for a buffer `tag` with these contents: its fields fit their
members, the buffer holds a zero byte behind the tag, and no number has eight digits. -/
structure LineFits (old line : Bytes) : Prop where
  members : ∀ x ∈ memberSizes.zip (fieldsOf line), x.2.length ≤ x.1
  tag : 0 ∈ old.drop (tagOf line).length
  status : ∀ pos ∈ after statusMarker (seen old line), (digits pos).length < numberSize
  error : ∀ pos ∈ after errorMarker (seen old line), (digits pos).length < numberSize

variable {v w : Locals} {line : Bytes}

theorem overlay_nil (ms : List Bytes) : overlay ms [] = ms := by
  cases ms <;> rfl

theorem copyMembers_ok_iff {ms : List Bytes} {pos1 : Bytes} {r : List Bytes × Bytes}
    (h₀ : (0 : UInt8) ∉ pos1) :
    copyMembers ms pos1 = .ok r ↔
      (∀ x ∈ (ms.map List.length).zip (fields bar ms.length pos1), x.2.length ≤ x.1) ∧
        (overlay ms (fields bar ms.length pos1), behind bar ms.length pos1) = r := by
  induction ms generalizing pos1 r with
  | nil => simp [copyMembers, overlay]
  | cons m ms ih =>
    by_cases hbar : bar ∈ pos1
    · obtain ⟨l, b, rfl, hl⟩ := List.eq_append_cons_of_mem hbar
      obtain ⟨hl₀, hb₀⟩ := not_or.mp (mt List.mem_append.mpr h₀)
      have hb₀ : (0 : UInt8) ∉ b := fun h => hb₀ (List.mem_cons_of_mem _ h)
      have hdrop : (l ++ bar :: b).drop (l.length + 1) = b := by simp
      rw [copyMembers, strchr_append_cons hl hl₀ (by decide), List.length_cons,
        fields_append_cons hl, behind_append_cons hl]
      simp only [List.take_left, hdrop, bind_ok_iff, copy_ok_iff, ih hb₀, Except.ok.injEq,
        List.map_cons, List.zip_cons_cons, List.forall_mem_cons, overlay]
      constructor
      · rintro ⟨_, ⟨hle, rfl⟩, _, ⟨hall, rfl⟩, rfl⟩
        exact ⟨⟨hle, hall⟩, rfl⟩
      · rintro ⟨⟨hle, hall⟩, rfl⟩
        exact ⟨_, ⟨hle, rfl⟩, _, ⟨hall, rfl⟩, rfl⟩
    · have hnone : strchr bar pos1 = none := by
        rw [strchr_eq_none, cstr_eq_self h₀]
        exact hbar
      rw [copyMembers, hnone]
      simp [bind_ok_iff, ih h₀, fields_of_not_mem hbar, behind_of_not_mem hbar,
        overlay_nil]

theorem getNumber_ok_iff {marker s : Bytes} {number n : ℕ} :
    getNumber marker s number = .ok n ↔
      (∀ pos ∈ after marker s, (digits pos).length < numberSize) ∧
        numberAt marker s number = n := by
  rw [getNumber, numberAt]
  cases after marker s with
  | none => simp
  | some pos =>
    have hread : ∀ t, (copy (digits pos) (List.replicate numberSize 0)).bind read = .ok t ↔
        (digits pos).length < numberSize ∧ digits pos = t := by
      intro t
      rw [read_copy_iff (zero_not_mem_digits pos), List.drop_replicate, List.mem_replicate]
      have hcstr : ∀ k, cstr (List.replicate k 0) = [] := by
        intro k
        cases k <;> simp [cstr, List.replicate_succ]
      rw [hcstr, List.append_nil, and_iff_left rfl, ← Nat.pos_iff_ne_zero, Nat.sub_pos_iff_lt]
    simp [bind_ok_iff, hread]

theorem getError_ok_iff {tag : Bytes} {statusCode error : ℕ} {e : ℕ × ℕ} :
    getError tag statusCode error = .ok e ↔ 0 ∈ tag ∧
      (∀ pos ∈ after statusMarker (cstr tag), (digits pos).length < numberSize) ∧
      (∀ pos ∈ after errorMarker (cstr tag), (digits pos).length < numberSize) ∧
      (numberAt statusMarker (cstr tag) statusCode, numberAt errorMarker (cstr tag) error) = e := by
  simp only [getError, bind_ok_iff, read_ok_iff, getNumber_ok_iff, Except.ok.injEq]
  constructor
  · rintro ⟨_, ⟨htag, rfl⟩, _, ⟨hs, rfl⟩, _, ⟨he, rfl⟩, rfl⟩
    exact ⟨htag, hs, he, rfl⟩
  · rintro ⟨htag, hs, he, rfl⟩
    exact ⟨_, ⟨htag, rfl⟩, _, ⟨hs, rfl⟩, _, ⟨he, rfl⟩, rfl⟩

theorem Locals.readLine_ok_iff (h₀ : (0 : UInt8) ∉ line)
    (hm : v.info.members.map List.length = memberSizes) :
    v.readLine line = .ok w ↔ LineFits v.tag line ∧ v.next line = w := by
  have hmembers : ∀ r, copyMembers v.info.members line = .ok r ↔
      (∀ x ∈ memberSizes.zip (fieldsOf line), x.2.length ≤ x.1) ∧
        (overlay v.info.members (fieldsOf line), tagOf line) = r := by
    have hlen : v.info.members.length = memberSizes.length := by
      rw [← hm, List.length_map]
    intro r
    rw [copyMembers_ok_iff h₀, hm, hlen, fieldsOf, tagOf]
  have ht₀ : (0 : UInt8) ∉ tagOf line := fun h => h₀ (mem_of_mem_behind h)
  have hseen : (tagOf line).length ≤ v.tag.length →
      cstr (blit 0 (tagOf line) v.tag) = seen v.tag line := by
    intro hle
    rw [blit_zero hle, cstr_append ht₀, seen]
  have hzero : (tagOf line).length ≤ v.tag.length →
      (0 ∈ blit 0 (tagOf line) v.tag ↔ 0 ∈ v.tag.drop (tagOf line).length) := by
    intro hle
    rw [blit_zero hle, List.mem_append, or_iff_right ht₀]
  rw [readLine]
  simp only [bind_ok_iff, copy_ok_iff, getError_ok_iff, hmembers, Except.ok.injEq]
  constructor
  · rintro ⟨_, ⟨hfit, rfl⟩, _, ⟨hle, rfl⟩, _, ⟨htag, hstatus, herror, rfl⟩, rfl⟩
    dsimp only at hle htag hstatus herror ⊢
    rw [hzero hle] at htag
    rw [hseen hle] at hstatus herror ⊢
    exact ⟨⟨hfit, htag, hstatus, herror⟩, rfl⟩
  · rintro ⟨⟨hfit, htag, hstatus, herror⟩, rfl⟩
    have hle : (tagOf line).length ≤ v.tag.length := by
      by_contra hlt
      rw [List.drop_eq_nil_of_le (not_le.mp hlt).le] at htag
      cases htag
    refine ⟨_, ⟨hfit, rfl⟩, _, ⟨hle, rfl⟩, _, ⟨(hzero hle).mpr htag, ?_, ?_, rfl⟩, ?_⟩
    · rwa [hseen hle]
    · rwa [hseen hle]
    · dsimp only
      rw [hseen hle, next]

theorem overlay_map_length (ms fs : List Bytes) :
    (overlay ms fs).map List.length = ms.map List.length := by
  induction ms generalizing fs with
  | nil => cases fs <;> rfl
  | cons m ms ih =>
    cases fs with
    | nil => rfl
    | cons f fs => rw [overlay, List.map_cons, List.map_cons, length_blit, ih]

@[simp] theorem Locals.next_members_length (v : Locals) (line : Bytes) :
    (v.next line).info.members.map List.length = v.info.members.map List.length :=
  overlay_map_length ..

theorem LinkInfo.new_members_length : LinkInfo.new.members.map List.length = memberSizes := by
  decide

end Vs17.Url
