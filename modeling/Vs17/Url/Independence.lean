import Vs17.Url.Splitting

/-! # Records and their neighbours

The record of a line is that of the line alone exactly when nothing that the lines before
it in its call have left behind changes a number or shows in a member.
-/

namespace Vs17.Url

open Words Text Lines CString

/-- The record of a line on its own. -/
def recordOf (line : Bytes) : LinkInfo where
  members := overlay LinkInfo.new.members (fieldsOf line)
  statusCode := numberAt statusMarker (tagOf line) 0
  error := numberAt errorMarker (tagOf line) 0

/-- The tag of the line carries a status code other than 0 and 200. -/
def Failed (line : Bytes) : Prop :=
  ∃ pos ∈ after statusMarker (tagOf line), atoi pos ≠ 0 ∧ atoi pos ≠ 200

instance (line : Bytes) : Decidable (Failed line) :=
  inferInstanceAs (Decidable (∃ pos ∈ after statusMarker (tagOf line), _))

/-- The fields and the tag of the line fit their buffers. -/
structure FieldsFit (line : Bytes) : Prop where
  members : ∀ x ∈ memberSizes.zip (fieldsOf line), x.2.length ≤ x.1
  tag : (tagOf line).length ≤ tagSize

/-- Every line leaves the record of the line alone, and the lines printed are those that have
failed. -/
def Independent (b : UInt8) (cs : List Chunk) : Prop :=
  ∃ mem os, deliver (.start b) cs = .ok (mem, os) ∧
    os.flatMap Outcome.parsed = (lines newline (textOf cs)).map (fun l => (l, recordOf l)) ∧
    os.flatMap Outcome.printed = (lines newline (textOf cs)).filter fun l => Failed l

/-- Bytes behind a tag and the number of the line before do not change the number of the tag:
they do not go on with its digits, or it is 0 all the same. -/
def Undisturbed (marker : Bytes) (number : ℕ) (tag rest : Bytes) : Prop :=
  match after marker tag with
  | some pos => (digits (pos ++ rest)).length < numberSize ∧
      (digits (pos ++ rest) = digits pos ∨ atoi (pos ++ rest) = 0)
  | none =>
    match after marker (tag ++ rest) with
    | some pos => (digits pos).length < numberSize ∧ atoi pos = 0
    | none => number = 0

/-- What stays in the members behind the fields that are copied to them. -/
def leftovers : List Bytes → List Bytes → List Bytes
  | m :: ms, f :: fs => m.drop f.length :: leftovers ms fs
  | ms, _ => ms

/-- The record and the buffer that a line meets do not show in what it leaves. -/
structure LineAlone (info : LinkInfo) (old line : Bytes) : Prop where
  members : ∀ m ∈ leftovers info.members (fieldsOf line), ∀ c ∈ m, c = 0
  tag : 0 ∈ old.drop (tagOf line).length
  status : Undisturbed statusMarker info.statusCode (tagOf line)
    (cstr (old.drop (tagOf line).length))
  error : Undisturbed errorMarker info.error (tagOf line) (cstr (old.drop (tagOf line).length))

/-- The lines of a call leave nothing that shows in the lines behind them. -/
def LinesAlone : LinkInfo → Bytes → List Bytes → Prop
  | _, _, [] => True
  | info, old, l :: ls =>
    LineAlone info old l ∧ LinesAlone (recordOf l) (blit 0 (tagOf l) old) ls

variable {v w : Locals} {line : Bytes} {ls : List Bytes} {mem : MemoryStruct} {kept : Bytes}
  {cs : List Chunk}

theorem failed_recordOf (line : Bytes) : (recordOf line).failed = decide (Failed line) := by
  have hfailed : (recordOf line).failed = true ↔
      numberAt statusMarker (tagOf line) 0 ≠ 200 ∧ numberAt statusMarker (tagOf line) 0 ≠ 0 := by
    rw [LinkInfo.failed, Bool.and_eq_true, decide_eq_true_iff, decide_eq_true_iff, recordOf]
  rw [Bool.eq_iff_iff, decide_eq_true_iff, hfailed, numberAt, Failed.eq_def]
  cases after statusMarker (tagOf line) with
  | none => simp
  | some pos => simp [and_comm]

theorem undisturbed_iff (marker : Bytes) (number : ℕ) (tag rest : Bytes) :
    Undisturbed marker number tag rest ↔
      (∀ pos ∈ after marker (tag ++ rest), (digits pos).length < numberSize) ∧
        numberAt marker (tag ++ rest) number = numberAt marker tag 0 := by
  rw [Undisturbed, numberAt, numberAt]
  cases htag : after marker tag with
  | some pos =>
    rw [after_append htag]
    simp only [Option.mem_some_iff, forall_eq', atoi_append_eq_iff]
  | none => cases after marker (tag ++ rest) <;> simp

theorem leftovers_nil (ms : List Bytes) : leftovers ms [] = ms := by
  cases ms <;> rfl

/-- The members come out as from a new record exactly when only zero bytes stay in them. -/
theorem overlay_eq_iff {ms fs : List Bytes}
    (hfit : ∀ x ∈ (ms.map List.length).zip fs, x.2.length ≤ x.1) :
    overlay ms fs = overlay ((ms.map List.length).map fun n => List.replicate n 0) fs ↔
      ∀ m ∈ leftovers ms fs, ∀ c ∈ m, c = 0 := by
  induction ms generalizing fs with
  | nil => simp [overlay, leftovers]
  | cons m ms ih =>
    cases fs with
    | nil =>
      have hms : overlay ms [] = overlay ((ms.map List.length).map _) [] ↔ _ := ih (by simp)
      rw [overlay_nil, overlay_nil, leftovers_nil] at hms
      rw [overlay_nil, overlay_nil, leftovers_nil, List.map_cons, List.map_cons, List.cons.injEq,
        hms, List.forall_mem_cons, List.eq_replicate_iff, and_iff_right rfl]
    | cons f fs =>
      simp only [List.map_cons, List.zip_cons_cons, List.forall_mem_cons] at hfit
      obtain ⟨hle, hfit⟩ := hfit
      have hzero : f.length ≤ (List.replicate m.length (0 : UInt8)).length := by simpa using hle
      rw [List.map_cons, List.map_cons, overlay, overlay, leftovers, List.cons.injEq, ih hfit,
        List.forall_mem_cons, blit_zero hle, blit_zero hzero, List.append_cancel_left_eq,
        List.drop_replicate, List.eq_replicate_iff, List.length_drop, and_iff_right rfl]

theorem Locals.readLine_alone_iff (h₀ : (0 : UInt8) ∉ line)
    (hm : v.info.members.map List.length = memberSizes) (hfit : FieldsFit line) :
    v.readLine line = .ok w ∧ w.info = recordOf line ↔
      LineAlone v.info v.tag line ∧ w = ⟨recordOf line, blit 0 (tagOf line) v.tag⟩ := by
  have hstatus := undisturbed_iff statusMarker v.info.statusCode (tagOf line)
    (cstr (v.tag.drop (tagOf line).length))
  have herror := undisturbed_iff errorMarker v.info.error (tagOf line)
    (cstr (v.tag.drop (tagOf line).length))
  have hfields : ∀ x ∈ (v.info.members.map List.length).zip (fieldsOf line),
      x.2.length ≤ x.1 := hm ▸ hfit.members
  have hmembers := overlay_eq_iff hfields
  rw [← seen] at hstatus herror
  rw [hm] at hmembers
  rw [readLine_ok_iff h₀ hm]
  constructor
  · rintro ⟨⟨hline, rfl⟩, hinfo⟩
    have hall := LinkInfo.mk.inj hinfo
    refine ⟨⟨hmembers.mp hall.1, hline.tag, hstatus.mpr ⟨hline.status, hall.2.1⟩,
      herror.mpr ⟨hline.error, hall.2.2⟩⟩, ?_⟩
    rw [← hinfo]
    rfl
  · rintro ⟨halone, rfl⟩
    have hs := hstatus.mp halone.status
    have he := herror.mp halone.error
    refine ⟨⟨⟨hfit.members, halone.tag, hs.1, he.1⟩, ?_⟩, rfl⟩
    have hmem := hmembers.mpr halone.members
    rw [next, hmem, hs.2, he.2]
    rfl

theorem Locals.readLines_alone_iff (h₀ : ∀ l ∈ ls, (0 : UInt8) ∉ l)
    (hm : v.info.members.map List.length = memberSizes) (hfit : ∀ l ∈ ls, FieldsFit l) :
    (∃ r, v.readLines ls = .ok r ∧ r.2 = ls.map fun l => (l, recordOf l)) ↔
      LinesAlone v.info v.tag ls := by
  induction ls generalizing v with
  | nil => simp [readLines, LinesAlone]
  | cons l ls ih =>
    obtain ⟨hl₀, hls₀⟩ := List.forall_mem_cons.mp h₀
    obtain ⟨hl, hls⟩ := List.forall_mem_cons.mp hfit
    have hrecord : (recordOf l).members.map List.length = memberSizes := by
      rw [recordOf, overlay_map_length, LinkInfo.new_members_length]
    have hrest := ih (v := ⟨recordOf l, blit 0 (tagOf l) v.tag⟩) hls₀ hrecord hls
    rw [LinesAlone, ← hrest]
    simp only [readLines, bind_ok_iff, Except.ok.injEq, List.map_cons]
    constructor
    · rintro ⟨_, ⟨w, hw, r, hr, rfl⟩, heq⟩
      obtain ⟨hinfo, hparsed⟩ := List.cons.inj heq
      obtain ⟨halone, rfl⟩ := (readLine_alone_iff hl₀ hm hl).mp ⟨hw, (Prod.mk.inj hinfo).2⟩
      exact ⟨halone, r, hr, hparsed⟩
    · rintro ⟨halone, r, hr, hparsed⟩
      obtain ⟨hw, -⟩ := (readLine_alone_iff hl₀ hm hl).mpr ⟨halone, rfl⟩
      exact ⟨_, ⟨_, hw, r, hr, rfl⟩, by rw [hparsed]⟩

theorem deliver_printed {r : MemoryStruct × List Outcome} (h : mem.Holds kept)
    (hr : deliver mem cs = .ok r) :
    r.2.flatMap Outcome.printed = failedLines (r.2.flatMap Outcome.parsed) := by
  induction cs generalizing mem kept r with
  | nil =>
    cases hr
    rfl
  | cons c cs ih =>
    obtain ⟨mem', hmem', hcons⟩ := deliver_cons (c := c) h cs
    obtain ⟨p, q, -, hq, rfl⟩ := (hcons r).mp hr
    rw [List.flatMap_cons, List.flatMap_cons, failedLines_append, ih hmem' hq]

theorem failedLines_map (ls : List Bytes) :
    failedLines (ls.map fun l => (l, recordOf l)) = ls.filter fun l => Failed l := by
  induction ls with
  | nil => rfl
  | cons l ls ih =>
    rw [List.map_cons, failedLines_cons, List.filter_cons, ih, failed_recordOf]

theorem deliver_alone_iff (h : mem.Holds kept) (hkept : newline ∉ kept)
    (hkept₀ : (0 : UInt8) ∉ kept) (h₀ : ∀ c ∈ cs, (0 : UInt8) ∉ c.data)
    (hfit : ∀ l ∈ lines newline (kept ++ textOf cs), FieldsFit l) :
    (∃ r, deliver mem cs = .ok r ∧ r.2.flatMap Outcome.parsed =
        (lines newline (kept ++ textOf cs)).map fun l => (l, recordOf l)) ↔
      EachCall (LinesAlone .new) kept cs := by
  induction cs generalizing mem kept with
  | nil =>
    simp [deliver, EachCall, lines_of_not_mem hkept]
  | cons c cs ih =>
    obtain ⟨hc₀, hcs₀⟩ := List.forall_mem_cons.mp h₀
    have htext₀ := List.not_mem_append hkept₀ hc₀
    rw [append_textOf_cons, lines_append (kept ++ c.data)] at hfit ⊢
    obtain ⟨hfit, hfits⟩ := List.forall_mem_append.mp hfit
    obtain ⟨mem', hmem', hcons⟩ := deliver_cons (c := c) h cs
    rw [unread_eq_tail htext₀] at hmem'
    have htail₀ : (0 : UInt8) ∉ tail newline (kept ++ c.data) := fun hmem =>
      htext₀ (mem_of_mem_tail hmem)
    have hlines₀ : ∀ l ∈ lines newline (kept ++ c.data), (0 : UInt8) ∉ l := fun l hl hmem =>
      htext₀ (mem_of_mem_lines hl hmem)
    have hcall := Locals.readLines_alone_iff (v := ⟨.new, c.tag⟩) hlines₀
      LinkInfo.new_members_length hfit
    have hcalls := ih hmem' (not_mem_tail _) htail₀ hcs₀ hfits
    rw [EachCall, cstr_eq_self htext₀, unread_eq_tail htext₀, ← hcall, ← hcalls]
    simp only [hcons, cstr_eq_self htext₀, List.map_append]
    constructor
    · rintro ⟨_, ⟨p, q, hp, hq, rfl⟩, heq⟩
      have hlen : p.2.length =
          ((lines newline (kept ++ c.data)).map fun l => (l, recordOf l)).length := by
        rw [List.length_map, ← Locals.readLines_fst hp, List.length_map]
      obtain ⟨hpeq, hqeq⟩ := List.append_inj heq hlen
      exact ⟨⟨p, hp, hpeq⟩, q, hq, hqeq⟩
    · rintro ⟨⟨p, hp, hpeq⟩, q, hq, hqeq⟩
      refine ⟨_, ⟨p, q, hp, hq, rfl⟩, ?_⟩
      rw [List.flatMap_cons, hpeq, hqeq]

/-- The lines are handled independently exactly when none leaves anything behind that shows in
a later line of its call. -/
theorem independent_iff (b : UInt8) (cs : List Chunk) (h₀ : ∀ c ∈ cs, (0 : UInt8) ∉ c.data)
    (hfit : ∀ l ∈ lines newline (textOf cs), FieldsFit l) :
    Independent b cs ↔ EachCall (LinesAlone .new) [] cs := by
  have hstart := MemoryStruct.start_holds b
  rw [← deliver_alone_iff hstart (by simp) (by simp) h₀ (by simpa using hfit), List.nil_append]
  constructor
  · rintro ⟨mem, os, hr, hparsed, -⟩
    exact ⟨_, hr, hparsed⟩
  · rintro ⟨⟨mem, os⟩, hr, hparsed⟩
    use mem, os, hr, hparsed
    rw [deliver_printed hstart hr, hparsed, failedLines_map]

instance (marker : Bytes) (number : ℕ) (tag rest : Bytes) :
    Decidable (Undisturbed marker number tag rest) :=
  decidable_of_iff _ (undisturbed_iff marker number tag rest).symm

instance (line : Bytes) : Decidable (FieldsFit line) :=
  decidable_of_iff (_ ∧ _) ⟨fun h => ⟨h.1, h.2⟩, fun h => ⟨h.1, h.2⟩⟩

instance (info : LinkInfo) (old line : Bytes) : Decidable (LineAlone info old line) :=
  have (m : Bytes) : Decidable (∀ c ∈ m, c = 0) := List.decidableBAll _ m
  decidable_of_iff (_ ∧ _ ∧ _ ∧ _)
    ⟨fun h => ⟨h.1, h.2.1, h.2.2.1, h.2.2.2⟩, fun h => ⟨h.1, h.2, h.3, h.4⟩⟩

instance instDecidableLinesAlone : ∀ info old ls, Decidable (LinesAlone info old ls)
  | _, _, [] => .isTrue trivial
  | info, old, l :: ls =>
    have := instDecidableLinesAlone (recordOf l) (blit 0 (tagOf l) old) ls
    inferInstanceAs (Decidable (LineAlone info old l ∧ LinesAlone _ _ ls))

/-- A line with a status code of 500, and one without a status code. -/
def failure : Bytes := ascii "a|b|c|d|1|s|n|h|http.status_code=500"

def success : Bytes := ascii "a|b|c|d|1|s|n|h|x"

def apart : List Chunk :=
  [⟨failure ++ [newline], fun _ => 0, fun _ => 0⟩, ⟨success ++ [newline], fun _ => 0, fun _ => 0⟩]

def together : List Chunk :=
  [⟨failure ++ newline :: success ++ [newline], fun _ => 0, fun _ => 0⟩]

theorem independent_apart : Independent 0 apart :=
  (independent_iff 0 apart (by decide +kernel) (by decide +kernel)).mpr (by decide +kernel)

/-- In one call the status code of the first line is that of the second. -/
theorem not_independent_together : textOf together = textOf apart ∧
    (∀ c ∈ together, (0 : UInt8) ∉ c.data) ∧
    (∀ l ∈ lines newline (textOf together), FieldsFit l) ∧
    (deliver (.start 0) together).map (fun r => r.2.flatMap Outcome.printed) =
      .ok [failure, success] ∧
    (lines newline (textOf together)).filter (fun l => Failed l) = [failure] ∧
    ¬ Independent 0 together := by
  have hprinted : (deliver (.start 0) together).map (fun r => r.2.flatMap Outcome.printed) =
      .ok [failure, success] := by decide +kernel
  have hfailed : (lines newline (textOf together)).filter (fun l => Failed l) = [failure] := by
    decide +kernel
  refine ⟨by decide +kernel, by decide +kernel, by decide +kernel, hprinted, hfailed, ?_⟩
  rintro ⟨mem, os, hr, -, h⟩
  rw [hr, Except.map] at hprinted
  rw [hfailed, Except.ok.inj hprinted] at h
  cases h

end Vs17.Url
