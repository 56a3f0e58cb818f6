import Vs17.Library.Runs
import Vs17.Library.Text

/-! # Shrinking the log file

`logException` appends a line and checks the size of the file. A file that is too big is
rewritten with a part of its last 2047 bytes: what follows the first newline there, up to
a zero byte. `strchr` returns a null pointer when there is no newline, which the source
does not test.
-/

namespace Vs17.Mylog

open Runs Text

/-- What `logException` writes for one message. The time comes from `getLocalTimeUs` as a
C string; the message may hold zero bytes and newlines. -/
structure Line where
  time : Bytes
  msg : Bytes
  zero_notMem_time : 0 ∉ time

def Line.text (line : Line) : Bytes := line.time ++ [32, 32] ++ line.msg ++ [newline]

/-- Which calls succeed: opening the file to append, `stat`, and the two calls of `fopen`
in `shrinkLogFile`. -/
structure FileCalls where
  append : Bool
  stat : Bool
  openRead : Bool
  openWrite : Bool
  deriving DecidableEq, Repr

/-- The log file, whether the process has crashed, and the lines logged so far. -/
structure LogFile where
  maxFileSize : ℤ
  content : Bytes
  crashed : Bool
  lines : List Bytes
  deriving DecidableEq, Repr

namespace LogFile

def create : LogFile := ⟨204800000, [], false, []⟩

def setMaxFileSize (f : LogFile) (maxSize : ℤ) : LogFile := { f with maxFileSize := maxSize }

/-- The last bytes that `fread` puts into `tmp`. `fseek` fails in a file shorter than
`tmp`, which is then read from its start. -/
def tail (content : Bytes) : Bytes := content.drop (content.length - 2047)

def shrinkLogFile (f : LogFile) (calls : FileCalls) : LogFile :=
  if calls.openRead = false then f
  else if calls.openWrite = false then f
  else
    match afterNewline (cstr (tail f.content)) with
    | none => { f with content := [], crashed := true } -- `strlen` of a null pointer
    | some rest => { f with content := rest }

/-- The file is bigger than `1.2*max_filesize`. -/
def TooBig (f : LogFile) : Prop := 6 * f.maxFileSize < 5 * (f.content.length : ℤ)

instance (f : LogFile) : Decidable f.TooBig := inferInstanceAs (Decidable (_ < _))

def checkSize (f : LogFile) (calls : FileCalls) : LogFile :=
  if calls.stat = false then f
  else if f.TooBig then f.shrinkLogFile calls
  else f

/-- The line is appended. -/
def append (f : LogFile) (line : Line) : LogFile :=
  { f with content := f.content ++ line.text, lines := f.lines ++ [line.text] }

def logException (f : LogFile) (line : Line) (calls : FileCalls) : LogFile :=
  if calls.append = false then f else (f.append line).checkSize calls

inductive Event
  | setMaxFileSize (maxSize : ℤ)
  | logException (line : Line) (calls : FileCalls)

def handle (f : LogFile) : Event → LogFile
  | .setMaxFileSize maxSize => f.setMaxFileSize maxSize
  | .logException line calls => f.logException line calls

def Step (f : LogFile) (e : Event) (g : LogFile) : Prop := f.crashed = false ∧ g = f.handle e

/-- The file consists of whole lines, the last of those logged and the line just written
among them. -/
def KeepsLines (f : LogFile) : Prop :=
  f.crashed = false ∧ ∃ removed kept, f.lines = removed ++ kept ∧
    (f.lines ≠ [] → kept ≠ []) ∧ f.content = kept.flatten

/-- The line makes the file too big, and the file can be shrunk. -/
def Shrinks (f : LogFile) (line : Line) (calls : FileCalls) : Prop :=
  calls.append = true ∧ calls.stat = true ∧ (f.append line).TooBig ∧
    calls.openRead = true ∧ calls.openWrite = true

instance (f : LogFile) (line : Line) (calls : FileCalls) : Decidable (f.Shrinks line calls) :=
  inferInstanceAs (Decidable (_ = _ ∧ _ = _ ∧ _ ∧ _ = _ ∧ _ = _))

/-- Where a line makes the file shrink, there is no zero byte in the tail, and the first newline
there is the end of an earlier line. -/
def ShrinksWhole (f : LogFile) : Event → Prop
  | .logException line calls => f.Shrinks line calls →
      0 ∉ tail (f.content ++ line.text) ∧ ∃ older front back after,
        f.lines ++ [line.text] = older ++ (front ++ back ++ [newline]) :: after ∧ after ≠ [] ∧
        tail (f.content ++ line.text) = back ++ newline :: after.flatten ∧ newline ∉ back
  | .setMaxFileSize _ => True

variable {f g : LogFile} {line : Line} {calls : FileCalls} {e : Event}

theorem isRecord_text (line : Line) : IsRecord line.text := by
  cases htime : line.time with
  | nil => exact ⟨32, 32 :: line.msg, by simp [Line.text, htime], by decide⟩
  | cons x time =>
    refine ⟨x, time ++ [32, 32] ++ line.msg, by simp [Line.text, htime], ?_⟩
    rintro rfl
    exact line.zero_notMem_time (by simp [htime])

theorem tail_suffix (content : Bytes) : tail content <:+ content := List.drop_suffix _ _

theorem length_tail (content : Bytes) : (tail content).length = min content.length 2047 := by
  rw [tail, List.length_drop]
  omega

theorem lines_checkSize : (f.checkSize calls).lines = f.lines := by
  unfold checkSize shrinkLogFile
  split_ifs
  · rfl
  · rfl
  · rfl
  · split <;> rfl
  · rfl

theorem lines_step (hs : Step f e g) :
    g.lines = f.lines ∨ ∃ line : Line, g.lines = f.lines ++ [line.text] := by
  obtain ⟨-, rfl⟩ := hs
  cases e with
  | setMaxFileSize maxSize => exact .inl rfl
  | logException line calls =>
    rw [handle, logException]
    split
    · exact .inl rfl
    · exact .inr ⟨line, lines_checkSize⟩

theorem lines_subset (hs : Step f e g) : f.lines ⊆ g.lines := by
  rcases lines_step hs with h | ⟨line, h⟩
  · exact h ▸ List.Subset.refl _
  · exact h ▸ List.subset_append_left ..

/-- Every line in the history is a record. -/
theorem isRecord_step (h : ∀ l ∈ f.lines, IsRecord l) (hs : Step f e g) :
    ∀ l ∈ g.lines, IsRecord l := by
  rcases lines_step hs with hg | ⟨line, hg⟩
  · exact hg ▸ h
  · rw [hg, List.forall_mem_append, List.forall_mem_singleton]
    exact ⟨h, isRecord_text line⟩

theorem logException_of_shrinks (h : Shrinks f line calls) :
    f.logException line calls = match afterNewline (cstr (tail (f.content ++ line.text))) with
      | none => { f.append line with content := [], crashed := true }
      | some rest => { f.append line with content := rest } := by
  obtain ⟨happend, hstat, hbig, hread, hwrite⟩ := h
  have hcontent : (f.append line).content = f.content ++ line.text := rfl
  simp only [logException, checkSize, shrinkLogFile, happend, hstat, hbig, hread, hwrite,
    if_true, Bool.true_eq_false, if_false, hcontent]

theorem logException_of_not_shrinks (h : ¬ Shrinks f line calls) :
    f.logException line calls = f ∨ f.logException line calls = f.append line := by
  unfold logException checkSize shrinkLogFile
  split_ifs with happend hstat hbig hread hwrite
  · exact .inl rfl
  · exact .inr rfl
  · exact .inr rfl
  · exact .inr rfl
  · simp only [Bool.not_eq_false] at happend hstat hread hwrite
    exact absurd ⟨happend, hstat, hbig, hread, hwrite⟩ h
  · exact .inr rfl

theorem KeepsLines.append (h : KeepsLines f) (line : Line) : KeepsLines (f.append line) := by
  obtain ⟨hcrashed, removed, kept, hlines, -, hcontent⟩ := h
  refine ⟨hcrashed, removed, kept ++ [line.text], ?_, fun _ => by simp, ?_⟩
  · simp [LogFile.append, hlines]
  · simp [LogFile.append, hcontent]

/-- A file that keeps lines and is rewritten with this content, with the line logged. -/
theorem keepsLines_rewritten_iff {rest : Bytes} (hcrashed : f.crashed = false) :
    KeepsLines { f.append line with content := rest } ↔
      ∃ removed kept, f.lines ++ [line.text] = removed ++ kept ∧ kept ≠ [] ∧
        rest = kept.flatten := by
  have hlines : f.lines ++ [line.text] ≠ [] := by simp
  simp only [KeepsLines, LogFile.append, hcrashed, true_and, hlines, ne_eq, not_false_eq_true,
    true_imp_iff]

/-- The bytes of the file are the last of those logged. -/
theorem KeepsLines.suffix (h : KeepsLines f) : f.content <:+ f.lines.flatten := by
  obtain ⟨-, removed, kept, hlines, -, hcontent⟩ := h
  rw [hlines, hcontent, List.flatten_append]
  exact List.suffix_append ..

theorem KeepsLines.tail_suffix (h : KeepsLines f) (line : Line) :
    tail (f.content ++ line.text) <:+ (f.lines ++ [line.text]).flatten := by
  obtain ⟨w, hw⟩ := h.suffix
  refine (LogFile.tail_suffix _).trans ⟨w, ?_⟩
  rw [← List.append_assoc, hw, List.flatten_append, List.flatten_singleton]

/-- The file is shrunk to the lines behind the first newline of its tail. -/
theorem keepsLines_of_shrinksWhole (h : KeepsLines f) (hshrinks : Shrinks f line calls)
    (hwhole : ShrinksWhole f (.logException line calls)) :
    KeepsLines (f.logException line calls) := by
  obtain ⟨hzero, older, front, back, after, hlines, hne, htail, hback⟩ := hwhole hshrinks
  rw [logException_of_shrinks hshrinks, cstr_eq_self hzero, htail, afterNewline_append hback]
  exact (keepsLines_rewritten_iff h.1).mpr ⟨older ++ [front ++ back ++ [newline]], after,
    by simpa using hlines, hne, rfl⟩

/-- What is kept are lines only if the tail has been cut behind an earlier one, unless a zero
byte stands right behind a newline. -/
theorem shrinksWhole_of_keepsLines (hI : ∀ l ∈ f.lines, IsRecord l) (h : KeepsLines f)
    (hclean : ∀ l ∈ f.lines ++ [line.text], ¬ [newline, 0] <:+: l)
    (hshrinks : Shrinks f line calls) (hkeeps : KeepsLines (f.logException line calls)) :
    ShrinksWhole f (.logException line calls) := by
  intro _
  have hall : ∀ l ∈ f.lines ++ [line.text], IsRecord l := by
    rw [List.forall_mem_append, List.forall_mem_singleton]
    exact ⟨hI, isRecord_text line⟩
  rw [logException_of_shrinks hshrinks] at hkeeps
  split at hkeeps
  · exact Bool.noConfusion hkeeps.1
  · next rest hrest =>
    obtain ⟨removed, kept, hlines, hne, rfl⟩ := (keepsLines_rewritten_iff h.1).mp hkeeps
    have hsuffix := h.tail_suffix line
    have hkept : ∀ l ∈ kept, IsRecord l := (List.forall_mem_append.mp (hlines ▸ hall)).2
    have hzero : 0 ∉ tail (f.content ++ line.text) := fun hzero =>
      afterNewline_cstr_ne_flatten hall hclean hsuffix hzero hkept hne hrest
    rw [cstr_eq_self hzero] at hrest
    obtain ⟨back, htail, hback⟩ := eq_append_of_afterNewline hrest
    -- the bytes in front of the lines kept end the lines removed
    have hremoved : back ++ [newline] <:+ removed.flatten := by
      obtain ⟨w, hw⟩ := hsuffix
      refine ⟨w, (List.append_left_inj kept.flatten).mp ?_⟩
      rw [← List.flatten_append, ← hlines, ← hw, htail]
      simp
    obtain ⟨older, front, rfl⟩ := exists_of_newline_suffix
      (List.forall_mem_append.mp (hlines ▸ hall)).1 hremoved hback
    exact ⟨hzero, older, front, back, kept, by simpa using hlines, hne, htail, hback⟩

theorem keepsLines_step (h : KeepsLines f) (hs : Step f e g) (hwhole : ShrinksWhole f e) :
    KeepsLines g := by
  obtain ⟨-, rfl⟩ := hs
  cases e with
  | setMaxFileSize maxSize => exact h
  | logException line calls =>
    by_cases hshrinks : Shrinks f line calls
    · exact keepsLines_of_shrinksWhole h hshrinks hwhole
    · rw [handle]
      rcases logException_of_not_shrinks hshrinks with heq | heq
      · rwa [heq]
      · rw [heq]
        exact h.append line

theorem shrinksWhole_step (hI : ∀ l ∈ f.lines, IsRecord l) (h : KeepsLines f)
    (hs : Step f e g) (hclean : ∀ l ∈ g.lines, ¬ [newline, 0] <:+: l) (hg : KeepsLines g) :
    ShrinksWhole f e := by
  obtain ⟨-, rfl⟩ := hs
  cases e with
  | setMaxFileSize maxSize => exact trivial
  | logException line calls =>
    by_cases hshrinks : Shrinks f line calls
    · refine shrinksWhole_of_keepsLines hI h ?_ hshrinks hg
      rwa [handle, logException, if_neg (by simp [hshrinks.1]), lines_checkSize] at hclean
    · exact fun hs => absurd hs hshrinks

theorem keepsLines_create : KeepsLines create := ⟨rfl, [], [], rfl, by simp [create], rfl⟩

/-- In every state of a run the file holds whole lines up to the one just written, if every line
that makes it shrink leaves a tail without zero bytes whose first newline ends an earlier line;
and only then, where nothing logged has a zero byte right behind a newline. -/
theorem run_keepsLines_iff {tr : List (LogFile × Event)} (h : Run Step create tr f) :
    (AllSteps ShrinksWhole tr → Throughout KeepsLines tr f) ∧
    ((∀ l ∈ f.lines, ¬ [newline, 0] <:+: l) → Throughout KeepsLines tr f →
      AllSteps ShrinksWhole tr) := by
  constructor
  · intro hwhole
    exact (h.restrict hwhole).invariant keepsLines_create
      fun _ _ _ hk hs => keepsLines_step hk hs.1 hs.2
  · induction h with
    | start => exact fun _ _ => by simp [AllSteps]
    | @next tr s t e hr hs ih =>
      intro hclean hkeeps
      obtain ⟨hbefore, ht⟩ := throughout_append.mp hkeeps
      have hI := (hr.invariant (I := fun f => ∀ l ∈ f.lines, IsRecord l) (by simp [create])
        fun _ _ _ => isRecord_step).2
      exact allSteps_append.mpr ⟨ih (fun l hl => hclean l (lines_subset hs hl)) hbefore,
        shrinksWhole_step hI hbefore.2 hs hclean ht⟩

/-- Where no line holds a newline but at its end, the tail is to reach into the line before the
last one. -/
theorem shrinksWhole_iff_of_oneLine (hI : ∀ l ∈ f.lines, IsRecord l)
    (hone : ∀ l ∈ f.lines ++ [line.text], newline ∉ l.dropLast) (h : KeepsLines f)
    (hshrinks : Shrinks f line calls) :
    ShrinksWhole f (.logException line calls) ↔
      f.content ≠ [] ∧ line.text.length < 2047 ∧ 0 ∉ tail (f.content ++ line.text) := by
  have hlength := length_tail (f.content ++ line.text)
  have hcontent : f.content ≠ [] ↔ 0 < f.content.length := List.length_pos_iff.symm
  rw [List.length_append] at hlength
  constructor
  · intro hwhole
    obtain ⟨hzero, older, front, back, after, hlines, hne, htail, -⟩ := hwhole hshrinks
    obtain ⟨after, last, rfl⟩ := (List.eq_nil_or_concat after).resolve_left hne
    rw [List.concat_eq_append, ← List.cons_append, ← List.append_assoc] at hlines
    obtain rfl := List.singleton_inj.mp (List.append_inj' hlines rfl).2
    rw [htail] at hlength
    simp only [List.concat_eq_append, List.flatten_append, List.flatten_singleton,
      List.length_append, List.length_cons] at hlength
    exact ⟨hcontent.mpr (by omega), by omega, hzero⟩
  · rintro ⟨hne, hlt, hzero⟩ -
    have hpos := hcontent.mp hne
    have htail : tail (f.content ++ line.text) ≠ [] := by
      rw [← List.length_pos_iff]
      omega
    obtain ⟨older, l, after, y, hlines, hy, ⟨front, rfl⟩, heq⟩ :=
      exists_of_suffix_flatten htail (h.tail_suffix line)
    have hmem : front ++ y ∈ f.lines ++ [line.text] := by simp [hlines]
    have hrecord : IsRecord (front ++ y) := by
      rcases List.mem_append.mp hmem with hl | hl
      · exact hI _ hl
      · exact List.mem_singleton.mp hl ▸ isRecord_text line
    obtain ⟨x, body, hbody, -⟩ := hrecord
    obtain ⟨back, z, rfl⟩ := (List.eq_nil_or_concat y).resolve_left hy
    rw [List.concat_eq_append, ← List.append_assoc] at hbody hlines hmem
    cases (List.append_inj' hbody rfl).2
    have hback : newline ∉ back := fun hback => hone _ hmem (by simp [hback])
    refine ⟨hzero, older, front, back, after, hlines, ?_, by simpa using heq, hback⟩
    rintro rfl
    -- the tail would lie in the last line
    have hlast := congrArg List.length (List.singleton_inj.mp (List.append_inj' hlines rfl).2)
    have hle := congrArg List.length heq
    simp only [List.concat_eq_append, List.flatten_nil, List.append_nil, List.length_append,
      List.length_singleton] at hlast hle
    omega

/-- The message is one letter. -/
def letterLine : Line where
  time := [116]
  msg := [97]
  zero_notMem_time := by decide

def allCalls : FileCalls := ⟨true, true, true, true⟩

theorem run_of_events (es : List Event)
    (h : Follows (fun f _ => f.crashed = false) handle create es) :
    Run Step create (steps handle create es) (es.foldl handle create) :=
  Run.start.follow (fun _ _ hp => ⟨hp, rfl⟩) h

/-- The second of two lines makes the file shrink to that line. -/
def secondShrinks : List Event :=
  [.logException letterLine allCalls, .setMaxFileSize 5, .logException letterLine allCalls]

theorem run_keepsLines_secondShrinks :
    (secondShrinks.foldl handle create).content = letterLine.text ∧
      KeepsLines (secondShrinks.foldl handle create) := by
  have hrun := run_of_events secondShrinks (by decide)
  have hwhole : AllSteps ShrinksWhole (steps handle create secondShrinks) := by
    simp only [AllSteps, steps, secondShrinks, List.forall_mem_cons, List.not_mem_nil,
      false_imp_iff, implies_true, and_true]
    exact ⟨fun h => absurd h (by decide), trivial, fun _ => ⟨by decide, [], [], [116, 32, 32, 97],
      [letterLine.text], by decide, by decide, by decide, by decide⟩⟩
  exact ⟨by decide, ((run_keepsLines_iff hrun).1 hwhole).2⟩

/-- The first line makes the file too big, and is shrunk away. -/
def firstShrinks : List Event := [.setMaxFileSize 3, .logException letterLine allCalls]

theorem not_keepsLines_firstShrinks : ∃ tr f, Run Step create tr f ∧
    f.lines = [letterLine.text] ∧ f.content = [] ∧ ¬ KeepsLines f := by
  have hrun := run_of_events firstShrinks (by decide)
  have hlines : (firstShrinks.foldl handle create).lines = [letterLine.text] := by decide
  have hcontent : (firstShrinks.foldl handle create).content = [] := by decide
  refine ⟨_, _, hrun, hlines, hcontent, ?_⟩
  rintro ⟨-, removed, kept, heq, hne, hkept⟩
  rw [hlines] at heq hne
  obtain ⟨l, hl⟩ := List.exists_mem_of_ne_nil kept (hne (by simp))
  have hmem : l ∈ [letterLine.text] := heq ▸ List.mem_append_right removed hl
  have hnil : l = [] := List.flatten_eq_nil_iff.mp (hkept.symm.trans hcontent) l hl
  rw [List.mem_singleton.mp hmem] at hnil
  exact (isRecord_text letterLine).ne_nil hnil

end LogFile

end Vs17.Mylog
