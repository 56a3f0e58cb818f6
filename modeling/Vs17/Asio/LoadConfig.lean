import Vs17.Library.CString
import Vs17.Library.Lines

/-! # The configuration of the distributor

`loadConfig` reads a file line by line, and takes an address and a port from the value behind a
tag. It looks for the colon in the line, and cuts the value at the place where it has found it.
-/

namespace Vs17.Asio.LoadConfig

open Words Text CString

def blank : UInt8 := 32
def tab : UInt8 := 9
def equals : UInt8 := 61
def colon : UInt8 := 58

def isBlank (c : UInt8) : Bool := c == blank || c == tab

/-- A line that is skipped: its first character, as a string, is one of these. -/
def isComment (linebuf : Bytes) : Bool :=
  [ascii "#", ascii "[", ascii "\r", [], ascii ";"].contains (linebuf.take 1)

/-- The loop that erases blanks and tabs, for what is before its index and what is not. -/
def erase (kept : Bytes) : Bytes → Bytes
  | [] => kept
  | c :: rest => if isBlank c then erase kept rest else erase (kept ++ [c]) rest

/-- `substr(0, pos)`. Where nothing has been found, `pos` is `npos`. -/
def substrTo (s : Bytes) : Option ℕ → Bytes
  | none => s
  | some pos => s.take pos

/-- `substr(pos + 1)`. No result is `std::out_of_range`, and `npos + 1` is 0. -/
def substrBehind (s : Bytes) : Option ℕ → Option Bytes
  | none => some s
  | some pos => if pos + 1 ≤ s.length then some (s.drop (pos + 1)) else none

/-- A round of the loop, with the addresses and ports extracted so far. -/
def loadLine (extracted : List (Bytes × ℕ)) (linebuf : Bytes) : Option (List (Bytes × ℕ)) :=
  if isComment linebuf then some extracted
  else
    let linebuf := erase [] linebuf
    let pos := linebuf.idxOf? equals
    if pos = none then some extracted
    else do
      let param := substrTo linebuf pos
      let value ← substrBehind linebuf pos
      if (after (ascii "0x") param).isSome then
        let pos := linebuf.idxOf? colon
        let ip := substrTo value pos
        let port ← substrBehind value pos
        return extracted ++ [(ip, atoi port)]
      else
        return extracted

/-- The lines that `getline` reads. The last one may have no newline. -/
def getlines (infile : Bytes) : List Bytes :=
  let last := Lines.tail newline infile
  Lines.lines newline infile ++ if last = [] then [] else [last]

/-- What is returned, and what has been extracted, or an exception. The file may not open. -/
def loadConfig : Option Bytes → Option (ℤ × List (Bytes × ℕ))
  | none => some (-1, [])
  | some infile => do
    let extracted ← (getlines infile).foldlM loadLine []
    return (0, extracted)

/-- A character of a tag or an address. -/
def isPart (c : UInt8) : Bool := !isBlank c && c != equals && c != colon && c != newline

/-- A line `0xTAG=ip:port`, with blanks and tabs around its parts. -/
structure Entry where
  tag : Bytes
  ip : Bytes
  port : Bytes
  gap : Fin 6 → Bytes
  isPart_tag : tag.all isPart
  isPart_ip : ip.all isPart
  isDigit_port : port.all isDigit
  isBlank_gap : ∀ i, (gap i).all isBlank

def Entry.param (e : Entry) : Bytes := ascii "0x" ++ e.tag

def Entry.value (e : Entry) : Bytes := e.ip ++ colon :: e.port

def Entry.text (e : Entry) : Bytes :=
  e.gap 0 ++ e.param ++ e.gap 1 ++ equals :: (e.gap 2 ++ e.ip ++ e.gap 3 ++
    colon :: (e.gap 4 ++ e.port ++ e.gap 5))

inductive Line
  | comment (text : Bytes) (h : isComment text)
  | entry (e : Entry)

namespace Line

def text : Line → Bytes
  | comment text _ => text
  | entry e => e.text

/-- The address and the port of a line that has them. -/
def server : Line → Option (Bytes × ℕ)
  | comment _ _ => none
  | entry e => some (e.ip, atoi e.port)

end Line

/-- A file whose lines are comments and entries. -/
structure ConfigFile where
  infile : Bytes
  lines : List Line
  getlines_eq : getlines infile = lines.map Line.text

/-- No exception, and for each entry its address and port. -/
def Extracts (file : ConfigFile) : Prop :=
  loadConfig (some file.infile) = some (0, file.lines.filterMap Line.server)

variable {e : Entry} {extracted : List (Bytes × ℕ)} {lines : List Line} {s l r : Bytes}

theorem erase_eq (kept s : Bytes) : erase kept s = kept ++ s.filter fun c => !isBlank c := by
  induction s generalizing kept with
  | nil => simp [erase]
  | cons c s ih =>
    rw [erase, ih, ih]
    cases hc : isBlank c <;> simp [hc]

theorem filter_gap (i : Fin 6) : (e.gap i).filter (fun c => !isBlank c) = [] := by
  have hgap := List.all_eq_true.mp (e.isBlank_gap i)
  simpa [List.filter_eq_nil_iff] using hgap

theorem filter_of_isPart (h : s.all isPart) : (s.filter fun c => !isBlank c) = s := by
  rw [List.filter_eq_self]
  intro c hc
  have hpart := List.all_eq_true.mp h c hc
  simp only [isPart, Bool.and_eq_true] at hpart
  exact hpart.1.1.1

theorem not_isBlank_of_isDigit {c : UInt8} (h : isDigit c) : !isBlank c := by
  rw [Bool.not_eq_true', ← Bool.not_eq_true]
  intro hblank
  simp only [isBlank, Bool.or_eq_true, beq_iff_eq] at hblank
  rcases hblank with rfl | rfl <;> revert h <;> decide

theorem isPart_param (e : Entry) : e.param.all isPart := by
  rw [Entry.param, List.all_append, e.isPart_tag, Bool.and_true]
  decide

theorem not_mem_of_isPart (h : s.all isPart) : equals ∉ s ∧ colon ∉ s := by
  have hpart := List.all_eq_true.mp h
  constructor
  · exact fun hmem => absurd (hpart _ hmem) (by decide)
  · exact fun hmem => absurd (hpart _ hmem) (by decide)

theorem Entry.erase_text (e : Entry) : erase [] e.text = e.param ++ equals :: e.value := by
  have hport : (e.port.filter fun c => !isBlank c) = e.port := by
    rw [List.filter_eq_self]
    exact fun c hc => not_isBlank_of_isDigit (List.all_eq_true.mp e.isDigit_port c hc)
  have hequals : isBlank equals = false := by decide
  have hcolon : isBlank colon = false := by decide
  rw [erase_eq, List.nil_append, Entry.text]
  simp only [List.filter_append, List.filter_cons, filter_gap, filter_of_isPart (isPart_param e),
    filter_of_isPart e.isPart_ip, hport, hequals, hcolon]
  simp [Entry.value]

theorem Entry.isComment_text (e : Entry) : isComment e.text = false := by
  have hhead : ∃ c rest, e.text = c :: rest ∧ (isBlank c ∨ c = 48) := by
    rw [Entry.text]
    have hgap := List.all_eq_true.mp (e.isBlank_gap 0)
    cases hcons : e.gap 0 with
    | nil => exact ⟨48, _, rfl, .inr rfl⟩
    | cons c g => exact ⟨c, _, rfl, .inl (hgap c (by simp [hcons]))⟩
  obtain ⟨c, rest, htext, hc⟩ := hhead
  rw [htext, isComment, List.take_succ_cons, List.take_zero]
  simp only [isBlank, Bool.or_eq_true, beq_iff_eq] at hc
  rcases hc with (rfl | rfl) | rfl <;> decide

/-- The place where the colon stands in the line without its blanks. -/
def Entry.colonPos (e : Entry) : ℕ := e.param.length + 1 + e.ip.length

theorem Entry.idxOf?_colon (e : Entry) :
    (e.param ++ equals :: e.value).idxOf? colon = some e.colonPos := by
  have hsplit : e.param ++ equals :: e.value = (e.param ++ equals :: e.ip) ++ colon :: e.port := by
    simp [Entry.value]
  have hfree : colon ∉ e.param ++ equals :: e.ip := by
    rw [List.mem_append, List.mem_cons, not_or, not_or]
    exact ⟨(not_mem_of_isPart (isPart_param e)).2, by decide, (not_mem_of_isPart e.isPart_ip).2⟩
  have hlen : (e.param ++ equals :: e.ip).length = e.colonPos := by
    rw [List.length_append, List.length_cons, Entry.colonPos]
    omega
  rw [hsplit, idxOf?_append_cons hfree, hlen]

/-- The value is cut at the place that the colon has in the line. -/
theorem loadLine_entry (extracted : List (Bytes × ℕ)) (e : Entry) :
    loadLine extracted e.text = (substrBehind e.value (some e.colonPos)).map fun port =>
      extracted ++ [(e.value.take e.colonPos, atoi port)] := by
  have hequals : (e.param ++ equals :: e.value).idxOf? equals = some e.param.length :=
    idxOf?_append_cons (not_mem_of_isPart (isPart_param e)).1
  have hvalue : substrBehind (e.param ++ equals :: e.value) (some e.param.length) =
      some e.value := by
    rw [substrBehind, if_pos (by simp)]
    simp
  have hfound : (after (ascii "0x") e.param).isSome := by
    simp [Entry.param, ascii, after]
  unfold loadLine
  simp only [e.isComment_text, e.erase_text, hequals, hvalue, e.idxOf?_colon]
  cases hport : substrBehind e.value (some e.colonPos) <;> simp [substrTo, hfound, hport]

theorem take_value_ne (e : Entry) : e.value.take e.colonPos ≠ e.ip := by
  intro h
  have hlen := congrArg List.length h
  simp only [List.length_take, Entry.value, List.length_append, List.length_cons,
    Entry.colonPos] at hlen
  omega

theorem loadLine_comment (h : isComment l) : loadLine extracted l = some extracted := by
  unfold loadLine
  rw [if_pos h]

/-- What has been extracted stays. -/
theorem prefix_of_loadLine {extracted' : List (Bytes × ℕ)}
    (h : loadLine extracted l = some extracted') : extracted <+: extracted' := by
  unfold loadLine at h
  dsimp only at h
  split_ifs at h
  · exact Option.some.inj h ▸ List.prefix_rfl
  · exact Option.some.inj h ▸ List.prefix_rfl
  · obtain ⟨value, -, h⟩ := Option.bind_eq_some_iff.mp h
    obtain ⟨port, -, h⟩ := Option.bind_eq_some_iff.mp h
    exact Option.some.inj h ▸ List.prefix_append _ _
  · obtain ⟨value, -, h⟩ := Option.bind_eq_some_iff.mp h
    exact Option.some.inj h ▸ List.prefix_rfl

theorem prefix_of_foldlM {ls : List Bytes} {extracted' : List (Bytes × ℕ)}
    (h : ls.foldlM loadLine extracted = some extracted') : extracted <+: extracted' := by
  induction ls generalizing extracted with
  | nil => exact Option.some.inj h ▸ List.prefix_rfl
  | cons l ls ih =>
    obtain ⟨next, hnext, h⟩ := Option.bind_eq_some_iff.mp h
    exact (prefix_of_loadLine hnext).trans (ih h)

theorem foldlM_comments (h : ∀ line ∈ lines, line.server = none) (extracted) :
    (lines.map Line.text).foldlM loadLine extracted = some extracted := by
  induction lines with
  | nil => rfl
  | cons line lines ih =>
    rw [List.forall_mem_cons] at h
    cases line with
    | entry e => cases h.1
    | comment text htext =>
      rw [List.map_cons, List.foldlM_cons, Line.text, loadLine_comment htext]
      exact ih h.2

/-- An entry gets a wrong address, or an exception. -/
theorem server_eq_none_of_foldlM (h : (lines.map Line.text).foldlM loadLine extracted =
    some (extracted ++ lines.filterMap Line.server)) : ∀ line ∈ lines, line.server = none := by
  induction lines with
  | nil => exact fun _ hline => nomatch hline
  | cons line lines ih =>
    rw [List.map_cons, List.foldlM_cons] at h
    cases line with
    | comment text htext =>
      rw [Line.text, loadLine_comment htext] at h
      exact List.forall_mem_cons.mpr ⟨rfl, ih h⟩
    | entry e =>
      rw [Line.text, loadLine_entry] at h
      obtain ⟨next, hnext, h⟩ := Option.bind_eq_some_iff.mp h
      obtain ⟨port, -, rfl⟩ := Option.map_eq_some_iff.mp hnext
      obtain ⟨rest, hrest⟩ := prefix_of_foldlM h
      have hserver : (Line.entry e :: lines).filterMap Line.server =
          (e.ip, atoi e.port) :: lines.filterMap Line.server := rfl
      rw [hserver, List.append_assoc, List.append_cancel_left_eq,
        List.singleton_append, List.cons.injEq, Prod.mk.injEq] at hrest
      exact absurd hrest.1.1 (take_value_ne e)

/-- No entry is ever read as it is written. -/
theorem extracts_iff (file : ConfigFile) :
    Extracts file ↔ ∀ line ∈ file.lines, line.server = none := by
  rw [Extracts, loadConfig, file.getlines_eq]
  constructor
  · intro h
    obtain ⟨extracted, hextracted, h⟩ := Option.bind_eq_some_iff.mp h
    obtain rfl : extracted = file.lines.filterMap Line.server := by simpa using h
    exact server_eq_none_of_foldlM hextracted
  · intro h
    have hnone : file.lines.filterMap Line.server = [] := by
      simpa [List.filterMap_eq_nil_iff] using h
    rw [foldlM_comments h, hnone]
    rfl

/-- `0x6020=192.168.1.1:8001` -/
def server6020 : Entry where
  tag := ascii "6020"
  ip := ascii "192.168.1.1"
  port := ascii "8001"
  gap _ := []
  isPart_tag := by decide
  isPart_ip := by decide
  isDigit_port := by decide
  isBlank_gap _ := rfl

def oneServer : ConfigFile where
  infile := ascii "0x6020=192.168.1.1:8001\n"
  lines := [.entry server6020]
  getlines_eq := by decide

theorem not_extracts_oneServer : ¬ Extracts oneServer := by
  have hthrows : loadConfig (some oneServer.infile) = none := by decide
  unfold Extracts
  rw [hthrows]
  exact Option.some_ne_none _ ∘ Eq.symm

end Vs17.Asio.LoadConfig
