import Mathlib.Data.Int.Order.Basic
import Vs17.Library.Lines
import Vs17.Library.Multimap
import Vs17.Library.Tokens

/-! # The port table

`getPortList` reads what `netstat` prints into a map from process ids to addresses, and
`getProcessPort` joins the ports of one process. The words of a line are read into arrays that the
reading does not know the sizes of.
-/

namespace Vs17.Monitor.Ports

open CString Text Tokens

def colon : UInt8 := 58
def comma : UInt8 := 44

/-- The strings in the arrays of a `PortInfo`. -/
structure PortInfo where
  szProto : Bytes
  szLocal : Bytes
  szForeign : Bytes
  szState : Bytes
  PID : ℤ
  deriving DecidableEq, Repr

def PortInfo.init : PortInfo := ⟨[], [], [], [], 0⟩

/-- `ss >> array`, for an array of this size, with what is left in the stream. At its end the array
gets an empty string. -/
def extract (size : ℕ) (ss : Bytes) : Except Fault (Bytes × Bytes) :=
  if (word ss).length < size then .ok (word ss, behind ss) else .error .overruns

/-- `ss >> PID`. At the end of the stream it is left as it is, and a number that an `int` does not
hold becomes the next one that it does. -/
def extractInt (pid : ℤ) (ss : Bytes) : ℤ :=
  let s := skip ss
  if s = [] then pid
  else if s.head? = some 45 then max (-2 ^ 31) (-(atoi s.tail : ℤ))
  else if s.head? = some 43 then min (2 ^ 31 - 1) (atoi s.tail)
  else min (2 ^ 31 - 1) (atoi s)

/-- One line, and whether it is inserted. -/
def readLine (tmpPort : PortInfo) (linebuffer : Bytes) : Except Fault (PortInfo × Bool) := do
  let (szProto, ss) ← extract 16 (cstr linebuffer)
  let (szLocal, ss) ← extract 64 ss
  let (szForeign, ss) ← extract 64 ss
  let tmpPort : PortInfo :=
    { tmpPort with szProto := szProto, szLocal := szLocal, szForeign := szForeign }
  if strcmp szProto (ascii "TCP") = 0 then
    let (szState, ss) ← extract 32 ss
    return ({ tmpPort with szState := szState, PID := extractInt tmpPort.PID ss }, true)
  else if strcmp szProto (ascii "UDP") = 0 then
    return ({ tmpPort with PID := extractInt tmpPort.PID ss }, true)
  else
    return (tmpPort, false)

/-- A round of the loop. The record is the one of the round before. -/
def insertLine (s : PortInfo × List (ℤ × PortInfo)) (linebuffer : Bytes) :
    Except Fault (PortInfo × List (ℤ × PortInfo)) := do
  let (tmpPort, found) ← readLine s.1 linebuffer
  return (tmpPort, if found then Multimap.insert s.2 tmpPort.PID tmpPort else s.2)

/-- `m_mapPort`, for what `netstat` prints. -/
def getPortList (output : Bytes) : Except Fault (List (ℤ × PortInfo)) := do
  let s ← (pieces 511 output []).foldlM insertLine (PortInfo.init, [])
  return s.2

/-- `sscanf_s` with `%[^:]:%s` into two arrays of 16 bytes. -/
def scanLocal (szLocal : Bytes) (out : Bytes × Bytes) : Bytes × Bytes :=
  let ip := szLocal.takeWhile (· ≠ colon)
  if ip = [] then out
  else if 16 ≤ ip.length then ([], out.2)
  else
    match szLocal.dropWhile (· ≠ colon) with
    | [] => (ip, out.2)
    | _ :: rest =>
      if word rest = [] then (ip, out.2)
      else if 16 ≤ (word rest).length then (ip, [])
      else (ip, word rest)

/-- A round of the loop over the entries of a process: the arrays, and the ports so far. -/
def addPort (s : (Bytes × Bytes) × Bytes) (iter : ℤ × PortInfo) : (Bytes × Bytes) × Bytes :=
  let out := scanLocal iter.2.szLocal s.1
  (out, s.2 ++ out.2 ++ [comma])

def getProcessPort (mapPort : List (ℤ × PortInfo)) (pid : ℤ) : Bytes :=
  let entries := (Multimap.find pid mapPort).take (Multimap.count pid mapPort)
  let retPorts := (entries.foldl addPort (([], []), [])).2
  if retPorts.getLast? = some comma then retPorts.dropLast else retPorts

/-- The lines printed in front of the table. -/
structure Header where
  text : Bytes
  ends : text = [] ∨ ∃ s, text = s ++ [newline]

/-- No piece that is read of the header begins with the name of a protocol. -/
def Header.NamesNoProtocol (h : Header) : Prop :=
  ∀ piece ∈ pieces 511 h.text [],
    word (cstr piece) ≠ ascii "TCP" ∧ word (cstr piece) ≠ ascii "UDP"

/-- A line of the table. The columns may be set apart in any way. -/
structure TcpLine where
  lead : Bytes
  gap₁ : Bytes
  gap₂ : Bytes
  gap₃ : Bytes
  gap₄ : Bytes
  trail : Bytes
  ip : Bytes
  port : Bytes
  foreign : Bytes
  state : Bytes
  pid : Bytes
  blank : ∀ g ∈ [lead, gap₁, gap₂, gap₃, gap₄, trail], IsBlank g ∧ newline ∉ g
  gap : ∀ g ∈ [gap₁, gap₂, gap₃, gap₄], g ≠ []
  ip_digits : ∀ c ∈ ip, isDigit c ∨ c = 46
  ip_length : 0 < ip.length ∧ ip.length ≤ 15
  port_digits : ∀ c ∈ port, isDigit c
  port_length : 0 < port.length ∧ port.length ≤ 5
  foreign_word : IsWord foreign ∧ 0 ∉ foreign
  state_word : IsWord state ∧ 0 ∉ state
  pid_digits : ∀ c ∈ pid, isDigit c
  pid_ne_nil : pid ≠ []
  pid_lt : atoi pid < 2 ^ 31

namespace TcpLine

variable (l : TcpLine)

def localAddress : Bytes := l.ip ++ colon :: l.port

/-- The line from its first word to its last. -/
def columns : Bytes :=
  ascii "TCP" ++ (l.gap₁ ++ (l.localAddress ++ (l.gap₂ ++ (l.foreign ++ (l.gap₃ ++ (l.state ++
    (l.gap₄ ++ l.pid)))))))

def text : Bytes := l.lead ++ (l.columns ++ (l.trail ++ [newline]))

/-- The columns are not cut where `fgets` has filled its buffer. -/
def InOnePiece : Prop := l.lead.length % 511 + l.columns.length ≤ 511

def PID : ℤ := atoi l.pid

end TcpLine

/-- The first words fit into arrays of these sizes. -/
def FitWords : List ℕ → Bytes → Prop
  | [], _ => True
  | size :: sizes, s => (word s).length < size ∧ FitWords sizes (behind s)

/-- The words of a piece fit into the arrays that they are read into. -/
def FitPiece (piece : Bytes) : Prop :=
  FitWords [16, 64, 64] (cstr piece) ∧
    (word (cstr piece) = ascii "TCP" → FitWords [16, 64, 64, 32] (cstr piece))

def Fits (output : Bytes) : Prop := ∀ piece ∈ pieces 511 output [], FitPiece piece

/-- For each process id the ports of its lines are found, in their order. -/
def ListsPorts (output : Bytes) (lines : List TcpLine) : Prop :=
  ∃ mapPort, getPortList output = .ok mapPort ∧ ∀ pid : ℤ, getProcessPort mapPort pid =
    List.intercalate [comma] ((lines.filter (·.PID = pid)).map (·.port))

variable {tmpPort : PortInfo} {mapPort : List (ℤ × PortInfo)} {piece ss : Bytes} {size : ℕ}
  {l : TcpLine} {h : Header}

theorem extract_of_lt (h : (word ss).length < size) : extract size ss = .ok (word ss, behind ss) :=
  if_pos h

theorem extract_of_le (h : ¬ (word ss).length < size) : extract size ss = .error .overruns :=
  if_neg h

theorem word_subset {c : UInt8} (hc : c ∈ word ss) : c ∈ ss :=
  (List.dropWhile_sublist _).mem ((List.takeWhile_sublist _).mem hc)

/-- The words of a line are compared as they are. -/
theorem strcmp_word {proto : Bytes} (hproto : 0 ∉ proto) :
    strcmp (word (cstr piece)) proto = 0 ↔ word (cstr piece) = proto := by
  have hzero : (0 : UInt8) ∉ word (cstr piece) := fun h => zero_not_mem_cstr _ (word_subset h)
  rw [strcmp_eq_zero_iff, cstr_eq_self hzero, cstr_eq_self hproto]

variable (tmpPort mapPort) in
/-- A piece that names no protocol changes the record only. -/
theorem insertLine_nameless
    (hword : word (cstr piece) ≠ ascii "TCP" ∧ word (cstr piece) ≠ ascii "UDP")
    (hfits : FitPiece piece) :
    ∃ tmp, insertLine (tmpPort, mapPort) piece = .ok (tmp, mapPort) := by
  obtain ⟨⟨hproto, hlocal, hforeign, -⟩, -⟩ := hfits
  have htcp := mt (strcmp_word (by decide)).mp hword.1
  have hudp := mt (strcmp_word (by decide)).mp hword.2
  simp only [insertLine, readLine, extract_of_lt hproto, extract_of_lt hlocal,
    extract_of_lt hforeign, bind, Except.bind, if_neg htcp, if_neg hudp, pure, Except.pure]
  exact ⟨_, rfl⟩

theorem extract_ok_iff {r : Bytes × Bytes} :
    extract size ss = .ok r ↔ (word ss).length < size ∧ r = (word ss, behind ss) := by
  rw [extract]
  split_ifs with hlt
  · simp [hlt, eq_comm]
  · simp [hlt]

/-- No line is read whose words do not fit. -/
theorem fitPiece_of_readLine {r : PortInfo × Bool} (h : readLine tmpPort piece = .ok r) :
    FitPiece piece := by
  obtain ⟨_, hread, h⟩ := bind_ok_iff.mp h
  obtain ⟨hproto, rfl⟩ := extract_ok_iff.mp hread
  obtain ⟨_, hread, h⟩ := bind_ok_iff.mp h
  obtain ⟨hlocal, rfl⟩ := extract_ok_iff.mp hread
  obtain ⟨_, hread, h⟩ := bind_ok_iff.mp h
  obtain ⟨hforeign, rfl⟩ := extract_ok_iff.mp hread
  refine ⟨⟨hproto, hlocal, hforeign, trivial⟩, fun htcp => ?_⟩
  dsimp only at h
  rw [if_pos ((strcmp_word (by decide)).mpr htcp)] at h
  obtain ⟨_, hstate, -⟩ := bind_ok_iff.mp h
  exact ⟨hproto, hlocal, hforeign, (extract_ok_iff.mp hstate).1, trivial⟩

variable (tmpPort) in
/-- A line of the table, or another one like it. -/
theorem readLine_tcp (htcp : word (cstr piece) = ascii "TCP")
    (hfits : FitWords [16, 64, 64, 32] (cstr piece)) :
    ∃ tmp, readLine tmpPort piece = .ok (tmp, true) ∧ tmp.szLocal = word (behind (cstr piece)) ∧
      tmp.PID = extractInt tmpPort.PID (behind (behind (behind (behind (cstr piece))))) := by
  obtain ⟨hproto, hlocal, hforeign, hstate, -⟩ := hfits
  have hcmp := (strcmp_word (by decide)).mpr htcp
  simp only [readLine, extract_of_lt hproto, extract_of_lt hlocal, extract_of_lt hforeign,
    extract_of_lt hstate, bind, Except.bind, if_pos hcmp, pure, Except.pure]
  exact ⟨_, rfl, rfl, rfl⟩

theorem not_isSpace_of_isDigit {c : UInt8} (h : isDigit c) : ¬ isSpace c := by
  have hlo : 48 ≤ c := by
    rw [isDigit, Bool.and_eq_true, decide_eq_true_iff] at h
    exact h.1
  intro hspace
  rw [isSpace, Bool.or_eq_true, Bool.and_eq_true, decide_eq_true_iff, decide_eq_true_iff,
    decide_eq_true_iff] at hspace
  rw [UInt8.le_iff_toNat_le] at hlo
  rcases hspace with rfl | ⟨-, hhi⟩
  · exact absurd hlo (by decide)
  · rw [UInt8.le_iff_toNat_le] at hhi
    exact absurd (hlo.trans hhi) (by decide)

namespace TcpLine

theorem isBlank {g : Bytes} (hg : g ∈ [l.lead, l.gap₁, l.gap₂, l.gap₃, l.gap₄, l.trail]) :
    IsBlank g := (l.blank g hg).1

theorem isWord_pid : IsWord l.pid :=
  ⟨l.pid_ne_nil, fun c hc => not_isSpace_of_isDigit (l.pid_digits c hc)⟩

theorem mem_localAddress {c : UInt8} (hc : c ∈ l.localAddress) :
    isDigit c ∨ c = 46 ∨ c = colon := by
  rcases List.mem_append.mp hc with hip | hport
  · rcases l.ip_digits c hip with hdigit | hdot
    · exact .inl hdigit
    · exact .inr (.inl hdot)
  · rcases List.mem_cons.mp hport with hcolon | hport
    · exact .inr (.inr hcolon)
    · exact .inl (l.port_digits c hport)

theorem isWord_localAddress : IsWord l.localAddress := by
  refine ⟨by simp [localAddress], fun c hc => ?_⟩
  rcases l.mem_localAddress hc with hdigit | rfl | rfl
  · exact not_isSpace_of_isDigit hdigit
  · decide
  · decide

theorem columns_append (r : Bytes) : l.columns ++ r = ascii "TCP" ++ (l.gap₁ ++ (l.localAddress ++
    (l.gap₂ ++ (l.foreign ++ (l.gap₃ ++ (l.state ++ (l.gap₄ ++ (l.pid ++ r)))))))) := by
  simp only [columns, List.append_assoc]

theorem zero_not_mem_columns : (0 : UInt8) ∉ l.columns := by
  have hblank {g : Bytes} (hg : g ∈ [l.lead, l.gap₁, l.gap₂, l.gap₃, l.gap₄, l.trail]) :
      (0 : UInt8) ∉ g := (l.isBlank hg).zero_not_mem
  have haddress : (0 : UInt8) ∉ l.localAddress := by
    intro h
    rcases l.mem_localAddress h with hdigit | hdot | hcolon
    · exact isDigit_ne_zero hdigit rfl
    · cases hdot
    · cases hcolon
  have hpid : (0 : UInt8) ∉ l.pid := fun h => isDigit_ne_zero (l.pid_digits 0 h) rfl
  simp only [columns, List.mem_append, not_or]
  exact ⟨by decide, hblank (by simp), haddress, hblank (by simp), l.foreign_word.2,
    hblank (by simp), l.state_word.2, hblank (by simp), hpid⟩

theorem newline_not_mem_columns : newline ∉ l.columns := by
  have hblank {g : Bytes} (hg : g ∈ [l.lead, l.gap₁, l.gap₂, l.gap₃, l.gap₄, l.trail]) :
      newline ∉ g := (l.blank g hg).2
  have hword {w : Bytes} (hw : IsWord w) : newline ∉ w := fun h => hw.not_isSpace newline h rfl
  simp only [columns, List.mem_append, not_or]
  exact ⟨by decide, hblank (by simp), hword isWord_localAddress, hblank (by simp),
    hword l.foreign_word.1, hblank (by simp), hword l.state_word.1, hblank (by simp),
    hword isWord_pid⟩

theorem head_isSpace {g r : Bytes} (hg : g ∈ [l.gap₁, l.gap₂, l.gap₃, l.gap₄]) :
    ∀ c ∈ (g ++ r).head?, isSpace c :=
  (l.isBlank (List.mem_cons_of_mem _ (List.mem_append_left [l.trail] hg))).head (l.gap g hg)

/-- The five columns of a line. -/
structure Columns (l : TcpLine) (s : Bytes) : Prop where
  proto : word s = ascii "TCP"
  localAddress : word (behind s) = l.localAddress
  foreign : word (behind (behind s)) = l.foreign
  state : word (behind (behind (behind s))) = l.state
  pid : ∀ old, extractInt old (behind (behind (behind (behind s)))) = l.PID

theorem extractInt_pid {t : Bytes} (ht : IsBlank t) (old : ℤ) :
    extractInt old (l.gap₄ ++ (l.pid ++ t)) = l.PID := by
  have hrest : ∀ c ∈ t.head?, ¬ isDigit c := fun c hc hdigit =>
    not_isSpace_of_isDigit hdigit (ht c (List.mem_of_mem_head? hc))
  have hatoi := atoi_append l.pid_digits hrest
  have hlt := l.pid_lt
  obtain ⟨c, w, hcons⟩ := List.exists_cons_of_ne_nil l.pid_ne_nil
  have hc : isDigit c := l.pid_digits c (hcons ▸ List.mem_cons_self ..)
  have hsign {sign : UInt8} (hsign : ¬ isDigit sign) : (l.pid ++ t).head? ≠ some sign := by
    rw [hcons]
    rintro heq
    cases heq
    exact hsign hc
  have hne : l.pid ++ t ≠ [] := by simp [hcons]
  rw [extractInt, skip_append (l.isBlank (by simp)) isWord_pid]
  rw [if_neg hne, if_neg (hsign (by decide)), if_neg (hsign (by decide)), hatoi, PID]
  omega

/-- Each word is read as the column that it is, whatever blanks there are around them. -/
theorem columns_read {g t : Bytes} (hg : IsBlank g) (ht : IsBlank t) :
    Columns l (g ++ (l.columns ++ t)) := by
  have htcp : IsWord (ascii "TCP") := by
    have hbytes : ascii "TCP" = [84, 67, 80] := rfl
    rw [hbytes]
    exact ⟨by simp, by simp [isSpace]⟩
  have hblank₁ : IsBlank l.gap₁ := l.isBlank (by simp)
  have hblank₂ : IsBlank l.gap₂ := l.isBlank (by simp)
  have hblank₃ : IsBlank l.gap₃ := l.isBlank (by simp)
  have hgap₁ (r : Bytes) : ∀ c ∈ (l.gap₁ ++ r).head?, isSpace c := l.head_isSpace (by simp)
  have hgap₂ (r : Bytes) : ∀ c ∈ (l.gap₂ ++ r).head?, isSpace c := l.head_isSpace (by simp)
  have hgap₃ (r : Bytes) : ∀ c ∈ (l.gap₃ ++ r).head?, isSpace c := l.head_isSpace (by simp)
  have hgap₄ (r : Bytes) : ∀ c ∈ (l.gap₄ ++ r).head?, isSpace c := l.head_isSpace (by simp)
  rw [columns_append]
  constructor
  · rw [word_append hg htcp (hgap₁ _)]
  · rw [behind_append hg htcp (hgap₁ _), word_append hblank₁ isWord_localAddress (hgap₂ _)]
  · rw [behind_append hg htcp (hgap₁ _), behind_append hblank₁ isWord_localAddress (hgap₂ _),
      word_append hblank₂ l.foreign_word.1 (hgap₃ _)]
  · rw [behind_append hg htcp (hgap₁ _), behind_append hblank₁ isWord_localAddress (hgap₂ _),
      behind_append hblank₂ l.foreign_word.1 (hgap₃ _),
      word_append hblank₃ l.state_word.1 (hgap₄ _)]
  · intro old
    rw [behind_append hg htcp (hgap₁ _), behind_append hblank₁ isWord_localAddress (hgap₂ _),
      behind_append hblank₂ l.foreign_word.1 (hgap₃ _),
      behind_append hblank₃ l.state_word.1 (hgap₄ _), extractInt_pid ht]

/-- The pieces of a line whose columns are not cut. -/
theorem pieces_text (hone : l.InOnePiece) : ∃ ps g t ps',
    pieces 511 l.text [] = ps ++ (g ++ (l.columns ++ t)) :: ps' ∧
      (∀ p ∈ ps, IsBlank p) ∧ IsBlank g ∧ IsBlank t ∧ ∀ p ∈ ps', IsBlank p :=
  exists_pieces (by decide) (l.isBlank (by simp)) (l.blank l.lead (by simp)).2
    newline_not_mem_columns (by simp [columns, ascii]) hone (l.isBlank (by simp))
    (l.blank l.trail (by simp)).2

variable (tmpPort mapPort) in
/-- The piece with the columns of a line is inserted, if its words fit. -/
theorem insertLine_columns {g t : Bytes} (hg : IsBlank g) (ht : IsBlank t)
    (hfits : FitPiece (g ++ (l.columns ++ t))) : ∃ tmp : PortInfo,
      insertLine (tmpPort, mapPort) (g ++ (l.columns ++ t)) =
        .ok (tmp, Multimap.insert mapPort l.PID tmp) ∧ tmp.szLocal = l.localAddress := by
  have hcolumns := l.columns_read hg ht
  have hcstr : cstr (g ++ (l.columns ++ t)) = g ++ (l.columns ++ t) := by
    apply cstr_eq_self
    simp [hg.zero_not_mem, ht.zero_not_mem, l.zero_not_mem_columns]
  have htcp := hcolumns.proto
  rw [← hcstr] at htcp
  obtain ⟨tmp, hread, hlocal, hpid⟩ := readLine_tcp tmpPort htcp (hfits.2 htcp)
  rw [hcstr, hcolumns.localAddress] at hlocal
  rw [hcstr, hcolumns.pid] at hpid
  refine ⟨tmp, ?_, hlocal⟩
  simp [insertLine, hread, hpid, bind, Except.bind, pure, Except.pure]

end TcpLine

variable (mapPort) in
/-- Pieces that name no protocol change nothing but the record. -/
theorem foldlM_nameless (tmpPort : PortInfo) {ps : List Bytes}
    (hword : ∀ p ∈ ps, word (cstr p) ≠ ascii "TCP" ∧ word (cstr p) ≠ ascii "UDP")
    (hfits : ∀ p ∈ ps, FitPiece p) :
    ∃ tmp, ps.foldlM insertLine (tmpPort, mapPort) = .ok (tmp, mapPort) := by
  induction ps generalizing tmpPort with
  | nil => exact ⟨tmpPort, rfl⟩
  | cons p ps ih =>
    obtain ⟨hp, hps⟩ := List.forall_mem_cons.mp hword
    obtain ⟨hpfits, hfits⟩ := List.forall_mem_cons.mp hfits
    obtain ⟨tmp, htmp⟩ := insertLine_nameless tmpPort mapPort hp hpfits
    obtain ⟨tmp', htmp'⟩ := ih tmp hps hfits
    refine ⟨tmp', ?_⟩
    rw [List.foldlM_cons, htmp]
    exact htmp'

theorem word_blank (h : IsBlank piece) :
    word (cstr piece) ≠ ascii "TCP" ∧ word (cstr piece) ≠ ascii "UDP" := by
  have hskip : skip (cstr piece) = [] := by
    rw [skip, List.dropWhile_eq_nil_iff]
    exact fun c hc => h c ((List.takeWhile_sublist _).mem hc)
  rw [word, hskip]
  exact ⟨by decide, by decide⟩

variable (mapPort) in
/-- A line whose columns are not cut is inserted once. -/
theorem foldlM_text (tmpPort : PortInfo) (hone : l.InOnePiece)
    (hfits : ∀ p ∈ pieces 511 l.text [], FitPiece p) : ∃ tmp entry : PortInfo,
      (pieces 511 l.text []).foldlM insertLine (tmpPort, mapPort) =
        .ok (tmp, Multimap.insert mapPort l.PID entry) ∧ entry.szLocal = l.localAddress := by
  obtain ⟨ps, g, t, ps', hpieces, hps, hg, ht, hps'⟩ := TcpLine.pieces_text hone
  rw [hpieces] at hfits ⊢
  obtain ⟨hfront, hfits⟩ := List.forall_mem_append.mp hfits
  obtain ⟨hline, hback⟩ := List.forall_mem_cons.mp hfits
  obtain ⟨tmp, htmp⟩ :=
    foldlM_nameless mapPort tmpPort (fun p hp => word_blank (hps p hp)) hfront
  obtain ⟨entry, hentry, hlocal⟩ := TcpLine.insertLine_columns tmp mapPort hg ht hline
  obtain ⟨tmp', htmp'⟩ := foldlM_nameless (Multimap.insert mapPort l.PID entry) entry
    (fun p hp => word_blank (hps' p hp)) hback
  refine ⟨tmp', entry, ?_, hlocal⟩
  rw [List.foldlM_append, htmp]
  change ((_ :: ps').foldlM insertLine (tmp, mapPort)) = _
  rw [List.foldlM_cons, hentry]
  exact htmp'

/-- The map is in order, and holds the lines of each process in theirs. -/
def Holds (mapPort : List (ℤ × PortInfo)) (lines : List TcpLine) : Prop :=
  Multimap.Sorted mapPort ∧ ∀ pid : ℤ, (mapPort.filter (·.1 = pid)).map (·.2.szLocal) =
    (lines.filter (·.PID = pid)).map (·.localAddress)

theorem Holds.insert {lines : List TcpLine} (hholds : Holds mapPort lines) {tmp : PortInfo}
    (htmp : tmp.szLocal = l.localAddress) :
    Holds (Multimap.insert mapPort l.PID tmp) (lines ++ [l]) := by
  refine ⟨Multimap.sorted_insert hholds.1, fun pid => ?_⟩
  rw [Multimap.filter_insert hholds.1, List.map_append, hholds.2 pid, List.filter_append,
    List.map_append]
  by_cases hpid : l.PID = pid
  · simp [hpid, htmp]
  · simp [hpid]

theorem foldlM_lines (tmpPort : PortInfo) {done lines : List TcpLine} (hholds : Holds mapPort done)
    (hone : ∀ l ∈ lines, l.InOnePiece)
    (hfits : ∀ p ∈ lines.flatMap (fun l => pieces 511 l.text []), FitPiece p) :
    ∃ tmp mapPort', (lines.flatMap fun l => pieces 511 l.text []).foldlM insertLine
      (tmpPort, mapPort) = .ok (tmp, mapPort') ∧ Holds mapPort' (done ++ lines) := by
  induction lines generalizing tmpPort mapPort done with
  | nil => exact ⟨tmpPort, mapPort, rfl, by rwa [List.append_nil]⟩
  | cons l lines ih =>
    obtain ⟨hl, hlines⟩ := List.forall_mem_cons.mp hone
    rw [List.flatMap_cons] at hfits ⊢
    obtain ⟨hfit, hfits⟩ := List.forall_mem_append.mp hfits
    obtain ⟨tmp, entry, htmp, hlocal⟩ := foldlM_text mapPort tmpPort hl hfit
    obtain ⟨tmp', mapPort', hfold, hholds'⟩ := ih tmp (hholds.insert hlocal) hlines hfits
    refine ⟨tmp', mapPort', ?_, by simpa using hholds'⟩
    rw [List.foldlM_append, htmp]
    exact hfold

/-- Only a loop over lines that can all be read gets to its end. -/
theorem readLine_of_foldlM {ps : List Bytes} {s s' : PortInfo × List (ℤ × PortInfo)}
    (h : ps.foldlM insertLine s = .ok s') : ∀ p ∈ ps, ∃ tmp r, readLine tmp p = .ok r := by
  induction ps generalizing s with
  | nil => simp
  | cons p ps ih =>
    rw [List.foldlM_cons] at h
    obtain ⟨s₁, hp, hps⟩ := bind_ok_iff.mp h
    obtain ⟨r, hr, -⟩ := bind_ok_iff.mp hp
    exact List.forall_mem_cons.mpr ⟨⟨_, r, hr⟩, ih hps⟩

theorem pieces_output (h : Header) (lines : List TcpLine) :
    pieces 511 (h.text ++ lines.flatMap (·.text)) [] =
      pieces 511 h.text [] ++ lines.flatMap fun l => pieces 511 l.text [] := by
  have hlines : pieces 511 (lines.flatMap (·.text)) [] =
      lines.flatMap fun l => pieces 511 l.text [] := by
    induction lines with
    | nil => rfl
    | cons l lines ih =>
      have hline : l.text ++ lines.flatMap (·.text) =
          (l.lead ++ (l.columns ++ l.trail)) ++ newline :: lines.flatMap (·.text) := by
        simp [TcpLine.text]
      have htext : l.text = (l.lead ++ (l.columns ++ l.trail)) ++ [newline] := by
        simp [TcpLine.text]
      rw [List.flatMap_cons, List.flatMap_cons, hline, pieces_append, ih, htext]
  rcases h.ends with hnil | ⟨s, hs⟩
  · rw [hnil, List.nil_append, hlines]
    rfl
  · rw [hs, List.append_assoc, List.singleton_append, pieces_append, hlines]

theorem scanLocal_localAddress (out : Bytes × Bytes) :
    scanLocal l.localAddress out = (l.ip, l.port) := by
  have hcolon : ∀ c ∈ l.ip, decide (c ≠ colon) = true := by
    intro c hc
    rcases l.ip_digits c hc with hdigit | rfl
    · have hne : c ≠ colon := by
        rintro rfl
        cases hdigit
      exact decide_eq_true hne
    · rfl
  have hport : word l.port = l.port := by
    have hword : IsWord l.port := by
      refine ⟨List.ne_nil_of_length_pos l.port_length.1, fun c hc => ?_⟩
      exact not_isSpace_of_isDigit (l.port_digits c hc)
    simpa using word_append (g := []) (r := []) (by simp [IsBlank]) hword (by simp)
  have hip := l.ip_length
  have hport' := l.port_length
  have hipne : l.ip ≠ [] := List.ne_nil_of_length_pos hip.1
  have hportne : l.port ≠ [] := List.ne_nil_of_length_pos hport'.1
  have htake : l.localAddress.takeWhile (· ≠ colon) = l.ip := by
    rw [TcpLine.localAddress, List.takeWhile_append_of_pos hcolon]
    simp
  have hdrop : l.localAddress.dropWhile (· ≠ colon) = colon :: l.port := by
    rw [TcpLine.localAddress, List.dropWhile_append_of_pos hcolon]
    simp
  rw [scanLocal, htake, hdrop, if_neg hipne, if_neg (by omega)]
  dsimp only
  rw [hport, if_neg hportne, if_neg (by omega)]

theorem foldl_addPort {es : List (ℤ × PortInfo)} {lines : List TcpLine} (out : Bytes × Bytes)
    (ret : Bytes) (h : es.map (·.2.szLocal) = lines.map (·.localAddress)) :
    (es.foldl addPort (out, ret)).2 = ret ++ Lines.join comma (lines.map (·.port)) := by
  induction es generalizing lines out ret with
  | nil =>
    rw [List.map_eq_nil_iff.mp h.symm]
    simp
  | cons e es ih =>
    obtain ⟨l, lines, rfl, hl, hlines⟩ := List.map_eq_cons_iff.mp h.symm
    have hlocal : e.2.szLocal = l.localAddress := hl.symm
    rw [List.foldl_cons, addPort, hlocal, scanLocal_localAddress, ih _ _ hlines.symm,
      List.map_cons, Lines.join_cons]
    simp

theorem getProcessPort_eq {lines : List TcpLine} (hholds : Holds mapPort lines) (pid : ℤ) :
    getProcessPort mapPort pid =
      List.intercalate [comma] ((lines.filter (·.PID = pid)).map (·.port)) := by
  rw [getProcessPort, Multimap.take_count_find hholds.1, foldl_addPort _ _ (hholds.2 pid),
    List.nil_append]
  by_cases hnil : (lines.filter (·.PID = pid)).map (·.port) = []
  · rw [hnil]
    rfl
  · rw [Lines.getLast?_join comma hnil, if_pos rfl, Lines.dropLast_join]

/-- A word that does not fit is a fault. -/
theorem ListsPorts.fits {output : Bytes} {lines : List TcpLine} (hlists : ListsPorts output lines) :
    Fits output := by
  obtain ⟨mapPort, hlist, -⟩ := hlists
  obtain ⟨s, hfold, -⟩ := bind_ok_iff.mp hlist
  intro piece hpiece
  obtain ⟨tmp, r, hr⟩ := readLine_of_foldlM hfold piece hpiece
  exact fitPiece_of_readLine hr

/-- The ports are listed only if every word that is read fits into its array; and they are, if
besides the header names no protocol and the columns of no line are cut. -/
theorem listsPorts_iff (h : Header) (lines : List TcpLine) :
    (ListsPorts (h.text ++ lines.flatMap (·.text)) lines →
      Fits (h.text ++ lines.flatMap (·.text))) ∧
    (Fits (h.text ++ lines.flatMap (·.text)) → h.NamesNoProtocol →
      (∀ l ∈ lines, l.InOnePiece) → ListsPorts (h.text ++ lines.flatMap (·.text)) lines) := by
  refine ⟨ListsPorts.fits, fun hfits hheader hone => ?_⟩
  rw [Fits, pieces_output] at hfits
  obtain ⟨hfront, hback⟩ := List.forall_mem_append.mp hfits
  obtain ⟨tmp, htmp⟩ := foldlM_nameless [] .init hheader hfront
  have hnil : Holds [] [] := ⟨List.Pairwise.nil, fun _ => rfl⟩
  obtain ⟨tmp', mapPort, hfold, hholds⟩ := foldlM_lines tmp hnil hone hback
  refine ⟨mapPort, ?_, fun pid => getProcessPort_eq hholds pid⟩
  rw [getPortList, pieces_output, List.foldlM_append, htmp]
  exact congrArg (·.bind fun s => .ok s.2) hfold

example : (getPortList (ascii "P\nTCP 0:13 0 L 8\nTCP 0:22 0 L 4\nTCP 0:76 0 L 8\n")).map
    (getProcessPort · 8) = .ok (ascii "13,76") := by
  decide +kernel

/-- The first line of a header that names a protocol is listed like a line of the table. -/
example : (getPortList (ascii "TCP connections of this host\nTCP 0:80 0 L 0\n")).map
    (getProcessPort · 0) = .ok (ascii ",80") := by
  decide +kernel

section Heading

variable {w : Bytes} (hw : IsWord w)
include hw

theorem pieces_heading (hlen : w.length < 511) :
    pieces 511 (w ++ [newline]) [] = [w ++ [newline]] :=
  pieces_line (fun hmem => hw.not_isSpace newline hmem rfl) (by simpa using hlen)

theorem word_heading (hzero : 0 ∉ w) : word (cstr (w ++ [newline])) = w := by
  have hzero' : (0 : UInt8) ∉ w ++ [newline] := by simpa [newline] using hzero
  rw [cstr_eq_self hzero']
  exact word_append (g := []) (by simp [IsBlank]) hw (by simp [newline, isSpace])

end Heading

/-- A word of 200 bytes, more than the whole record holds. -/
def longWord : Bytes := List.replicate 200 65

theorem isWord_longWord : IsWord longWord := by
  refine ⟨by decide, fun c hc => ?_⟩
  rw [(List.mem_replicate.mp hc).2]
  decide

theorem length_longWord : longWord.length = 200 := List.length_replicate

theorem zero_not_mem_longWord : (0 : UInt8) ∉ longWord := fun h =>
  absurd (List.eq_of_mem_replicate h) (by decide)

/-- A header of one word. -/
def longHeading : Header := ⟨longWord ++ [newline], .inr ⟨longWord, rfl⟩⟩

/-- A header with this word is written over the end of `szProto`, and of the record. -/
theorem not_listsPorts_longHeading :
    getPortList longHeading.text = .error .overruns ∧
      ∀ lines, ¬ ListsPorts (longHeading.text ++ lines.flatMap (·.text)) lines := by
  have hpieces : pieces 511 longHeading.text [] = [longWord ++ [newline]] :=
    pieces_heading isWord_longWord (by rw [length_longWord]; norm_num)
  have hword : word (cstr (longWord ++ [newline])) = longWord :=
    word_heading isWord_longWord zero_not_mem_longWord
  have hlong : ¬ (word (cstr (longWord ++ [newline]))).length < 16 := by
    rw [hword, length_longWord]
    norm_num
  constructor
  · have hinsert (s : PortInfo × List (ℤ × PortInfo)) :
        insertLine s (longWord ++ [newline]) = .error .overruns := by
      rw [insertLine, readLine, extract_of_le hlong]
      rfl
    rw [getPortList, hpieces, List.foldlM_cons, hinsert]
    rfl
  · intro lines hlists
    refine hlong (hlists.fits _ ?_).1.1
    rw [pieces_output, hpieces]
    exact List.mem_append_left _ (List.mem_singleton_self _)

end Vs17.Monitor.Ports
