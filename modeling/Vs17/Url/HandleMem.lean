import Vs17.Url.Record

/-! # The write callback of a trace download

`handleMem` appends what it is given to its block, cuts the lines off in place and moves
what follows the last newline to the front of the block. The record and the buffer `tag`
are new in every call.
-/

namespace Vs17.Url

open Words Text Lines CString

structure MemoryStruct where
  memory : Bytes
  size : ℕ
  deriving DecidableEq, Repr

/-- The first `size` bytes of the block are this text. -/
structure MemoryStruct.Holds (mem : MemoryStruct) (text : Bytes) : Prop where
  take : mem.memory.take mem.size = text
  length : text.length = mem.size

/-- Bytes that nothing has been written to. -/
def uninitialised (n : ℕ) (fresh : ℕ → UInt8) : Bytes := (List.range n).map fresh

/-- `realloc`, where it succeeds. -/
def realloc (old : Bytes) (n : ℕ) (fresh : ℕ → UInt8) : Bytes :=
  old.take n ++ uninitialised (n - old.length) fresh

/-- The loop of `handleMem`. The last two fields are history: the lines cut out, each with the
record it leaves, and the lines printed. -/
structure Scan where
  memory : Bytes
  posBegin : ℕ
  nSize : ℕ
  vars : Locals
  parsed : List (Bytes × LinkInfo)
  printed : List Bytes
  deriving DecidableEq, Repr

/-- A round, for a line with its newline at this offset. -/
def Scan.round (s : Scan) (n : ℕ) : Except Fault Scan :=
  let posEnd := s.posBegin + n
  let memory := blit posEnd [0] s.memory
  let line := cstr (memory.drop s.posBegin)
  (s.vars.readLine line).bind fun vars => .ok
    { memory := blit posEnd [newline] memory
      posBegin := posEnd + 1
      nSize := s.nSize + (n + 1)
      vars
      parsed := s.parsed ++ [(line, vars.info)]
      printed := if vars.info.failed then s.printed ++ [line] else s.printed }

theorem Scan.round_ok {s t : Scan} {n : ℕ} (h : s.round n = .ok t) :
    t.memory.length = s.memory.length ∧ t.posBegin = s.posBegin + n + 1 := by
  obtain ⟨vars, -, ht⟩ := bind_ok_iff.mp h
  cases ht
  exact ⟨by rw [length_blit, length_blit], rfl⟩

def Scan.loop (s : Scan) : Except Fault Scan :=
  match _h : strchr newline (s.memory.drop s.posBegin) with
  | none => .ok s
  | some n =>
    match _ht : s.round n with
    | .error e => .error e
    | .ok t => t.loop
termination_by s.memory.length - s.posBegin
decreasing_by
  obtain ⟨hlen, hpos⟩ := round_ok _ht
  have hlt := strchr_lt _h
  rw [List.length_drop] at hlt
  omega

/-- The end of `handleMem`: what has been handled is cleared, and what is left moves to the
front. -/
def compact (memory : Bytes) (posBegin nSize size : ℕ) : MemoryStruct :=
  let memory := blit 0 (List.replicate nSize 0) memory
  ⟨blit 0 ((memory.drop posBegin).take (size - nSize)) memory, size - nSize⟩

/-- What a call returns, leaves and has done. -/
structure Outcome where
  returned : ℕ
  mem : MemoryStruct
  parsed : List (Bytes × LinkInfo)
  printed : List Bytes
  deriving DecidableEq, Repr

/-- `handleMem`, with what `realloc` leaves in new bytes, if it succeeds, and with what `tag`
holds at first. -/
def handleMem (mem : MemoryStruct) (fresh : Option (ℕ → UInt8)) (tag readData : Bytes) :
    Except Fault Outcome :=
  match fresh with
  | none => .ok ⟨0, ⟨[], mem.size⟩, [], []⟩
  | some fresh =>
    let size := mem.size + readData.length
    let memory := realloc mem.memory (size + 1) fresh
    let memory := blit mem.size readData memory
    let memory := blit size [0] memory
    (Scan.loop ⟨memory, 0, 0, ⟨.new, tag⟩, [], []⟩).bind fun s =>
      .ok ⟨readData.length, compact s.memory s.posBegin s.nSize size, s.parsed, s.printed⟩

/-- What one call is given, and what it finds in memory that nothing has been written to. -/
structure Chunk where
  data : Bytes
  fresh : ℕ → UInt8
  stack : ℕ → UInt8

def Chunk.tag (c : Chunk) : Bytes := uninitialised tagSize c.stack

/-- The block that `downloadFile` allocates. -/
def MemoryStruct.start (b : UInt8) : MemoryStruct := ⟨[b], 0⟩

/-- The calls for one response, with every `realloc` succeeding. -/
def deliver : MemoryStruct → List Chunk → Except Fault (MemoryStruct × List Outcome)
  | mem, [] => .ok (mem, [])
  | mem, c :: cs =>
    (handleMem mem (some c.fresh) c.tag c.data).bind fun o =>
      (deliver o.mem cs).bind fun r => .ok (r.1, o :: r.2)

/-- The lines of a call, read one after another. -/
def Locals.readLines : Locals → List Bytes → Except Fault (Locals × List (Bytes × LinkInfo))
  | v, [] => .ok (v, [])
  | v, l :: ls =>
    (v.readLine l).bind fun w =>
      (w.readLines ls).bind fun r => .ok (r.1, (l, w.info) :: r.2)

/-- The lines whose record has failed. -/
def failedLines (rs : List (Bytes × LinkInfo)) : List Bytes :=
  (rs.filter fun r => r.2.failed).map Prod.fst

/-- What is left of a text when its lines are cut off. A zero byte hides the lines behind it. -/
def unread (text : Bytes) : Bytes := text.drop (join newline (lines newline (cstr text))).length

section Calls

variable {s : Scan} {t c : Bytes}

/-- The line is cut out and the memory is as before. -/
theorem Scan.round_eq {l : Bytes} (h₀ : (0 : UInt8) ∉ l)
    (h : s.memory.drop s.posBegin = l ++ newline :: c) :
    s.round l.length = (s.vars.readLine l).bind fun vars => .ok
      { memory := s.memory
        posBegin := s.posBegin + l.length + 1
        nSize := s.nSize + (l.length + 1)
        vars
        parsed := s.parsed ++ [(l, vars.info)]
        printed := if vars.info.failed then s.printed ++ [l] else s.printed } := by
  obtain ⟨a, hlen, hmem⟩ := exists_of_drop h (by simp)
  rw [← List.append_assoc] at hmem
  have hpos : s.posBegin + l.length = (a ++ l).length := by rw [List.length_append, hlen]
  have hzero : blit (s.posBegin + l.length) [0] s.memory = (a ++ l) ++ 0 :: c := by
    rw [hmem, hpos, blit_append_cons]
  have hline : cstr ((blit (s.posBegin + l.length) [0] s.memory).drop s.posBegin) = l := by
    rw [hzero, List.append_assoc, List.drop_left' hlen, cstr_append_zero, cstr_eq_self h₀]
  have hback : blit (s.posBegin + l.length) [newline]
      (blit (s.posBegin + l.length) [0] s.memory) = s.memory := by
    rw [hzero, hpos, blit_append_cons, ← hmem]
  rw [round]
  simp only [hline, hback]

theorem Scan.loop_of_none (h : strchr newline (s.memory.drop s.posBegin) = none) :
    s.loop = .ok s := by
  rw [loop]
  split
  · rfl
  · rename_i hn
    rw [h] at hn
    cases hn

theorem Scan.loop_of_some {n : ℕ} (h : strchr newline (s.memory.drop s.posBegin) = some n) :
    s.loop = (s.round n).bind Scan.loop := by
  rw [loop]
  split
  · rename_i hn
    rw [h] at hn
    cases hn
  · rename_i m hm
    obtain rfl := Option.some.inj (h.symm.trans hm)
    split <;> simp [*, Except.bind]

theorem failedLines_cons (r : Bytes × LinkInfo) (rs : List (Bytes × LinkInfo)) :
    failedLines (r :: rs) = if r.2.failed then r.1 :: failedLines rs else failedLines rs := by
  rw [failedLines, List.filter_cons, failedLines]
  split <;> rfl

theorem failedLines_append (rs rs' : List (Bytes × LinkInfo)) :
    failedLines (rs ++ rs') = failedLines rs ++ failedLines rs' := by
  rw [failedLines, List.filter_append, List.map_append, failedLines, failedLines]

/-- Scanning the memory in place reads the lines of the text there, one after another. -/
theorem Scan.loop_eq (h₀ : (0 : UInt8) ∉ t) (h : s.memory.drop s.posBegin = t ++ 0 :: c) :
    s.loop = (s.vars.readLines (lines newline t)).bind fun r => .ok
      { memory := s.memory
        posBegin := s.posBegin + (join newline (lines newline t)).length
        nSize := s.nSize + (join newline (lines newline t)).length
        vars := r.1
        parsed := s.parsed ++ r.2
        printed := s.printed ++ failedLines r.2 } := by
  induction t using Lines.induction newline generalizing s with
  | last t ht =>
    have hnone : strchr newline (s.memory.drop s.posBegin) = none := by
      rw [h, strchr_eq_none, cstr_append_zero, cstr_eq_self h₀]
      exact ht
    rw [loop_of_none hnone, lines_of_not_mem ht]
    simp [Locals.readLines, Except.bind, join, failedLines]
  | line l b hl ih =>
    obtain ⟨hl₀, hb₀⟩ := not_or.mp (mt List.mem_append.mpr h₀)
    have hb₀ : (0 : UInt8) ∉ b := fun h => hb₀ (List.mem_cons_of_mem _ h)
    rw [List.append_assoc, List.cons_append] at h
    have hsome : strchr newline (s.memory.drop s.posBegin) = some l.length := by
      rw [h, strchr_append_cons hl hl₀ (by decide)]
    have hrest : s.memory.drop (s.posBegin + l.length + 1) = b ++ 0 :: c := by
      rw [Nat.add_assoc, ← List.drop_drop, h]
      simp
    rw [loop_of_some hsome, round_eq hl₀ h, lines_append_cons hl, Locals.readLines]
    cases s.vars.readLine l with
    | error e => rfl
    | ok vars =>
      simp only [Except.bind]
      rw [ih hb₀ hrest]
      cases vars.readLines (lines newline b) with
      | error e => rfl
      | ok r =>
        have hlen : (join newline (l :: lines newline b)).length =
            l.length + 1 + (join newline (lines newline b)).length := by
          rw [join_cons, List.length_append, List.length_cons]
          omega
        simp only [Except.bind, hlen, failedLines_cons, List.append_assoc, List.singleton_append,
          Nat.add_assoc, Except.ok.injEq, Scan.mk.injEq, true_and]
        split <;> simp

end Calls

section Block

variable {mem : MemoryStruct} {text old : Bytes} {n k : ℕ} {fresh : ℕ → UInt8}

@[simp] theorem length_uninitialised (n : ℕ) (fresh : ℕ → UInt8) :
    (uninitialised n fresh).length = n := by
  simp [uninitialised]

@[simp] theorem length_realloc (old : Bytes) (n : ℕ) (fresh : ℕ → UInt8) :
    (realloc old n fresh).length = n := by
  simp only [realloc, List.length_append, List.length_take, length_uninitialised]
  omega

theorem take_realloc (hold : k ≤ old.length) (hn : k ≤ n) :
    (realloc old n fresh).take k = old.take k := by
  have hle : k ≤ (old.take n).length := by
    rw [List.length_take]
    omega
  rw [realloc, List.take_append_of_le_length hle, List.take_take, Nat.min_eq_left hn]

/-- The block after the data and the zero byte have been written. -/
theorem MemoryStruct.Holds.append (h : mem.Holds text) (data : Bytes) (fresh : ℕ → UInt8) :
    blit (mem.size + data.length) [0] (blit mem.size data
      (realloc mem.memory (mem.size + data.length + 1) fresh)) = text ++ data ++ [0] := by
  have hold : mem.size ≤ mem.memory.length := by
    have hlen := congrArg List.length h.take
    rw [List.length_take, h.length] at hlen
    omega
  have hone : (blit mem.size data (realloc mem.memory (mem.size + data.length + 1) fresh)).take
      (mem.size + data.length) = text ++ data := by
    rw [take_blit (by simp), take_realloc hold (by omega), h.take]
  have hle : mem.size + data.length + [(0 : UInt8)].length ≤
      (blit mem.size data (realloc mem.memory (mem.size + data.length + 1) fresh)).length := by
    simp
  have htwo := take_blit hle
  rwa [hone, List.take_of_length_le (by simp)] at htwo

/-- What follows the handled bytes is what the block holds. -/
theorem compact_holds (hk : k ≤ text.length) :
    (compact (text ++ [0]) k k text.length).Holds (text.drop k) := by
  have hlen : (text.drop k).length = text.length - k := List.length_drop
  have hmove : ((blit 0 (List.replicate k 0) (text ++ [0])).drop k).take (text.length - k) =
      text.drop k := by
    rw [drop_blit_of_ge (by simp), List.drop_append_of_le_length hk,
      List.take_append_of_le_length hlen.ge, List.take_of_length_le hlen.le]
  constructor
  · have hle : 0 + (text.drop k).length ≤
        (blit 0 (List.replicate k 0) (text ++ [0])).length := by
      rw [length_blit, List.length_append, hlen]
      omega
    have hfront := take_blit hle
    rw [Nat.zero_add, hlen, List.take_zero, List.nil_append] at hfront
    rw [compact]
    simp only [hmove]
    exact hfront
  · exact hlen

/-- A call returns the size of its data and reads the lines of what it has, up to the first
zero byte. The block holds what follows them. -/
theorem handleMem_eq (h : mem.Holds text) (fresh : ℕ → UInt8) (tag data : Bytes) :
    ∃ mem' : MemoryStruct, mem'.Holds (unread (text ++ data)) ∧
      handleMem mem (some fresh) tag data =
        (Locals.readLines ⟨.new, tag⟩ (lines newline (cstr (text ++ data)))).bind fun r =>
          .ok ⟨data.length, mem', r.2, failedLines r.2⟩ := by
  obtain ⟨c, hc⟩ : ∃ c, text ++ data ++ [0] = cstr (text ++ data) ++ 0 :: c := by
    rw [← cstr_append_zero]
    exact eq_cstr_append (by simp)
  have hk : (join newline (lines newline (cstr (text ++ data)))).length ≤
      (text ++ data).length := by
    have hjoin := congrArg List.length (join_append_tail newline (cstr (text ++ data)))
    have hpre : (cstr (text ++ data)).length ≤ (text ++ data).length :=
      (List.takeWhile_prefix _).length_le
    rw [List.length_append] at hjoin
    omega
  have hsize : mem.size + data.length = (text ++ data).length := by
    rw [List.length_append, h.length]
  refine ⟨_, compact_holds hk, ?_⟩
  rw [handleMem]
  simp only [h.append data fresh]
  rw [Scan.loop_eq (s := ⟨text ++ data ++ [0], 0, 0, ⟨.new, tag⟩, [], []⟩)
    (zero_not_mem_cstr (text ++ data)) hc, hsize]
  cases Locals.readLines ⟨.new, tag⟩ (lines newline (cstr (text ++ data))) with
  | error e => rfl
  | ok r => simp [Except.bind]

end Block

end Vs17.Url
