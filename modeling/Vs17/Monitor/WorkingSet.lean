import Mathlib.Data.List.Basic
import Mathlib.Data.List.Count
import Mathlib.Tactic.Ring

/-! # The private working set

`getProcessMemory_Win` asks for the working set with room for one entry. If that is too short, it
allocates as much as was announced and asks again.
-/

namespace Vs17.Monitor.WorkingSet

structure Block where
  shared : Bool
  deriving DecidableEq, Repr

inductive FirstQuery
  | success (blocks : List Block)
  | badLength (numberOfEntries : ℕ)
  | failed

/-- The bytes that are allocated for so many entries: a `DWORD`. -/
def realSize (ptr numberOfEntries : ℕ) : ℕ := (ptr + numberOfEntries * ptr) % 2 ^ 32

/-- The entries there is room for behind their number. -/
def capacity (ptr numberOfEntries : ℕ) : ℕ := (realSize ptr numberOfEntries - ptr) / ptr

/-- The entries of the last query, if it was successful. -/
def lastResult (second : Option (List Block)) : FirstQuery → Option (List Block)
  | .success blocks => some blocks
  | .badLength _ => second
  | .failed => none

/-- What one call meets. A query writes no more entries than there is room for, and the pages of a
working set lie in one address space. -/
structure Queries where
  ptr : ℕ
  dwPageSize : ℕ
  first : FirstQuery
  second : Option (List Block)
  ptr_pos : 0 < ptr
  first_fits : ∀ blocks, first = .success blocks → blocks.length ≤ 1
  second_fits : ∀ n blocks, first = .badLength n → second = some blocks →
    blocks.length ≤ capacity ptr n
  pages_fit : ∀ blocks, lastResult second first = some blocks →
    dwPageSize * blocks.length < 2 ^ (8 * ptr)

/-- The size, and the indices of the entries that have been read. -/
structure Result where
  workSetPrivate : ℕ
  read : List ℕ
  deriving DecidableEq, Repr

/-- A zeroed buffer with these entries at its front. -/
def buffer (room : ℕ) (blocks : List Block) : List Block :=
  blocks ++ List.replicate (room - blocks.length) ⟨false⟩

section Loop

variable (ptr dwPageSize : ℕ) (pWorkSetBlock : List Block)

/-- The loop from index `i` on, with as many rounds left. Behind the buffer there is nothing to
read. -/
def countPrivate (i : ℕ) : ℕ → Result → Option Result
  | 0, r => some r
  | n + 1, r => do
    let block ← pWorkSetBlock[i]?
    let size := if block.shared then r.workSetPrivate
      else (r.workSetPrivate + dwPageSize) % 2 ^ (8 * ptr)
    countPrivate (i + 1) n ⟨size, r.read ++ [i]⟩

end Loop

/-- `pWorkSetBlock`, and the number of entries in `workSetInfo`, which the second query does not
write to. If there was no successful query, 0 is returned at once. -/
def loopInput (e : Queries) : Option (List Block × ℕ) :=
  match e.first with
  | .success blocks => some (buffer 1 blocks, blocks.length)
  | .badLength n => e.second.map fun blocks => (buffer (capacity e.ptr n) blocks, n)
  | .failed => none

/-- The size in KB, on Windows 8 or later. -/
def getProcessMemoryWin (e : Queries) : Option Result :=
  match loopInput e with
  | none => some ⟨0, []⟩
  | some (pWorkSetBlock, n) => do
    let r ← countPrivate e.ptr e.dwPageSize pWorkSetBlock 0 n ⟨0, []⟩
    return { r with workSetPrivate := r.workSetPrivate / 1024 }

/-- The private pages of these entries, in KB. -/
def privateSize (dwPageSize : ℕ) (blocks : List Block) : ℕ :=
  dwPageSize * blocks.countP (fun block => !block.shared) / 1024

/-- For the entries of a successful query the size is that of the private ones, and no other
entries are read. -/
def CountsPrivate (e : Queries) : Prop :=
  ∀ blocks, lastResult e.second e.first = some blocks →
    ∃ r, getProcessMemoryWin e = some r ∧ r.workSetPrivate = privateSize e.dwPageSize blocks ∧
      ∀ i ∈ r.read, i < blocks.length

variable {ptr dwPageSize i n : ℕ} {blocks pWorkSetBlock : List Block} {r r' : Result} {e : Queries}

theorem capacity_le (ptr n : ℕ) : capacity ptr n ≤ n := by
  have hmod : realSize ptr n ≤ ptr + n * ptr := Nat.mod_le ..
  exact Nat.div_le_of_le_mul (by rw [Nat.mul_comm]; omega)

/-- The entries are read one after another. -/
theorem read_countPrivate (h : countPrivate ptr dwPageSize pWorkSetBlock i n r = some r') :
    r'.read = r.read ++ List.range' i n := by
  induction n generalizing i r with
  | zero =>
    cases h
    simp
  | succ n ih =>
    obtain ⟨block, -, hrest⟩ := Option.bind_eq_some_iff.mp h
    rw [ih hrest, List.range'_succ, List.append_assoc, List.singleton_append]

theorem countPrivate_eq {rest : List Block} (hbuf : pWorkSetBlock.drop i = blocks ++ rest)
    (hfits : r.workSetPrivate + dwPageSize * blocks.length < 2 ^ (8 * ptr)) :
    ∃ r', countPrivate ptr dwPageSize pWorkSetBlock i blocks.length r = some r' ∧
      r'.workSetPrivate =
        r.workSetPrivate + dwPageSize * blocks.countP (fun block => !block.shared) := by
  induction blocks generalizing i r with
  | nil => exact ⟨r, rfl, by simp⟩
  | cons block blocks ih =>
    have hblock : pWorkSetBlock[i]? = some block := by
      have hhead := congrArg List.head? hbuf
      rwa [List.head?_drop] at hhead
    have hrest : pWorkSetBlock.drop (i + 1) = blocks ++ rest := by
      rw [← List.tail_drop, hbuf]
      rfl
    rw [List.length_cons, Nat.mul_succ] at hfits
    cases hshared : block.shared with
    | true =>
      obtain ⟨r', hr', hsize⟩ :=
        ih (r := ⟨r.workSetPrivate, r.read ++ [i]⟩) hrest (by simp only; omega)
      refine ⟨r', ?_, by simp [hsize, hshared]⟩
      simp [countPrivate, hblock, hshared, hr']
    | false =>
      have hmod : (r.workSetPrivate + dwPageSize) % 2 ^ (8 * ptr) = r.workSetPrivate + dwPageSize :=
        Nat.mod_eq_of_lt (by omega)
      obtain ⟨r', hr', hsize⟩ :=
        ih (r := ⟨r.workSetPrivate + dwPageSize, r.read ++ [i]⟩) hrest (by simp only; omega)
      refine ⟨r', ?_, ?_⟩
      · simp [countPrivate, hblock, hshared, hmod, hr']
      · rw [hsize, List.countP_cons_of_pos (by simp [hshared]), Nat.mul_succ]
        dsimp only
        omega

/-- A loop over as many entries as the query has given. -/
theorem countPrivate_buffer (room : ℕ) (hfits : dwPageSize * blocks.length < 2 ^ (8 * ptr)) :
    ∃ r, countPrivate ptr dwPageSize (buffer room blocks) 0 blocks.length ⟨0, []⟩ = some r ∧
      r.workSetPrivate / 1024 = privateSize dwPageSize blocks ∧
      ∀ i ∈ r.read, i < blocks.length := by
  have hbuf : (buffer room blocks).drop 0 =
      blocks ++ List.replicate (room - blocks.length) ⟨false⟩ := rfl
  obtain ⟨r, hr, hsize⟩ := countPrivate_eq (r := ⟨0, []⟩) hbuf (by simpa using hfits)
  refine ⟨r, hr, ?_, fun i hi => ?_⟩
  · rw [hsize, privateSize, Nat.zero_add]
  · rw [read_countPrivate hr, List.nil_append, List.mem_range'_1] at hi
    omega

theorem countsPrivate_of_loopInput {room : ℕ} (hlast : lastResult e.second e.first = some blocks)
    (h : loopInput e = some (buffer room blocks, blocks.length)) : CountsPrivate e := by
  intro blocks' hblocks'
  cases hlast.symm.trans hblocks'
  obtain ⟨r, hr, hsize, hread⟩ := countPrivate_buffer room (e.pages_fit blocks hlast)
  refine ⟨⟨r.workSetPrivate / 1024, r.read⟩, ?_, hsize, hread⟩
  simp [getProcessMemoryWin, h, hr]

/-- A second query that gives fewer entries than announced leaves the rest of the buffer zero. -/
theorem CountsPrivate.length_eq (h : CountsPrivate e) (hfirst : e.first = .badLength n)
    (hsecond : e.second = some blocks) : blocks.length = n := by
  obtain ⟨r, hr, -, hread⟩ := h blocks (by rw [hfirst, hsecond, lastResult])
  have hinput : loopInput e = some (buffer (capacity e.ptr n) blocks, n) := by
    rw [loopInput, hfirst, hsecond]
    rfl
  rw [getProcessMemoryWin, hinput] at hr
  obtain ⟨r₀, hr₀, heq⟩ := Option.bind_eq_some_iff.mp hr
  cases heq
  have hall (i : ℕ) (hi : i < n) : i < blocks.length := by
    apply hread
    rw [read_countPrivate hr₀, List.nil_append, List.mem_range'_1]
    omega
  have hroom := e.second_fits n blocks hfirst hsecond
  have hle := capacity_le e.ptr n
  by_contra hne
  exact absurd (hall blocks.length (by omega)) (Nat.lt_irrefl _)

/-- The entries of the last query are counted, and no others, unless the second query gives fewer
than the first one has announced. -/
theorem countsPrivate_iff : CountsPrivate e ↔
    ∀ n blocks, e.first = .badLength n → e.second = some blocks → blocks.length = n := by
  constructor
  · exact fun h n blocks => h.length_eq
  · intro h
    cases hfirst : e.first with
    | success blocks =>
      have hlast : lastResult e.second e.first = some blocks := by rw [hfirst, lastResult]
      apply countsPrivate_of_loopInput hlast
      rw [loopInput, hfirst]
    | badLength n =>
      cases hsecond : e.second with
      | some blocks =>
        have hlast : lastResult e.second e.first = some blocks := by
          rw [hfirst, hsecond, lastResult]
        apply countsPrivate_of_loopInput hlast
        rw [loopInput, hfirst, hsecond, h n blocks hfirst hsecond]
        rfl
      | none =>
        intro blocks hlast
        rw [hfirst, hsecond] at hlast
        cases hlast
    | failed =>
      intro blocks hlast
      rw [hfirst] at hlast
      cases hlast

/-- Three entries are announced, and two shared ones are given. -/
def shrunk : Queries where
  ptr := 8
  dwPageSize := 4096
  first := .badLength 3
  second := some [⟨true⟩, ⟨true⟩]
  ptr_pos := by decide
  first_fits := by simp
  second_fits := by
    rintro n blocks hfirst hsecond
    cases hfirst
    cases hsecond
    decide
  pages_fit := by
    intro blocks hlast
    cases hlast
    decide

/-- Of a working set without private pages 4 KB are counted, when it has shrunk by one page between
the queries. -/
theorem not_countsPrivate_shrunk :
    getProcessMemoryWin shrunk = some ⟨4, [0, 1, 2]⟩ ∧
      privateSize 4096 [⟨true⟩, ⟨true⟩] = 0 ∧ ¬ CountsPrivate shrunk := by
  refine ⟨by decide, by decide, fun h => ?_⟩
  exact absurd (h.length_eq rfl rfl) (by decide)

end Vs17.Monitor.WorkingSet
