import Vs17.Library.Loop
import Vs17.Url.HandleMem

/-! # The write callback that prints

`WriteMemoryCallback` appends what it is given to its block, and then prints the block up to each
newline. Its loop goes on at the newline that it has found, not behind it.
-/

namespace Vs17.Url.WriteMemory

open Words Text CString Loop

/-- The loop. The lines printed are history. -/
structure Printing where
  memory : Bytes
  pos : ℕ
  printed : List Bytes
  deriving DecidableEq, Repr

/-- A round overwrites the newline, prints the block and puts the newline back. -/
def printBody (s : Printing) : Printing ⊕ (Bytes × List Bytes) :=
  match strchr newline (s.memory.drop s.pos) with
  | none => .inr (s.memory, s.printed)
  | some n =>
    let pos := s.pos + n
    let memory := blit pos [0] s.memory
    let printed := s.printed ++ [cstr memory]
    .inl ⟨blit pos [newline] memory, pos, printed⟩

/-- What a call returns, leaves and has printed. -/
structure Outcome where
  returned : ℕ
  mem : MemoryStruct
  printed : List Bytes
  deriving DecidableEq, Repr

/-- `WriteMemoryCallback`, with what `realloc` leaves in new bytes, if it succeeds, and with at
most the given number of rounds. -/
def writeMemoryCallback (rounds : ℕ) (readData : Bytes) (size nmemb : ℕ) (mem : MemoryStruct)
    (fresh : Option (ℕ → UInt8)) : Option Outcome :=
  let readsize := size * nmemb
  match fresh with
  | none => some ⟨0, ⟨[], mem.size⟩, []⟩
  | some fresh => do
    let memory := realloc mem.memory (mem.size + readsize + 1) fresh
    let memory := blit mem.size readData memory
    let memory := blit (mem.size + readsize) [0] memory
    let (memory, printed) ← run printBody rounds ⟨memory, 0, []⟩
    return ⟨readsize, ⟨memory, mem.size + readsize⟩, printed⟩

/-- What one call is given, and what it finds in new memory. -/
structure Chunk where
  data : Bytes
  size : ℕ
  nmemb : ℕ
  length_eq : data.length = size * nmemb
  fresh : ℕ → UInt8

/-- The call comes back, if `realloc` succeeds. -/
def Returns (mem : MemoryStruct) (c : Chunk) (o : Outcome) : Prop :=
  ∃ n₀, ∀ n ≥ n₀, writeMemoryCallback n c.data c.size c.nmemb mem (some c.fresh) = some o

/-- Each call comes back, reports the size of its chunk and appends the chunk to the text. -/
def Accumulates : Bytes → MemoryStruct → List Chunk → Prop
  | _, _, [] => True
  | text, mem, c :: cs => ∃ o, Returns mem c o ∧ o.returned = c.size * c.nmemb ∧
      o.mem.Holds (text ++ c.data) ∧ Accumulates (text ++ c.data) o.mem cs

variable {mem : MemoryStruct} {text b l r : Bytes} {c : Chunk} {s : Printing} {o : Outcome}

theorem printBody_stuck {n : ℕ} (h : strchr newline (s.memory.drop s.pos) = some n) :
    ∃ s', printBody s = .inl s' ∧ strchr newline (s'.memory.drop s'.pos) = some 0 := by
  obtain ⟨l, r, hdrop, hl⟩ := exists_of_strchr h
  obtain ⟨a, hlen, hmem⟩ := exists_of_drop hdrop (by simp)
  rw [← List.append_assoc] at hmem
  have hpos : s.pos + n = (a ++ l).length := by rw [List.length_append, hlen, hl]
  have hback : blit (s.pos + n) [newline] (blit (s.pos + n) [0] s.memory) = s.memory := by
    rw [hmem, hpos, blit_append_cons, blit_append_cons]
  refine ⟨⟨s.memory, s.pos + n, s.printed ++ [cstr (blit (s.pos + n) [0] s.memory)]⟩, ?_, ?_⟩
  · unfold printBody
    simp only [h, hback]
  · simp only [hmem, hpos, List.drop_left]
    exact strchr_append_cons (l := []) (by simp) (by simp) (by decide)

theorem not_ends_of_newline {n : ℕ} (h : strchr newline (s.memory.drop s.pos) = some n)
    (res : Bytes × List Bytes) : ¬ Ends printBody s res := by
  apply not_ends_of_trap (fun s => ∃ n, strchr newline (s.memory.drop s.pos) = some n) ?_ ⟨n, h⟩
  rintro s ⟨n, hn⟩
  obtain ⟨s', hs', hfound⟩ := printBody_stuck hn
  exact ⟨s', hs', 0, hfound⟩

theorem writeMemoryCallback_eq (h : mem.Holds text) (c : Chunk) (n : ℕ) :
    writeMemoryCallback n c.data c.size c.nmemb mem (some c.fresh) =
      (run printBody n ⟨text ++ c.data ++ [0], 0, []⟩).map fun res =>
        ⟨c.data.length, ⟨res.1, (text ++ c.data).length⟩, res.2⟩ := by
  unfold writeMemoryCallback
  simp only [← c.length_eq, h.append c.data c.fresh]
  rw [List.length_append, h.length]
  cases run printBody n ⟨text ++ c.data ++ [0], 0, []⟩ <;> rfl

theorem strchr_text (b : Bytes) : strchr newline (b ++ [0]) = strchr newline b := by
  rw [strchr, cstr_append_zero, strchr]

theorem returns_of_not_mem (h : mem.Holds text) (hfree : newline ∉ cstr (text ++ c.data)) :
    Returns mem c ⟨c.data.length, ⟨text ++ c.data ++ [0], (text ++ c.data).length⟩, []⟩ := by
  have hexit : printBody ⟨text ++ c.data ++ [0], 0, []⟩ = .inr (text ++ c.data ++ [0], []) := by
    unfold printBody
    rw [List.drop_zero, strchr_text, strchr_eq_none.mpr hfree]
  obtain ⟨n₀, hn₀⟩ := (Ends.exit hexit).exists_run
  refine ⟨n₀, fun n hn => ?_⟩
  rw [writeMemoryCallback_eq h, hn₀ n hn]
  rfl

theorem not_returns_of_mem (h : mem.Holds text) (hmem : newline ∈ cstr (text ++ c.data)) :
    ¬ Returns mem c o := by
  rintro ⟨n₀, hn₀⟩
  have hcall := hn₀ n₀ le_rfl
  rw [writeMemoryCallback_eq h] at hcall
  obtain ⟨res, hres, -⟩ := Option.map_eq_some_iff.mp hcall
  cases hfound : strchr newline (text ++ c.data) with
  | none => exact strchr_eq_none.mp hfound hmem
  | some n =>
    rw [← strchr_text] at hfound
    exact not_ends_of_newline (s := ⟨text ++ c.data ++ [0], 0, []⟩) hfound res (ends_of_run hres)

theorem holds_appended (b : Bytes) : MemoryStruct.Holds ⟨b ++ [0], b.length⟩ b :=
  ⟨List.take_left, rfl⟩

theorem Accumulates.not_mem {cs : List Chunk} (hmem : mem.Holds text)
    (hfree : newline ∉ cstr text) (h : Accumulates text mem cs) :
    newline ∉ cstr (text ++ cs.flatMap (·.data)) := by
  induction cs generalizing text mem with
  | nil => simpa using hfree
  | cons c cs ih =>
    obtain ⟨o, hreturns, -, hholds, hrest⟩ := h
    rw [List.flatMap_cons, ← List.append_assoc]
    exact ih hholds (fun hc => not_returns_of_mem hmem hc hreturns) hrest

theorem accumulates_of_not_mem {cs : List Chunk} (hmem : mem.Holds text)
    (hfree : newline ∉ cstr (text ++ cs.flatMap (·.data))) : Accumulates text mem cs := by
  induction cs generalizing text mem with
  | nil => trivial
  | cons c cs ih =>
    rw [List.flatMap_cons, ← List.append_assoc] at hfree
    have hreturns := returns_of_not_mem (c := c) hmem fun h => hfree (mem_cstr_append h _)
    exact ⟨_, hreturns, c.length_eq, holds_appended _, ih (holds_appended _) hfree⟩

/-- The callback does its work as long as no newline can be seen in the text. -/
theorem accumulates_iff (b : UInt8) (cs : List Chunk) :
    Accumulates [] (.start b) cs ↔ newline ∉ cstr (cs.flatMap (·.data)) := by
  have hstart : (MemoryStruct.start b).Holds [] := ⟨rfl, rfl⟩
  exact ⟨fun h => h.not_mem hstart (by simp [cstr]), fun h => accumulates_of_not_mem hstart h⟩

def emptyLine : Chunk where
  data := [newline]
  size := 1
  nmemb := 1
  length_eq := rfl
  fresh _ := 0

theorem not_accumulates_emptyLine : ¬ Accumulates [] (.start 0) [emptyLine] := by
  intro h
  have hstart : (MemoryStruct.start 0).Holds [] := ⟨rfl, rfl⟩
  exact h.not_mem hstart (by simp [cstr]) (by decide)

end Vs17.Url.WriteMemory
