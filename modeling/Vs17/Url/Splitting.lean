import Vs17.Url.HandleMem

/-! # The lines of a trace

The lines that a sequence of calls cuts out are those of the text they are given, as long
as every line fits the buffers it is copied to. What a line must fit depends on the lines
before it in its call, whose tags are still in the buffer.
-/

namespace Vs17.Url

open Words Text Lines CString

def textOf (cs : List Chunk) : Bytes := cs.flatMap Chunk.data

/-- The lines of a call fit, each with what the lines before it have left in `tag`. -/
def LinesFit : Bytes → List Bytes → Prop
  | _, [] => True
  | old, l :: ls => LineFits old l ∧ LinesFit (blit 0 (tagOf l) old) ls

/-- The property holds of every call: of what `tag` holds at first, and of the lines up to the
first zero byte of what was kept and what arrives. -/
def EachCall (P : Bytes → List Bytes → Prop) : Bytes → List Chunk → Prop
  | _, [] => True
  | kept, c :: cs =>
    P c.tag (lines newline (cstr (kept ++ c.data))) ∧ EachCall P (unread (kept ++ c.data)) cs

/-- No copy in these calls writes past its buffer, and every buffer that is read as a string
holds a zero byte then. -/
def InBounds (b : UInt8) (cs : List Chunk) : Prop := ∃ r, deliver (.start b) cs = .ok r

/-- The calls return the sizes of their data. Split at its newlines, their text gives the lines
they have cut out, and the tail that the block holds. -/
structure SplitInto (cs : List Chunk) (os : List Outcome) (mem : MemoryStruct) : Prop where
  returned : os.map Outcome.returned = cs.map fun c => c.data.length
  pieces : ∃ tail, mem.Holds tail ∧
    (textOf cs).splitOn newline = (os.flatMap fun o => o.parsed.map Prod.fst) ++ [tail]

/-- After every call the text given so far has been split. -/
def SplitsLines (b : UInt8) (cs : List Chunk) : Prop :=
  ∀ pre, pre <+: cs → ∃ mem os, deliver (.start b) pre = .ok (mem, os) ∧ SplitInto pre os mem

instance (old line : Bytes) : Decidable (LineFits old line) :=
  decidable_of_iff (_ ∧ _ ∧ _ ∧ _)
    ⟨fun h => ⟨h.1, h.2.1, h.2.2.1, h.2.2.2⟩, fun h => ⟨h.1, h.2, h.3, h.4⟩⟩

instance instDecidableLinesFit : ∀ old ls, Decidable (LinesFit old ls)
  | _, [] => .isTrue trivial
  | old, l :: ls =>
    have := instDecidableLinesFit (blit 0 (tagOf l) old) ls
    inferInstanceAs (Decidable (LineFits old l ∧ LinesFit (blit 0 (tagOf l) old) ls))

instance instDecidableEachCall {P : Bytes → List Bytes → Prop} [∀ old ls, Decidable (P old ls)] :
    ∀ kept cs, Decidable (EachCall P kept cs)
  | _, [] => .isTrue trivial
  | kept, c :: cs =>
    have := instDecidableEachCall (P := P) (unread (kept ++ c.data)) cs
    inferInstanceAs (Decidable (P c.tag _ ∧ EachCall P _ cs))

variable {v : Locals} {ls : List Bytes} {mem : MemoryStruct} {kept : Bytes} {b : UInt8}
  {cs : List Chunk}

theorem Locals.readLines_ok_iff (h₀ : ∀ l ∈ ls, (0 : UInt8) ∉ l)
    (hm : v.info.members.map List.length = memberSizes) :
    (∃ r, v.readLines ls = .ok r) ↔ LinesFit v.tag ls := by
  induction ls generalizing v with
  | nil => simp [readLines, LinesFit]
  | cons l ls ih =>
    obtain ⟨hl₀, hls₀⟩ := List.forall_mem_cons.mp h₀
    have hnext : (v.next l).info.members.map List.length = memberSizes := by
      rw [next_members_length, hm]
    have htag : (v.next l).tag = blit 0 (tagOf l) v.tag := rfl
    simp only [readLines, bind_ok_iff, readLine_ok_iff hl₀ hm]
    rw [LinesFit, ← htag, ← ih hls₀ hnext]
    constructor
    · rintro ⟨_, _, ⟨hfit, rfl⟩, r, hr, _⟩
      exact ⟨hfit, r, hr⟩
    · rintro ⟨hfit, r, hr⟩
      exact ⟨_, _, ⟨hfit, rfl⟩, r, hr, rfl⟩

theorem Locals.readLines_fst {r : Locals × List (Bytes × LinkInfo)}
    (h : v.readLines ls = .ok r) : r.2.map Prod.fst = ls := by
  induction ls generalizing v r with
  | nil =>
    cases h
    rfl
  | cons l ls ih =>
    obtain ⟨w, -, hr⟩ := bind_ok_iff.mp h
    obtain ⟨r', hr', heq⟩ := bind_ok_iff.mp hr
    cases heq
    rw [List.map_cons, ih hr']

theorem zero_not_mem_of_mem_lines (text : Bytes) {l : Bytes}
    (h : l ∈ lines newline (cstr text)) : (0 : UInt8) ∉ l :=
  fun hl => zero_not_mem_cstr text (mem_of_mem_lines h hl)

theorem deliver_cons {c : Chunk} (h : mem.Holds kept) (cs : List Chunk) :
    ∃ mem' : MemoryStruct, mem'.Holds (unread (kept ++ c.data)) ∧
      ∀ r, deliver mem (c :: cs) = .ok r ↔ ∃ p q,
        Locals.readLines ⟨.new, c.tag⟩ (lines newline (cstr (kept ++ c.data))) = .ok p ∧
        deliver mem' cs = .ok q ∧
        (q.1, ⟨c.data.length, mem', p.2, failedLines p.2⟩ :: q.2) = r := by
  obtain ⟨mem', hmem', heq⟩ := handleMem_eq h c.fresh c.tag c.data
  use mem', hmem'
  intro r
  rw [deliver, heq]
  simp only [bind_ok_iff, Except.ok.injEq]
  constructor
  · rintro ⟨_, ⟨p, hp, rfl⟩, q, hq, rfl⟩
    exact ⟨p, q, hp, hq, rfl⟩
  · rintro ⟨p, q, hp, hq, rfl⟩
    exact ⟨_, ⟨p, hp, rfl⟩, q, hq, rfl⟩

theorem deliver_ok_iff (h : mem.Holds kept) :
    (∃ r, deliver mem cs = .ok r) ↔ EachCall LinesFit kept cs := by
  induction cs generalizing mem kept with
  | nil => simp [deliver, EachCall]
  | cons c cs ih =>
    obtain ⟨mem', hmem', hcons⟩ := deliver_cons (c := c) h cs
    have hread := Locals.readLines_ok_iff (v := ⟨.new, c.tag⟩)
      (fun l => zero_not_mem_of_mem_lines (kept ++ c.data)) LinkInfo.new_members_length
    simp only [EachCall, ← hread, ← ih hmem', hcons]
    constructor
    · rintro ⟨_, p, q, hp, hq, _⟩
      exact ⟨⟨p, hp⟩, q, hq⟩
    · rintro ⟨⟨p, hp⟩, q, hq⟩
      exact ⟨_, p, q, hp, hq, rfl⟩

theorem MemoryStruct.start_holds (b : UInt8) : (start b).Holds [] := ⟨rfl, rfl⟩

theorem inBounds_iff (b : UInt8) (cs : List Chunk) : InBounds b cs ↔ EachCall LinesFit [] cs := by
  apply deliver_ok_iff
  exact MemoryStruct.start_holds b

/-- A trace id of 33 bytes. -/
def longTraceId : Chunk := ⟨List.replicate 33 97 ++ [bar, newline], fun _ => 0, fun _ => 0⟩

theorem not_inBounds_longTraceId : ¬ InBounds 0 [longTraceId] := by
  intro h
  have hfit := (deliver_ok_iff (MemoryStruct.start_holds 0)).mp h
  revert hfit
  decide +kernel

/-- What is left of a text without zero bytes is its tail. -/
theorem unread_eq_tail {text : Bytes} (h₀ : (0 : UInt8) ∉ text) :
    unread text = tail newline text := by
  have hdrop : (join newline (lines newline text) ++ tail newline text).drop
      (join newline (lines newline text)).length = tail newline text := List.drop_left
  rw [join_append_tail] at hdrop
  rw [unread, cstr_eq_self h₀, hdrop]

@[simp] theorem textOf_nil : textOf [] = [] := rfl

theorem append_textOf_cons (kept : Bytes) (c : Chunk) (cs : List Chunk) :
    kept ++ textOf (c :: cs) = (kept ++ c.data) ++ textOf cs := by
  rw [textOf, List.flatMap_cons, List.append_assoc, textOf]

/-- Calls that go through cut out the lines of what was kept and what they are given, and keep
the tail. -/
theorem deliver_splits {r : MemoryStruct × List Outcome} (h : mem.Holds kept)
    (hkept : newline ∉ kept) (hkept₀ : (0 : UInt8) ∉ kept) (h₀ : ∀ c ∈ cs, (0 : UInt8) ∉ c.data)
    (hr : deliver mem cs = .ok r) :
    r.2.map Outcome.returned = cs.map (fun c => c.data.length) ∧
      (r.2.flatMap fun o => o.parsed.map Prod.fst) = lines newline (kept ++ textOf cs) ∧
      r.1.Holds (tail newline (kept ++ textOf cs)) := by
  induction cs generalizing mem kept r with
  | nil =>
    cases hr
    rw [textOf_nil, List.append_nil, lines_of_not_mem hkept, tail_of_not_mem hkept]
    exact ⟨rfl, rfl, h⟩
  | cons c cs ih =>
    obtain ⟨hc₀, hcs₀⟩ := List.forall_mem_cons.mp h₀
    have htext₀ := List.not_mem_append hkept₀ hc₀
    obtain ⟨mem', hmem', hcons⟩ := deliver_cons (c := c) h cs
    obtain ⟨p, q, hp, hq, rfl⟩ := (hcons r).mp hr
    rw [unread_eq_tail htext₀] at hmem'
    rw [cstr_eq_self htext₀] at hp
    have htail₀ : (0 : UInt8) ∉ tail newline (kept ++ c.data) := fun hmem =>
      htext₀ (mem_of_mem_tail hmem)
    obtain ⟨hreturned, hlines, hholds⟩ := ih hmem' (not_mem_tail _) htail₀ hcs₀ hq
    rw [append_textOf_cons, lines_append (kept ++ c.data), tail_append (kept ++ c.data)]
    refine ⟨?_, ?_, hholds⟩
    · rw [List.map_cons, List.map_cons, hreturned]
    · rw [List.flatMap_cons, hlines, Locals.readLines_fst hp]

theorem EachCall.of_prefix {P : Bytes → List Bytes → Prop} {pre : List Chunk}
    (hpre : pre <+: cs) (h : EachCall P kept cs) : EachCall P kept pre := by
  induction pre generalizing cs kept with
  | nil => trivial
  | cons c pre ih =>
    obtain ⟨cs, rfl⟩ := hpre
    exact ⟨h.1, ih (List.prefix_append pre cs) h.2⟩

/-- The calls split their text, whatever it is and wherever it is divided, exactly when every
line fits its buffers. -/
theorem splitsLines_iff (b : UInt8) (cs : List Chunk) (h₀ : ∀ c ∈ cs, (0 : UInt8) ∉ c.data) :
    SplitsLines b cs ↔ EachCall LinesFit [] cs := by
  constructor
  · intro h
    obtain ⟨mem, os, hr, -⟩ := h cs List.prefix_rfl
    exact (deliver_ok_iff (MemoryStruct.start_holds b)).mp ⟨_, hr⟩
  · intro h pre hpre
    obtain ⟨⟨mem, os⟩, hr⟩ :=
      (deliver_ok_iff (MemoryStruct.start_holds b)).mpr (h.of_prefix hpre)
    have hpre₀ : ∀ c ∈ pre, (0 : UInt8) ∉ c.data := fun c hc => h₀ c (hpre.subset hc)
    obtain ⟨hreturned, hlines, hholds⟩ :=
      deliver_splits (MemoryStruct.start_holds b) (by simp) (by simp) hpre₀ hr
    rw [List.nil_append] at hlines hholds
    refine ⟨mem, os, hr, hreturned, _, hholds, ?_⟩
    rw [hlines, splitOn_eq]

/-- Two calls, a line and a half in each. -/
def halves : List Chunk :=
  [⟨ascii "a|b|t\nc|", fun _ => 0, fun _ => 0⟩, ⟨ascii "d\ne", fun _ => 0, fun _ => 0⟩]

theorem splitsLines_halves : SplitsLines 0 halves :=
  (splitsLines_iff 0 halves (by decide)).mpr (by decide +kernel)

/-- A line whose tag is longer than the buffer. -/
def longTag : Chunk := ⟨List.replicate 600 97 ++ [newline], fun _ => 0, fun _ => 0⟩

theorem not_splitsLines_longTag : (∀ c ∈ [longTag], (0 : UInt8) ∉ c.data) ∧
    ¬ SplitsLines 0 [longTag] := by
  constructor
  · decide +kernel
  intro h
  obtain ⟨mem, os, hr, -⟩ := h _ List.prefix_rfl
  have hfit := (deliver_ok_iff (MemoryStruct.start_holds 0)).mp ⟨_, hr⟩
  revert hfit
  decide +kernel

end Vs17.Url
