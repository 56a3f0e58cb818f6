import Vs17.Library.Chains

/-! # The walkers over system information

Each of them gets the first record of what was queried and walks along `NextEntryOffset`. They
differ in the offset that the loop's condition looks at.
-/

namespace Vs17.Monitor

open Chains Loop

inductive Walker
  | process
  | extendedProcess
  | object
  | pageFile
  | verifier
  | sessionMappedView
  deriving DecidableEq, Repr

section Rounds

variable (off : ℕ → ℕ) (first : ℕ)

/-- `while (pspri1->NextEntryOffset)`, when the pointer has moved on. -/
def getSystemProcessInformation : ℕ × List ℕ → (ℕ × List ℕ) ⊕ List ℕ :=
  doWhile off fun _ pspri1 => off pspri1 ≠ 0

/-- `while (pspri1->NextEntryOffset)`, when the pointer has moved on. -/
def getSystemExtendedProcessInformation : ℕ × List ℕ → (ℕ × List ℕ) ⊕ List ℕ :=
  doWhile off fun _ pspri1 => off pspri1 ≠ 0

/-- `nextpos` is set in front of the loop. -/
def getSystemObjectInformation : ℕ × List ℕ → (ℕ × List ℕ) ⊕ List ℕ :=
  let nextpos := off first
  doWhile off fun _ _ => nextpos ≠ 0

/-- `nextoffset` is set in each round. -/
def getSystemPageFileInformation : ℕ × List ℕ → (ℕ × List ℕ) ⊕ List ℕ :=
  doWhile off fun pspi _ => off pspi ≠ 0

/-- `offset` is set in each round. -/
def getSystemVerifierInformation : ℕ × List ℕ → (ℕ × List ℕ) ⊕ List ℕ :=
  doWhile off fun psvi _ => off psvi ≠ 0

/-- `nextoffset` is set to 0 in front of the loop. -/
def getSystemSessionMappedViewInformation : ℕ × List ℕ → (ℕ × List ℕ) ⊕ List ℕ :=
  let nextoffset := 0
  doWhile off fun _ _ => nextoffset ≠ 0

/-- The loop over all processes, which has visited the first one. -/
def getProc : ℕ × List ℕ → (ℕ × List ℕ) ⊕ List ℕ :=
  whileTrue off

def Walker.round : Walker → ℕ × List ℕ → (ℕ × List ℕ) ⊕ List ℕ
  | process => getSystemProcessInformation off
  | extendedProcess => getSystemExtendedProcessInformation off
  | object => getSystemObjectInformation off first
  | pageFile => getSystemPageFileInformation off
  | verifier => getSystemVerifierInformation off
  | sessionMappedView => getSystemSessionMappedViewInformation off

/-- The walker ends, and has visited these records. -/
def Walker.Visits (w : Walker) (l : List ℕ) : Prop :=
  Ends (w.round off first) (first, []) l

end Rounds

variable {off : ℕ → ℕ} {p : ℕ} {l : List ℕ} {w : Walker}

/-- With a single record every loop is left after the first round. -/
theorem visits_of_single (h : Chain off p l) (hp : off p = 0) : w.Visits off p l := by
  have hround : ∃ again, w.round off p = doWhile off again ∧ again p (p + off p) = false := by
    cases w with
    | process | extendedProcess => exact ⟨fun _ q => off q ≠ 0, rfl, by simp [hp]⟩
    | object => exact ⟨fun _ _ => off p ≠ 0, rfl, by simp [hp]⟩
    | pageFile | verifier => exact ⟨fun q _ => off q ≠ 0, rfl, by simp [hp]⟩
    | sessionMappedView => exact ⟨fun _ _ => false, rfl, rfl⟩
  obtain ⟨again, hround, hagain⟩ := hround
  rw [Walker.Visits, hround, h.eq_singleton hp]
  exact doWhile_ends (v := []) hagain

theorem visits_current (h : Chain off p l) (hw : w = .pageFile ∨ w = .verifier) :
    w.Visits off p l := by
  rcases hw with rfl | rfl <;> exact doWhile_ends_current (v := []) h

theorem not_visits_next (h : Chain off p l) (hp : off p ≠ 0)
    (hw : w = .process ∨ w = .extendedProcess) : ¬ w.Visits off p l := by
  have hends := doWhile_ends_next (v := []) h hp
  have hlen := h.two_le_length hp
  have hne : l ≠ [] ++ l.dropLast := by
    intro heq
    have hlast := congrArg List.length heq
    simp only [List.nil_append, List.length_dropLast] at hlast
    omega
  rcases hw with rfl | rfl <;> exact fun hvisits => hne (Ends.deterministic hvisits hends)

theorem not_visits_object (hp : off p ≠ 0) : ¬ Walker.object.Visits off p l := by
  have hbody : Walker.object.round off p = doWhile off fun _ _ => true := by
    simp [Walker.round, getSystemObjectInformation, hp]
  rw [Walker.Visits, hbody]
  exact not_doWhile_ends

theorem not_visits_sessionMappedView (h : Chain off p l) (hp : off p ≠ 0) :
    ¬ Walker.sessionMappedView.Visits off p l := by
  have hends : Ends (doWhile off fun _ _ => false) (p, []) [p] := doWhile_ends (v := []) rfl
  intro hvisits
  have hlen := h.two_le_length hp
  rw [Ends.deterministic hvisits hends] at hlen
  simp at hlen

/-- Two records, 32 bytes apart. -/
def twoRecords (a : ℕ) : ℕ := if a = 64 then 32 else 0

theorem chain_twoRecords : Chain twoRecords 64 [64, 96] :=
  .link (by decide) (.last rfl)

end Vs17.Monitor
