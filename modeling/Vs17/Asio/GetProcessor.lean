import Vs17.Asio.Responses
import Vs17.Library.CString

/-! # The processor of a tag

`getProcessor` makes a processor for each of the tags it knows, and keeps it in a static variable
of the whole process. What it returns is always the value of this variable.
-/

namespace Vs17.Asio.GetProcessor

open CString

/-- A processor, and the tag that it has been made for. The object itself has no data. -/
structure BaseProcess where
  kind : Processor
  tag : Bytes
  deriving DecidableEq, Repr

/-- The value of `m_process`, which is also returned. There is no processor at first. -/
def getProcessor (m_process : Option BaseProcess) (tag : Bytes) : Option BaseProcess :=
  if strcmp tag (ascii "0x6012") = 0 then some ⟨.conferenceDistributor, tag⟩
  else if strcmp tag (ascii "0x6020") = 0 then some ⟨.deviceManager, tag⟩
  else if strcmp tag (ascii "0x6021") = 0 then some ⟨.userManager, tag⟩
  else if strcmp tag (ascii "0x6022") = 0 then some ⟨.authManager, tag⟩
  else if strcmp tag (ascii "0x6023") = 0 then some ⟨.conferenceManager, tag⟩
  else if strcmp tag (ascii "0x6024") = 0 then some ⟨.upgradeManager, tag⟩
  else if strcmp tag (ascii "0x6025") = 0 then some ⟨.configManager, tag⟩
  else m_process

/-- What is returned for a tag after these calls. -/
def answer (earlier : List Bytes) (tag : Bytes) : Option BaseProcess :=
  getProcessor (earlier.foldl getProcessor none) tag

def knownTags : List Bytes :=
  ["0x6012", "0x6020", "0x6021", "0x6022", "0x6023", "0x6024", "0x6025"].map ascii

def Known (tag : Bytes) : Prop := ∃ t ∈ knownTags, strcmp tag t = 0

/-- In these calls, the kind returned for a tag is what it is without earlier calls, and no
processor is returned for an unknown tag that was made for another one. -/
structure Selects (tags : List Bytes) : Prop where
  kind : ∀ earlier tag later, tags = earlier ++ tag :: later →
    (answer earlier tag).map (·.kind) = (answer [] tag).map (·.kind)
  own : ∀ earlier tag later, tags = earlier ++ tag :: later → ¬ Known tag →
    ∀ p, answer earlier tag = some p → p.tag = tag

variable {tag : Bytes} {earlier tags : List Bytes} {m_process : Option BaseProcess}

theorem getProcessor_of_known (h : Known tag) :
    ∃ kind, ∀ m_process, getProcessor m_process tag = some ⟨kind, tag⟩ := by
  obtain ⟨t, ht, heq⟩ := h
  unfold getProcessor
  split_ifs with h₁ h₂ h₃ h₄ h₅ h₆ h₇
  any_goals exact ⟨_, fun _ => rfl⟩
  have hne : ∀ t ∈ knownTags, strcmp tag t ≠ 0 := by
    simp only [knownTags, List.map_cons, List.map_nil, List.forall_mem_cons]
    exact ⟨h₁, h₂, h₃, h₄, h₅, h₆, h₇, by simp⟩
  exact absurd heq (hne t ht)

theorem getProcessor_of_not_known (h : ¬ Known tag) : getProcessor m_process tag = m_process := by
  have hne (t : Bytes) (ht : t ∈ knownTags) : strcmp tag t ≠ 0 := fun heq => h ⟨t, ht, heq⟩
  unfold getProcessor
  simp only [knownTags, List.map_cons, List.map_nil, List.forall_mem_cons] at hne
  obtain ⟨h₁, h₂, h₃, h₄, h₅, h₆, h₇, -⟩ := hne
  rw [if_neg h₁, if_neg h₂, if_neg h₃, if_neg h₄, if_neg h₅, if_neg h₆, if_neg h₇]

/-- The variable holds nothing as long as no tag is known. -/
theorem foldl_eq_none_iff :
    earlier.foldl getProcessor m_process = none ↔
      m_process = none ∧ ∀ t ∈ earlier, ¬ Known t := by
  induction earlier generalizing m_process with
  | nil => simp
  | cons t earlier ih =>
    rw [List.foldl_cons, ih, List.forall_mem_cons]
    by_cases ht : Known t
    · obtain ⟨kind, hkind⟩ := getProcessor_of_known ht
      simp [hkind, ht]
    · simp [getProcessor_of_not_known ht, ht]

/-- An unknown tag is given what the last known one has left. -/
theorem selects_iff (tags : List Bytes) : Selects tags ↔
    ∀ earlier tag later, tags = earlier ++ tag :: later → ¬ Known tag →
      ∀ t ∈ earlier, ¬ Known t := by
  constructor
  · intro h earlier tag later hsplit htag
    have hkind := h.kind earlier tag later hsplit
    unfold answer at hkind
    rw [getProcessor_of_not_known htag, getProcessor_of_not_known htag, List.foldl_nil,
      Option.map_none, Option.map_eq_none_iff] at hkind
    exact (foldl_eq_none_iff.mp hkind).2
  · intro h
    have hanswer : ∀ earlier tag later, tags = earlier ++ tag :: later →
        answer earlier tag = answer [] tag := by
      intro earlier tag later hsplit
      unfold answer
      by_cases htag : Known tag
      · obtain ⟨kind, hkind⟩ := getProcessor_of_known htag
        rw [hkind, hkind]
      · rw [foldl_eq_none_iff.mpr ⟨rfl, h earlier tag later hsplit htag⟩, List.foldl_nil]
    refine ⟨fun earlier tag later hsplit => by rw [hanswer earlier tag later hsplit], ?_⟩
    intro earlier tag later hsplit htag p hp
    rw [hanswer earlier tag later hsplit, answer, getProcessor_of_not_known htag] at hp
    cases hp

theorem not_selects_unknown : ¬ Selects [ascii "0x6020", ascii "0x9999"] := by
  intro h
  have hkind := h.kind [ascii "0x6020"] (ascii "0x9999") [] rfl
  revert hkind
  decide

end Vs17.Asio.GetProcessor
