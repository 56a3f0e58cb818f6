import Vs17.Mylog.Writer
import Mathlib.Data.List.Nodup

/-! # The line buffer of Mylog

`Mylog::log` formats its text into the one line buffer of the object before it takes the
mutex, and queues a copy of the buffer after. What a call queues is therefore what the
last call to format has left there.
-/

namespace Vs17.Mylog.State

open Runs

variable {text : ℕ → Bytes} {s t : State} {e : Event}

/-- The call has put its entry into the queue. -/
def HasQueued (s : State) (i : ℕ) : Prop :=
  s.call i = .queued ∨ s.call i = .unlocked ∨ s.call i = .returned

/-- Each call that has queued has queued once, and its own text. -/
def QueuesTexts (text : ℕ → Bytes) (s : State) : Prop :=
  s.order.Nodup ∧ (∀ i, i ∈ s.order ↔ s.HasQueued i) ∧ s.entries = s.order.map text

/-- A call that queues finds its own text in the line buffer: the last call to format has
left a text that reads the same, cut where `vsnprintf` cuts it. -/
def FindsText (text : ℕ → Bytes) (s : State) : Event → Prop
  | .emplace i => ∃ j, s.formatted = some j ∧ Text.cstr ((text j).take 65534) = text i
  | _ => True

/-- The history of the calls agrees with their statements and with the line buffer. -/
structure Ordered (text : ℕ → Bytes) (s : State) : Prop where
  nodup : s.order.Nodup
  mem : ∀ i, i ∈ s.order ↔ s.HasQueued i
  formatted : ∀ i, s.call i ≠ .idle → ∃ j, s.formatted = some j
  linebuffer : ∀ j, s.formatted = some j → s.linebuffer = vsnprintf (text j)

theorem cstr_vsnprintf (t : Bytes) : Text.cstr (vsnprintf t) = Text.cstr (t.take 65534) :=
  Text.cstr_append_zero

theorem ordered_create : Ordered text create where
  nodup := List.nodup_nil
  mem := by simp [create, HasQueued]
  formatted := by simp [create]
  linebuffer := by simp [create]

/-- A call that moves on without queueing. -/
theorem hasQueued_setCall {i : ℕ} {pc : LogPc}
    (h : (pc = .queued ∨ pc = .unlocked ∨ pc = .returned) ↔ s.HasQueued i) (j : ℕ) :
    (s.setCall i pc).HasQueued j ↔ s.HasQueued j := by
  by_cases hj : j = i
  · subst hj
    simpa [HasQueued, setCall] using h
  · simp [HasQueued, setCall, hj]

theorem call_setCall_ne_idle {i j : ℕ} {pc : LogPc} (hpc : s.call i ≠ .idle)
    (h : (s.setCall i pc).call j ≠ .idle) : s.call j ≠ .idle := by
  by_cases hj : j = i
  · rwa [hj]
  · simpa [setCall, hj] using h

/-- A call in the middle moves on, and the rest of the object is left alone. -/
theorem Ordered.move (h : Ordered text s) {i : ℕ} (pc : LogPc) (hpc : s.call i ≠ .idle)
    (hqueued : (pc = .queued ∨ pc = .unlocked ∨ pc = .returned) ↔ s.HasQueued i) :
    Ordered text (s.setCall i pc) where
  nodup := h.nodup
  mem j := (h.mem j).trans (hasQueued_setCall hqueued j).symm
  formatted j hj := h.formatted j (call_setCall_ne_idle hpc hj)
  linebuffer := h.linebuffer

theorem Ordered.step (h : Ordered text s) (hw : WellFormed s) (hs : Step text s e t) :
    Ordered text t := by
  obtain ⟨hp, rfl⟩ := hs
  cases e with
  | format =>
    have hidle : s.call s.started = .idle := hw.idle _ (Nat.le_refl _)
    refine ⟨h.nodup, fun j => (h.mem j).trans (hasQueued_setCall ?_ j).symm,
      fun _ _ => ⟨_, rfl⟩, ?_⟩
    · simp [HasQueued, hidle]
    · rintro j ⟨⟩
      rfl
  | lock i =>
    have hcall : s.call i = .formatted := hp.1
    have hmoved := h.move (i := i) .locked (by simp [hcall]) (by simp [HasQueued, hcall])
    exact ⟨hmoved.nodup, hmoved.mem, hmoved.formatted, hmoved.linebuffer⟩
  | emplace i =>
    have hcall : s.call i = .locked := hp
    have hnot : i ∉ s.order := by simp [h.mem, HasQueued, hcall]
    refine ⟨?_, fun j => ?_, fun j hj => h.formatted j (call_setCall_ne_idle ?_ hj), h.linebuffer⟩
    · exact h.nodup.append (List.nodup_singleton i) (List.disjoint_singleton.mpr hnot)
    · by_cases hj : j = i
      · subst hj
        simp [handle, HasQueued, setCall]
      · simp [handle, HasQueued, setCall, hj, h.mem]
    · simp [hcall]
  | unlock i =>
    have hcall : s.call i = .queued := hp
    have hmoved := h.move (i := i) .unlocked (by simp [hcall]) (by simp [HasQueued, hcall])
    exact ⟨hmoved.nodup, hmoved.mem, hmoved.formatted, hmoved.linebuffer⟩
  | notifyOne i =>
    have hcall : s.call i = .unlocked := hp
    have hmoved := h.move (i := i) .returned (by simp [hcall]) (by simp [HasQueued, hcall])
    obtain ⟨writer, heq⟩ := (s.setCall i .returned).notify_eq
    rw [handle, heq]
    exact ⟨hmoved.nodup, hmoved.mem, hmoved.formatted, hmoved.linebuffer⟩
  | notifyAll =>
    obtain ⟨writer, heq⟩ := s.notify_eq
    rw [handle, heq]
    exact ⟨h.nodup, h.mem, h.formatted, h.linebuffer⟩
  | writer =>
    obtain ⟨owner, writer, queue, stream, -, heq⟩ := s.processEntries_eq
    rw [handle, heq]
    exact ⟨h.nodup, h.mem, h.formatted, h.linebuffer⟩
  | _ => exact ⟨h.nodup, h.mem, h.formatted, h.linebuffer⟩

theorem queuesTexts_step_iff (hw : WellFormed s) (h : Ordered text s) (hq : QueuesTexts text s)
    (hs : Step text s e t) : QueuesTexts text t ↔ FindsText text s e := by
  have ht := h.step hw hs
  have htexts : QueuesTexts text t ↔ t.entries = t.order.map text :=
    ⟨fun h => h.2.2, fun h => ⟨ht.nodup, ht.mem, h⟩⟩
  rw [htexts]
  by_cases he : ∃ i, e = .emplace i
  · obtain ⟨i, rfl⟩ := he
    obtain ⟨hp, rfl⟩ := hs
    have hcall : s.call i = .locked := hp
    obtain ⟨j, hj⟩ := h.formatted i (by simp [hcall])
    simp only [handle, List.map_append, List.map_singleton, ← hq.2.2, List.append_cancel_left_eq,
      List.cons.injEq, and_true, FindsText, hj, Option.some.injEq, exists_eq_left',
      h.linebuffer j hj, cstr_vsnprintf]
  · obtain ⟨hentries, horder⟩ := (frame_step hs).2.2 fun i hi => he ⟨i, hi⟩
    rw [hentries, horder]
    apply iff_of_true hq.2.2
    cases e with
    | emplace i => exact absurd ⟨i, rfl⟩ he
    | _ => trivial

/-- In every state of a run each call that has queued has queued its own text once, exactly
when every call that queued found its own text in the line buffer. -/
theorem run_queuesTexts_iff {tr : List (State × Event)} (h : Run (Step text) create tr s) :
    Throughout (QueuesTexts text) tr s ↔ AllSteps (FindsText text) tr :=
  h.throughout_iff (I := fun s => WellFormed s ∧ Ordered text s)
    ⟨wellFormed_create, ordered_create⟩
    (fun _ _ _ hs hstep => ⟨hs.1.step hstep, hs.2.step hs.1 hstep⟩)
    ⟨(@ordered_create text).nodup, (@ordered_create text).mem, rfl⟩
    (fun _ _ _ hs hq hstep => queuesTexts_step_iff hs.1 hs.2 hq hstep)

instance : ∀ s e, Decidable (FindsText text s e)
  | s, .emplace i =>
    decidable_of_iff ((s.formatted.any fun j => Text.cstr ((text j).take 65534) = text i) = true)
      (by simp [FindsText, Option.any_eq_true])
  | _, .format | _, .lock _ | _, .unlock _ | _, .notifyOne _ | _, .exit | _, .notifyAll
  | _, .join | _, .writer | _, .openFails | _, .wake => .isTrue trivial

/-- Call 0 logs `a` and call 1 logs `b`. -/
def letter (i : ℕ) : Bytes := [97 + UInt8.ofNat i]

/-- One call after the other. -/
def oneByOne : List Event :=
  [.format, .lock 0, .emplace 0, .unlock 0, .notifyOne 0, .format, .lock 1, .emplace 1]

theorem run_queuesTexts_oneByOne :
    QueuesTexts letter (oneByOne.foldl (handle letter) create) := by
  have hfollows : Follows Pending (handle letter) create oneByOne := by decide +kernel
  apply ((run_queuesTexts_iff (run_of_events _ hfollows)).mpr _).2
  decide +kernel

/-- Both calls format before either of them queues: the second text is queued twice. -/
def bothFormat : List Event :=
  [.format, .format, .lock 0, .emplace 0, .unlock 0, .lock 1, .emplace 1]

theorem not_queuesTexts_bothFormat : ∃ tr s, Run (Step letter) create tr s ∧
    s.entries = [[98], [98]] ∧ ¬ QueuesTexts letter s := by
  have hfollows : Follows Pending (handle letter) create bothFormat := by decide +kernel
  have hentries : (bothFormat.foldl (handle letter) create).entries = [[98], [98]] := by
    decide +kernel
  have horder : (bothFormat.foldl (handle letter) create).order = [0, 1] := by decide +kernel
  refine ⟨_, _, run_of_events _ hfollows, hentries, ?_⟩
  rintro ⟨-, -, htexts⟩
  rw [hentries, horder] at htexts
  exact absurd htexts (by decide)

end Vs17.Mylog.State
