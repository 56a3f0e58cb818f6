import Vs17.Logger.ProcessEntries
import Mathlib.Data.List.Nodup

/-! # What the log file of Logger holds

Every wake-up opens `SysMon_log.txt` anew, which empties it. What the file holds in the
end is what the last wake-up wrote.
-/

namespace Vs17.Logger.State

open Runs Mutex

variable {s t : State} {e : Event} {i : Message} {tr : List (State × Event)}

/-- The call of `log` has returned before the destructor is entered. -/
def Early (s : State) (i : Message) : Prop :=
  if s.dtor = .before then s.call i = .returned else i ∈ s.early

/-- The file is opened anew with no message in it whose call has returned before the
destructor is entered. -/
def OpensEmpty (s : State) : Event → Prop
  | .thread => s.thread = .openFile → ∀ i ∈ s.file, ¬ s.Early i
  | _ => True

/-- The file holds every message whose call had returned before the destructor was entered,
each once and in the order in which they were queued. -/
def HoldsEarly (s : State) : Prop :=
  s.order.Nodup ∧ s.file.filter (· ∈ s.early) = s.order.filter (· ∈ s.early)

/-- The call has pushed its message. -/
def HasPushed (s : State) (i : Message) : Prop :=
  s.call i = .pushed ∨ s.call i = .notified ∨ s.call i = .returned

/-- The history of the messages agrees with the queue, the file and the calls. -/
structure Ordered (s : State) : Prop where
  order : s.overwritten ++ s.file ++ s.queue = s.order
  nodup : s.order.Nodup
  mem : ∀ i, i ∈ s.order ↔ s.HasPushed i
  written : ∀ i ∈ s.overwritten ++ s.file, s.call i = .returned
  early : ∀ i ∈ s.early, i ∈ s.order
  exited : s.thread = .exited → s.dtor ≠ .before ∧ ∀ i ∈ s.queue, i ∉ s.early
  joined : s.dtor = .returned → s.thread = .exited

theorem ordered_create : Ordered create where
  order := rfl
  nodup := List.nodup_nil
  mem := by simp [create, HasPushed]
  written := by simp [create]
  early := by simp [create]
  exited := by simp [create]
  joined := by simp [create]

/-- A call that moves on without pushing. -/
theorem hasPushed_setCall {pc : LogPc}
    (h : (pc = .pushed ∨ pc = .notified ∨ pc = .returned) ↔ s.HasPushed i) (j : Message) :
    (s.setCall i pc).HasPushed j ↔ s.HasPushed j := by
  by_cases hj : j = i
  · subst hj
    simpa [HasPushed] using h
  · simp [HasPushed, hj]

/-- A call in the middle moves on, and the rest of the object is left alone. -/
theorem Ordered.move (h : Ordered s) (pc : LogPc) (hnot : s.call i ≠ .returned)
    (hpushed : (pc = .pushed ∨ pc = .notified ∨ pc = .returned) ↔ s.HasPushed i) :
    Ordered (s.setCall i pc) where
  order := h.order
  nodup := h.nodup
  mem j := (h.mem j).trans (hasPushed_setCall hpushed j).symm
  written j hj := by
    have hcall := h.written j hj
    have hne : j ≠ i := by
      rintro rfl
      exact hnot hcall
    simpa [hne] using hcall
  early := h.early
  exited := h.exited
  joined := h.joined

/-- A wake-up of the thread. -/
theorem Ordered.notifyAll (h : Ordered s) : Ordered s.notifyAll := by
  unfold State.notifyAll
  split
  · next hw =>
    refine ⟨h.order, h.nodup, h.mem, h.written, h.early, by rintro ⟨⟩, fun hd => ?_⟩
    cases hw.symm.trans (h.joined hd)
  · exact h

theorem Ordered.destroy (h : Ordered s) (hp : s.Pending .destroy) : Ordered s.destroy := by
  cases hd : s.dtor <;> simp only [State.destroy, hd]
  case before =>
    refine ⟨h.order, h.nodup, h.mem, h.written, fun i hi => List.mem_of_mem_filter hi, ?_, ?_⟩
    · exact fun hexited => absurd hd (h.exited hexited).1
    · rintro ⟨⟩
  case raised =>
    apply Ordered.notifyAll
    refine ⟨h.order, h.nodup, h.mem, h.written, h.early, fun hexited => ?_, by rintro ⟨⟩⟩
    exact ⟨by simp, (h.exited hexited).2⟩
  case joining =>
    refine ⟨h.order, h.nodup, h.mem, h.written, h.early, fun hexited => ?_, fun _ => hp.2.1 hd⟩
    exact ⟨by simp, (h.exited hexited).2⟩
  case returned => exact h
  all_goals
    refine ⟨h.order, h.nodup, h.mem, h.written, h.early, fun hexited => ?_, by rintro ⟨⟩⟩
    exact ⟨by simp, (h.exited hexited).2⟩

/-- The thread writes messages that it takes from the queue. -/
theorem mem_written_processEntries
    (hi : i ∈ s.processEntries.overwritten ++ s.processEntries.file) :
    i ∈ s.overwritten ++ s.file ∨ s.thread = .entry ∧ i ∈ s.queue := by
  cases hw : s.thread <;> simp only [processEntries, hw] at hi
  case entry =>
    cases hq : s.queue with
    | nil => exact .inl (by simpa [hq] using hi)
    | cons front queue =>
      rw [hq] at hi
      have hi : i ∈ s.overwritten ++ (s.file ++ [front]) := hi
      rw [← List.append_assoc, List.mem_append, List.mem_singleton] at hi
      rcases hi with hi | rfl
      · exact .inl hi
      · exact .inr ⟨rfl, List.mem_cons_self ..⟩
  case openFile => exact .inl (by simpa using hi)
  case last => split at hi <;> exact .inl hi
  all_goals exact .inl hi

/-- The call of a message in the queue has returned when the thread is inside. -/
theorem Ordered.returned_of_mem_queue (h : Ordered s) (hw : WellFormed s)
    (hholds : s.ThreadHolds) (hi : i ∈ s.queue) : s.call i = .returned := by
  have hmem : i ∈ s.order := by
    rw [← h.order]
    exact List.mem_append_right _ hi
  have hout : ¬ s.Inside (.log i) := fun hin => hw.not_threadHolds hin (by simp) hholds
  rcases (h.mem i).mp hmem with hcall | hcall | hcall
  · exact absurd (.inr (.inl hcall)) hout
  · exact absurd (.inr (.inr hcall)) hout
  · exact hcall

theorem Ordered.processEntries (h : Ordered s) (hw : WellFormed s) (hp : s.Pending .thread) :
    Ordered s.processEntries := by
  have hwritten : ∀ i ∈ s.processEntries.overwritten ++ s.processEntries.file,
      s.call i = .returned := by
    intro i hi
    rcases mem_written_processEntries hi with hi | ⟨hentry, hi⟩
    · exact h.written i hi
    · exact h.returned_of_mem_queue hw (by simp [ThreadHolds, hentry]) hi
  have hexited : s.processEntries.thread = .exited →
      s.dtor ≠ .before ∧ s.processEntries.queue = [] := by
    intro hexited
    obtain ⟨hlast, hexit, hqueue⟩ := processEntries_exited hp.2.2 hexited
    refine ⟨fun hd => ?_, hqueue.trans (hw.drained (.inr hlast))⟩
    simpa [hd] using hw.raised.mp hexit
  obtain ⟨owner, thread, queue, file, overwritten, horder, heq⟩ := s.processEntries_eq
  rw [heq] at hwritten hexited ⊢
  refine ⟨horder.trans h.order, h.nodup, h.mem, hwritten, h.early, fun hthread => ?_,
    fun hd => absurd (h.joined hd) hp.2.2⟩
  obtain ⟨hd, hqueue⟩ := hexited hthread
  refine ⟨hd, ?_⟩
  simp only at hqueue
  simp [hqueue]

theorem Ordered.step (h : Ordered s) (hw : WellFormed s) (hs : Step s e t) (hopen : s.Opens e) :
    Ordered t := by
  obtain ⟨hp, rfl⟩ := hs
  cases e with
  | lock =>
    have hidle : s.call s.started = .idle := hw.idle _ (Nat.le_refl _)
    have hmoved := h.move (i := s.started) .locked (by simp [hidle])
      (by simp [HasPushed, hidle])
    exact ⟨hmoved.order, hmoved.nodup, hmoved.mem, hmoved.written, hmoved.early, hmoved.exited,
      hmoved.joined⟩
  | push i =>
    have hcall : s.call i = .locked := hp
    have hnot : i ∉ s.order := by simp [h.mem, HasPushed, hcall]
    refine ⟨?_, ?_, fun j => ?_, fun j hj => ?_, fun j hj => ?_, fun hexited => ?_, h.joined⟩
    · simp [handle, ← h.order, setCall]
    · exact h.nodup.append (List.nodup_singleton i) (List.disjoint_singleton.mpr hnot)
    · by_cases hj : j = i
      · subst hj
        simp [handle, HasPushed]
      · simp [handle, HasPushed, hj, h.mem]
    · have hreturned := h.written j hj
      have hne : j ≠ i := by
        rintro rfl
        cases hcall.symm.trans hreturned
      simpa [handle, hne] using hreturned
    · exact List.mem_append_left _ (h.early j hj)
    · obtain ⟨hd, hqueue⟩ := h.exited hexited
      refine ⟨hd, fun j hj => ?_⟩
      rcases List.mem_append.mp hj with hj | hj
      · exact hqueue j hj
      · rw [List.mem_singleton.mp hj]
        exact fun hearly => hnot (h.early i hearly)
  | notifyAll i =>
    have hcall : s.call i = .pushed := hp
    exact (h.move .notified (by simp [hcall]) (by simp [HasPushed, hcall])).notifyAll
  | unlock i =>
    have hcall : s.call i = .notified := hp
    have hmoved := h.move (i := i) .returned (by simp [hcall]) (by simp [HasPushed, hcall])
    exact ⟨hmoved.order, hmoved.nodup, hmoved.mem, hmoved.written, hmoved.early, hmoved.exited,
      hmoved.joined⟩
  | destroy => exact h.destroy hp
  | thread => exact h.processEntries hw hp
  | openFails => exact hopen.elim
  | wake =>
    have hwaiting : s.thread = .waiting := hp
    refine ⟨h.order, h.nodup, h.mem, h.written, h.early, by rintro ⟨⟩, fun hd => ?_⟩
    cases hwaiting.symm.trans (h.joined hd)

theorem early_congr (hd : t.dtor = s.dtor) (hearly : t.early = s.early)
    (hcall : t.call i = s.call i) : t.Early i ↔ s.Early i := by
  rw [Early, Early, hd, hearly, hcall]

theorem early_destroy (hi : i ∈ s.order) (hcall : s.call i = .returned) :
    s.destroy.Early i ↔ s.Early i := by
  cases hd : s.dtor <;> simp only [destroy, hd]
  case before => simp [Early, hd, hi, hcall]
  case raised =>
    obtain ⟨thread, heq⟩ := notifyAll_eq { s with dtor := .notified }
    rw [heq]
    simp [Early, hd]
  all_goals simp [Early, hd]

/-- Whether a written message is early does not change any more. -/
theorem early_step (h : Ordered s) (hw : WellFormed s) (hs : Step s e t)
    (hi : i ∈ s.overwritten ++ s.file) : t.Early i ↔ s.Early i := by
  obtain ⟨hp, rfl⟩ := hs
  have hcall : s.call i = .returned := h.written i hi
  have keeps (j : Message) (pc : LogPc) (hj : s.call j ≠ .returned) :
      (s.setCall j pc).call i = s.call i := by
    have hne : i ≠ j := by
      rintro rfl
      exact hj hcall
    simp [hne]
  cases e with
  | lock =>
    have hidle : s.call s.started = .idle := hw.idle _ (Nat.le_refl _)
    exact early_congr rfl rfl (keeps _ _ (by simp [hidle]))
  | push j =>
    have hpushes : s.call j = .locked := hp
    exact early_congr rfl rfl (keeps _ _ (by simp [hpushes]))
  | notifyAll j =>
    have hpushed : s.call j = .pushed := hp
    obtain ⟨thread, heq⟩ := (s.setCall j .notified).notifyAll_eq
    rw [handle, heq]
    exact early_congr rfl rfl (keeps _ _ (by simp [hpushed]))
  | unlock j =>
    have hnotified : s.call j = .notified := hp
    exact early_congr rfl rfl (keeps _ _ (by simp [hnotified]))
  | destroy =>
    have hmem : i ∈ s.order := by
      rw [← h.order]
      exact List.mem_append_left _ hi
    exact early_destroy hmem hcall
  | thread =>
    obtain ⟨owner, thread, queue, file, overwritten, -, heq⟩ := s.processEntries_eq
    rw [handle, heq]
    exact early_congr rfl rfl rfl
  | openFails => exact early_congr rfl rfl rfl
  | wake => exact early_congr rfl rfl rfl

/-- Only to open the file anew overwrites what it holds. -/
theorem overwritten_step (hs : Step s e t) : t.overwritten = s.overwritten ∧ s.OpensEmpty e ∨
    (e = .thread ∧ s.thread = .openFile ∧ t.overwritten = s.overwritten ++ s.file) := by
  obtain ⟨hp, rfl⟩ := hs
  cases e with
  | notifyAll i =>
    obtain ⟨thread, heq⟩ := (s.setCall i .notified).notifyAll_eq
    rw [handle, heq]
    exact .inl ⟨rfl, trivial⟩
  | destroy =>
    refine .inl ⟨?_, trivial⟩
    cases hd : s.dtor <;> simp only [handle, destroy, hd]
    obtain ⟨thread, heq⟩ := notifyAll_eq { s with dtor := .notified }
    rw [heq]
  | thread =>
    by_cases hopens : s.thread = .openFile
    · exact .inr ⟨rfl, hopens, by simp [handle, processEntries, hopens]⟩
    · refine .inl ⟨?_, fun h => absurd h hopens⟩
      cases hw : s.thread <;> simp only [handle, processEntries, hw]
      case openFile => exact absurd hw hopens
      case entry => cases s.queue <;> rfl
      case last => split <;> rfl
  | _ => exact .inl ⟨rfl, trivial⟩

/-- Nothing early has been overwritten. -/
def KeepsEarly (s : State) : Prop := ∀ i ∈ s.overwritten, ¬ s.Early i

theorem keepsEarly_step_iff (h : Ordered s) (hw : WellFormed s) (hs : Step s e t) :
    KeepsEarly t ↔ KeepsEarly s ∧ OpensEmpty s e := by
  have hearly (i : Message) (hi : i ∈ s.overwritten ++ s.file) : t.Early i ↔ s.Early i :=
    early_step h hw hs hi
  simp only [List.mem_append] at hearly
  rcases overwritten_step hs with ⟨heq, hopens⟩ | ⟨rfl, hopens, heq⟩
  · rw [KeepsEarly, heq]
    constructor
    · exact fun hkeeps => ⟨fun i hi => (hearly i (.inl hi)).not.mp (hkeeps i hi), hopens⟩
    · rintro ⟨hkeeps, -⟩ i hi
      exact (hearly i (.inl hi)).not.mpr (hkeeps i hi)
  · rw [KeepsEarly, heq, List.forall_mem_append]
    constructor
    · rintro ⟨hkeeps, hfile⟩
      exact ⟨fun i hi => (hearly i (.inl hi)).not.mp (hkeeps i hi),
        fun _ i hi => (hearly i (.inr hi)).not.mp (hfile i hi)⟩
    · rintro ⟨hkeeps, hfile⟩
      exact ⟨fun i hi => (hearly i (.inl hi)).not.mpr (hkeeps i hi),
        fun i hi => (hearly i (.inr hi)).not.mpr (hfile hopens i hi)⟩

theorem filter_overwritten_iff (h : Ordered s) (hqueue : ∀ i ∈ s.queue, i ∉ s.early) :
    s.file.filter (· ∈ s.early) = s.order.filter (· ∈ s.early) ↔
      ∀ i ∈ s.overwritten, i ∉ s.early := by
  have hnone : s.queue.filter (· ∈ s.early) = [] := by simpa using hqueue
  rw [← h.order, List.filter_append, List.filter_append, hnone, List.append_nil,
    List.self_eq_append_left, List.filter_eq_nil_iff]
  simp

/-- When the destructor has returned, the file holds every message whose call had returned
before it was entered, once and in order, exactly when no opening of the file met such a
message in it. -/
theorem run_holdsEarly_iff (h : Run Step create tr s) (hopen : AllSteps Opens tr)
    (hreturned : s.dtor = .returned) : HoldsEarly s ↔ AllSteps OpensEmpty tr := by
  have hinv : ∀ s e t, (WellFormed s ∧ Ordered s) → Step s e t ∧ Opens s e →
      WellFormed t ∧ Ordered t :=
    fun _ _ _ hs hstep => ⟨hs.1.step hstep.1, hs.2.step hs.1 hstep.1 hstep.2⟩
  have hrun := h.restrict hopen
  obtain ⟨-, -, ho⟩ := hrun.invariant ⟨wellFormed_create, ordered_create⟩ hinv
  have hkeeps : KeepsEarly s ↔ AllSteps OpensEmpty tr :=
    hrun.final_iff ⟨wellFormed_create, ordered_create⟩ hinv (by simp [KeepsEarly, create])
      fun _ _ _ hs hstep => keepsEarly_step_iff hs.2 hs.1 hstep.1
  rw [← hkeeps, HoldsEarly, filter_overwritten_iff ho (ho.exited (ho.joined hreturned)).2]
  simp only [ho.nodup, true_and, KeepsEarly, Early, hreturned, reduceCtorEq, if_false]

instance (s : State) (i : Message) : Decidable (s.Early i) :=
  inferInstanceAs (Decidable (if s.dtor = .before then s.call i = .returned else i ∈ s.early))

instance : ∀ s e, Decidable (OpensEmpty s e)
  | s, .thread => inferInstanceAs (Decidable (_ → ∀ i ∈ s.file, ¬ s.Early i))
  | _, .lock | _, .push _ | _, .notifyAll _ | _, .unlock _ | _, .destroy | _, .openFails
  | _, .wake => .isTrue trivial

/-- The messages of both callers are written behind the raised flag, by the only wake-up. -/
theorem run_holdsEarly_oneWakeUp : (oneWakeUp.foldl handle create).file = [0, 1] ∧
    HoldsEarly (oneWakeUp.foldl handle create) := by
  have hrun := run_of_events oneWakeUp (by decide)
  exact ⟨by decide, (run_holdsEarly_iff hrun (by decide) (by decide)).mpr (by decide)⟩

/-- The thread waits, writes the one message and waits again; the destructor wakes it, and
it opens the file anew. -/
def twoWakeUps : List Event :=
  List.replicate 3 .thread ++ logs 0 ++ List.replicate 12 .thread ++ List.replicate 5 .destroy ++
    List.replicate 7 .thread ++ [.destroy]

theorem not_holdsEarly_twoWakeUps : ∃ tr s, Run Step create tr s ∧ AllSteps Opens tr ∧
    s.dtor = .returned ∧ s.early = [0] ∧ s.file = [] ∧ ¬ HoldsEarly s := by
  have hrun := run_of_events twoWakeUps (by decide)
  refine ⟨_, _, hrun, by decide, by decide, by decide, by decide, ?_⟩
  rintro ⟨-, hfile⟩
  exact absurd hfile (by decide)

end Vs17.Logger.State
