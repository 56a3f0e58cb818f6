import Vs17.Mylog.Writer

/-! # Shutting the background thread down

The drain loop tests the exit flag before every entry, so what is still queued when the
destructor raises the flag is lost. The flag is raised and the notification sent without
the mutex, so a thread that has just found the flag clear waits for a notification that
has gone by.
-/

namespace Vs17.Mylog.State

open Runs

variable {text : ℕ → Bytes} {s t : State} {e : Event} {tr : List (State × Event)}

section NoLoss

/-- The log file can be opened. -/
def Opens (_ : State) : Event → Prop
  | .openFails => False
  | _ => True

/-- The entries that stay queued once the flag is raised: all but one that the thread is
already about to take. -/
def undrained (s : State) : List Bytes :=
  if s.writer = .lockEntry ∨ s.writer = .entry then s.queue.tail else s.queue

/-- The flag is raised with nothing queued, or with one entry that is being taken. -/
def RaisesDrained (s : State) : Event → Prop
  | .exit => s.queue = [] ∨
      s.queue.length = 1 ∧ (s.writer = .lockEntry ∨ s.writer = .entry)
  | _ => True

theorem undrained_eq_nil_iff : s.undrained = [] ↔ s.RaisesDrained .exit := by
  unfold undrained RaisesDrained
  cases hq : s.queue with
  | nil => simp
  | cons front queue => split <;> simp [*]

/-- Behind the raised flag the thread takes one entry if it was about to, and no other. -/
theorem undrained_processEntries (hexit : s.exit = true) :
    s.processEntries.undrained = s.undrained := by
  cases hw : s.writer <;> simp only [processEntries, hw]
  case entry => cases hq : s.queue <;> simp [undrained, hw, hq]
  all_goals simp [undrained, hw, hexit]

theorem undrained_notify : s.notify.undrained = s.undrained := by
  unfold notify
  split
  · next hw => simp [undrained, hw]
  · rfl

theorem undrained_step (h : WellFormed s) (hexit : s.exit = true) (hs : Step text s e t)
    (hopen : s.Opens e) : t.exit = true ∧ t.undrained = s.undrained := by
  obtain ⟨hp, rfl⟩ := hs
  rcases h.closing (h.raised.mp hexit) hp with rfl | rfl | rfl | rfl | rfl
  · obtain ⟨writer, heq⟩ := s.notify_eq
    refine ⟨?_, undrained_notify⟩
    rw [handle, heq]
    exact hexit
  · exact ⟨hexit, rfl⟩
  · obtain ⟨owner, writer, queue, stream, -, heq⟩ := s.processEntries_eq
    refine ⟨?_, undrained_processEntries hexit⟩
    rw [handle, heq]
    exact hexit
  · exact hopen.elim
  · have hw : s.writer = .waiting := hp
    exact ⟨hexit, by simp [handle, undrained, hw]⟩

/-- What will stay queued is decided when the flag is raised. -/
theorem undrained_step_iff (h : WellFormed s) (hs : Step text s e t) (hopen : s.Opens e) :
    (t.exit = true → t.undrained = []) ↔
      (s.exit = true → s.undrained = []) ∧ s.RaisesDrained e := by
  cases hexit : s.exit with
  | true =>
    obtain ⟨hexit', hundrained⟩ := undrained_step h hexit hs hopen
    have hother : s.RaisesDrained e := by
      rcases h.closing (h.raised.mp hexit) hs.1 with rfl | rfl | rfl | rfl | rfl <;> trivial
    simp [hexit', hundrained, hother]
  | false =>
    by_cases he : e = .exit
    · obtain ⟨-, rfl⟩ := hs
      subst he
      have hundrained : (s.handle text .exit).undrained = s.undrained := rfl
      have hraised : (s.handle text .exit).exit = true := rfl
      simp [hundrained, hraised, undrained_eq_nil_iff]
    · have hother : s.RaisesDrained e := by cases e <;> trivial
      have hclear : t.exit = false := ((frame_step hs).1 he).trans hexit
      simp [hclear, hother]

theorem raisesDrained_iff (h : Run (Step text) create tr s) (hopen : AllSteps Opens tr) :
    (s.exit = true → s.undrained = []) ↔ AllSteps RaisesDrained tr :=
  (h.restrict hopen).final_iff wellFormed_create (fun _ _ _ hw hs => hw.step hs.1)
    (by simp [create]) (fun _ _ _ hw hs => undrained_step_iff hw hs.1 hs.2)

/-- When the destructor has returned, every entry has been written once and in order
exactly when the flag was raised with nothing queued but an entry being taken. -/
theorem run_written_iff (h : Run (Step text) create tr s) (hopen : AllSteps Opens tr)
    (hreturned : s.dtor = .returned) : s.stream = s.entries ↔ AllSteps RaisesDrained tr := by
  have hexit : s.exit = true := (wellFormed_of_run h).raised.mpr (by simp [hreturned])
  have hqueue : s.undrained = s.queue := by simp [undrained, (wellFormed_of_run h).joined hreturned]
  rw [← raisesDrained_iff h hopen, hqueue, ← (wellFormed_of_run h).queued,
    List.self_eq_append_right]
  exact ⟨fun hq _ => hq, fun hq => hq hexit⟩

instance : ∀ s e, Decidable (RaisesDrained s e)
  | _, .exit => inferInstanceAs (Decidable (_ = _ ∨ _ = _ ∧ (_ = _ ∨ _ = _)))
  | _, .format | _, .lock _ | _, .emplace _ | _, .unlock _ | _, .notifyOne _ | _, .notifyAll
  | _, .join | _, .writer | _, .openFails | _, .wake => .isTrue trivial

instance : ∀ s e, Decidable (Opens s e)
  | _, .openFails => .isFalse id
  | _, .format | _, .lock _ | _, .emplace _ | _, .unlock _ | _, .notifyOne _ | _, .exit
  | _, .notifyAll | _, .join | _, .writer | _, .wake => .isTrue trivial

/-- The steps of the first call of `log`. -/
def logOnce : List Event := [.format, .lock 0, .emplace 0, .unlock 0, .notifyOne 0]

/-- The text of the one call. -/
def hi (_ : ℕ) : Bytes := [104, 105]

/-- The call returns, the thread makes as many steps as given, and the destructor runs. -/
def shutdown (drains stops : ℕ) : List Event :=
  logOnce ++ List.replicate drains .writer ++ [.exit, .notifyAll] ++
    List.replicate stops .writer ++ [.join]

/-- The thread is back at the head of its loop when the flag is raised. -/
theorem run_written_drainedEntry : ∃ tr s, Run (Step hi) create tr s ∧
    s.entries = [[104, 105]] ∧ s.stream = s.entries := by
  have hfollows : Follows Pending (handle hi) create (shutdown 14 7) := by decide +kernel
  have hrun := run_of_events _ hfollows
  refine ⟨_, _, hrun, by decide +kernel, ?_⟩
  apply (run_written_iff hrun ?_ ?_).mpr
  all_goals decide +kernel

/-- The flag is raised before the thread has begun to drain: the entry is lost. -/
theorem not_written_undrainedEntry : ∃ tr s, Run (Step hi) create tr s ∧ AllSteps Opens tr ∧
    s.dtor = .returned ∧ s.entries = [[104, 105]] ∧ s.stream = [] := by
  have hfollows : Follows Pending (handle hi) create (shutdown 0 7) := by decide +kernel
  refine ⟨_, _, run_of_events _ hfollows, ?_⟩
  decide +kernel

end NoLoss

section WakeUp

/-- The destructor has sent its notification, and the thread is blocked in the wait. -/
def Stuck (s : State) : Prop := s.dtor = .notified ∧ s.writer = .waiting

/-- The notification is not sent while the thread has found the flag clear and is about to
wait. -/
def NotifiesAwake (s : State) : Event → Prop
  | .notifyAll => s.writer ≠ .wait
  | _ => True

/-- Behind the notification the thread neither waits nor is about to. -/
def PastWait (s : State) : Prop :=
  s.dtor = .notified ∨ s.dtor = .returned → s.writer ≠ .wait ∧ s.writer ≠ .waiting

/-- A bound on the steps the thread has left once the flag is raised. -/
def WriterPc.left : WriterPc → ℕ
  | .lockQueue => 12
  | .test | .woken | .wait | .waiting => 11
  | .unlockQueue => 10
  | .openFile => 9
  | .lockEntry => 8
  | .entry => 7
  | .unlockEntry | .leave => 6
  | .loop => 5
  | .closeFile => 4
  | .last => 3
  | .exited => 2

theorem PastWait.not_stuck (h : PastWait s) : ¬ Stuck s := by
  rintro ⟨hd, hw⟩
  exact (h (.inl hd)).2 hw

/-- Behind the raised flag the thread does not come back to the wait, and gets nearer to
its end. -/
theorem processEntries_left (hexit : s.exit = true) (hwait : s.writer ≠ .wait)
    (hwaiting : s.writer ≠ .waiting) (hexited : s.writer ≠ .exited) :
    s.processEntries.writer ≠ .wait ∧ s.processEntries.writer ≠ .waiting ∧
      WriterPc.left s.processEntries.writer < WriterPc.left s.writer := by
  cases hw : s.writer <;> simp only [processEntries, hw]
  case wait => exact absurd hw hwait
  case waiting => exact absurd hw hwaiting
  case exited => exact absurd hw hexited
  case entry => cases s.queue <;> simp [WriterPc.left]
  all_goals simp [hexit, WriterPc.left]

theorem pastWait_step_iff (h : WellFormed s) (hpast : PastWait s) (hs : Step text s e t) :
    PastWait t ↔ NotifiesAwake s e := by
  by_cases hd : s.dtor = .before
  · have hnotify : e ≠ .notifyAll := by
      rintro rfl
      cases hd.symm.trans hs.1
    have hjoin : e ≠ .join := by
      rintro rfl
      cases hd.symm.trans hs.1.1
    refine iff_of_true (fun ht => ?_) (by cases e <;> trivial)
    by_cases hexit : e = .exit
    · obtain ⟨-, rfl⟩ := hs
      simp [hexit, handle] at ht
    · simp [(frame_step hs).2.1 hexit hnotify hjoin, hd] at ht
  · have hexit : s.exit = true := h.raised.mpr hd
    obtain ⟨hp, rfl⟩ := hs
    rcases h.closing hd hp with rfl | rfl | rfl | rfl | rfl
    · by_cases hw : s.writer = .waiting
      · simp [PastWait, NotifiesAwake, handle, notify, hw]
      · simp [PastWait, NotifiesAwake, handle, notify, hw]
    · exact iff_of_true (fun _ => hpast (.inl hp.1)) trivial
    · refine iff_of_true (fun ht => ?_) trivial
      have hdtor : (s.handle text .writer).dtor = s.dtor := s.dtor_processEntries
      obtain ⟨hwait, hwaiting⟩ := hpast (hdtor ▸ ht)
      have hleft := processEntries_left hexit hwait hwaiting hp.2.2
      exact ⟨hleft.1, hleft.2.1⟩
    · exact iff_of_true (fun _ => by simp [handle]) trivial
    · exact iff_of_true (fun _ => by simp [handle]) trivial

/-- With the notification sent and the thread past the wait, the destructor returns
whatever the threads do. -/
theorem inevitable_returned (h : WellFormed s) (hd : s.dtor = .notified) (hpast : PastWait s) :
    Inevitable (Step text) (fun t => t.dtor = .returned) s := by
  refine Inevitable.of_rank (I := fun s => WellFormed s ∧
      (s.dtor = .notified ∨ s.dtor = .returned) ∧ PastWait s)
    (fun s => WriterPc.left s.writer + if s.dtor = .notified then 1 else 0) ?_ ?_
    ⟨h, .inl hd, hpast⟩
  · rintro s ⟨h, hd, hpast⟩ hnot
    obtain ⟨-, hwaiting⟩ := hpast hd
    by_cases hexited : s.writer = .exited
    · exact ⟨.join, _, ⟨hd.resolve_right hnot, hexited⟩, rfl⟩
    · refine ⟨.writer, _, ⟨fun hw => h.guards.free ?_, hwaiting, hexited⟩, rfl⟩
      -- nobody else is left to hold the mutex
      rintro (- | i)
      · rcases hw with hw | hw | hw <;> simp [Inside, WriterHolds, hw]
      · have hcall := h.closed (by rcases hd with hd | hd <;> simp [hd]) i
        rcases hcall with hcall | hcall <;> simp [Inside, hcall]
  · rintro s e t ⟨h, hd, hpast⟩ hnot hs
    have hd : s.dtor = .notified := hd.resolve_right hnot
    obtain ⟨hwait, hwaiting⟩ := hpast (.inl hd)
    have hexit : s.exit = true := h.raised.mpr (by simp [hd])
    have ht := h.step hs
    obtain ⟨hp, rfl⟩ := hs
    rcases h.closing (by simp [hd]) hp with rfl | rfl | rfl | rfl | rfl
    · cases hd.symm.trans hp
    · exact ⟨⟨ht, .inr rfl, fun _ => hpast (.inl hd)⟩, by simp [handle, hd]⟩
    · have hleft := processEntries_left hexit hwait hwaiting hp.2.2
      have hdtor : s.processEntries.dtor = .notified := s.dtor_processEntries.trans hd
      refine ⟨⟨ht, .inl hdtor, fun _ => ⟨hleft.1, hleft.2.1⟩⟩, ?_⟩
      simpa [handle, hdtor, hd] using hleft.2.2
    · have hw : s.writer = .openFile := hp
      refine ⟨⟨ht, .inl hd, fun _ => by simp [handle]⟩, ?_⟩
      simp [handle, hw, hd, WriterPc.left]
    · exact absurd hp hwaiting

/-- The destructor never waits for a thread that waits, and returns once it has sent its
notification, when the thread is not about to wait at that moment; and when it is, its
next statement blocks it for good. -/
theorem run_notStuck_iff (h : Run (Step text) create tr s) :
    (AllSteps NotifiesAwake tr → Throughout (fun s => ¬ Stuck s) tr s ∧
      (s.dtor = .notified → Inevitable (Step text) (fun t => t.dtor = .returned) s)) ∧
    ∀ x ∈ tr, ¬ NotifiesAwake x.1 x.2 →
      ∃ t, Step text (x.1.handle text x.2) .writer t ∧ Stuck t := by
  constructor
  · intro hawake
    have hpast : Throughout PastWait tr s :=
      (h.throughout_iff wellFormed_create (fun _ _ _ hw hs => hw.step hs)
        (by simp [PastWait, create]) (fun _ _ _ hw hp hs => pastWait_step_iff hw hp hs)).mpr hawake
    exact ⟨hpast.imp fun _ hp => hp.not_stuck,
      fun hd => inevitable_returned (wellFormed_of_run h) hd hpast.2⟩
  · rintro ⟨s, e⟩ - hwait
    cases e with
    | notifyAll =>
      have hw : s.writer = .wait := not_not.mp hwait
      exact ⟨_, ⟨by simp [Pending, handle, notify, hw], rfl⟩,
        by simp [Stuck, handle, processEntries, notify, hw]⟩
    | _ => exact absurd trivial hwait

instance : ∀ s e, Decidable (NotifiesAwake s e)
  | _, .notifyAll => inferInstanceAs (Decidable (_ ≠ _))
  | _, .format | _, .lock _ | _, .emplace _ | _, .unlock _ | _, .notifyOne _ | _, .exit
  | _, .join | _, .writer | _, .openFails | _, .wake => .isTrue trivial

/-- The destructor runs while the thread is blocked in the wait: it is woken, and the
destructor returns. -/
def wakeUp : List Event := List.replicate 3 .writer ++ [.exit, .notifyAll]

theorem run_notStuck_wakeUp :
    Inevitable (Step hi) (fun t => t.dtor = .returned) (wakeUp.foldl (handle hi) create) := by
  have hfollows : Follows Pending (handle hi) create wakeUp := by decide +kernel
  exact ((run_notStuck_iff (run_of_events _ hfollows)).1 (by decide +kernel)).2 (by decide +kernel)

/-- The thread has found the flag clear and the queue empty when the destructor raises the
flag and notifies nobody. -/
def lostWakeUp : List Event := List.replicate 2 .writer ++ [.exit, .notifyAll, .writer]

theorem stuck_lostWakeUp : ∃ tr s, Run (Step hi) create tr s ∧ Stuck s := by
  have hfollows : Follows Pending (handle hi) create lostWakeUp := by decide +kernel
  refine ⟨_, _, run_of_events _ hfollows, ?_⟩
  unfold Stuck
  decide +kernel

end WakeUp

end Vs17.Mylog.State
