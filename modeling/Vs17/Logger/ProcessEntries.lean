import Vs17.Library.Mutex
import Vs17.Library.Runs
import Mathlib.Logic.Function.Basic

/-! # The background thread of Logger

`Logger::log` pushes its message and notifies the background thread while it holds the
mutex. `processEntries` gives the mutex back for the work on the file, takes it again for
every entry, and holds it from the end of the drain loop to the next wait. The destructor
raises the exit flag and notifies under the mutex, and joins the thread.
-/

namespace Vs17.Logger

open Runs Mutex

/-- A message, named by the number of the call of `log` that pushes it. Calls are numbered
in the order in which they take the mutex. -/
abbrev Message := ℕ

/-- The threads that take `mMutex`. -/
inductive Thread
  | processEntries
  | dtor
  | log (i : Message)
  deriving DecidableEq, Repr

/-- The next statement of a call of `log`. It gives the mutex back when it returns. -/
inductive LogPc
  | idle
  | locked
  | pushed
  | notified
  | returned
  deriving DecidableEq, Repr

/-- The next statement of `processEntries`. -/
inductive ThreadPc
  | start -- `unique_lock lock`
  | test -- `if (!mExit)`
  | wait -- `mCondVar.wait(lock)`, not yet called
  | waiting -- blocked in the call
  | woken -- notified, about to take the mutex again
  | unlock
  | openFile
  | lockEntry
  | entry -- the test of the queue and the branch that writes the front message
  | unlockEntry
  | closeFile -- behind `break`, which keeps the lock
  | last -- `if (mExit) break`
  | exited
  deriving DecidableEq, Repr

/-- The next statement of the destructor, once it is entered. -/
inductive DtorPc
  | before
  | entered
  | locked
  | raised
  | notified
  | joining
  | returned
  deriving DecidableEq, Repr

/-- A `Logger` object and the threads at work on it. The last four fields are history: how
many calls have taken the mutex, which have pushed, which had returned when the destructor
was entered, and the messages in the file when it was opened anew. -/
structure State where
  exit : Bool
  owner : Option Thread
  queue : List Message
  file : List Message
  thread : ThreadPc
  dtor : DtorPc
  call : Message → LogPc
  started : ℕ
  order : List Message
  early : List Message
  overwritten : List Message

/-- The constructor, which launches the thread. -/
def create : State :=
  ⟨false, none, [], [], .start, .before, fun _ => .idle, 0, [], [], []⟩

namespace State

def setCall (s : State) (i : Message) (pc : LogPc) : State :=
  { s with call := Function.update s.call i pc }

/-- A notification reaches the thread only while it is blocked in the wait. -/
def notifyAll (s : State) : State :=
  if s.thread = .waiting then { s with thread := .woken } else s

/-- The next statement of `processEntries`. To open the file empties it. -/
def processEntries (s : State) : State :=
  match s.thread with
  | .start => { s with owner := some .processEntries, thread := .test }
  | .test => { s with thread := if s.exit then .unlock else .wait }
  | .wait => { s with owner := none, thread := .waiting }
  | .waiting => s
  | .woken => { s with owner := some .processEntries, thread := .unlock }
  | .unlock => { s with owner := none, thread := .openFile }
  | .openFile =>
    { s with overwritten := s.overwritten ++ s.file, file := [], thread := .lockEntry }
  | .lockEntry => { s with owner := some .processEntries, thread := .entry }
  | .entry =>
    match s.queue with
    | [] => { s with thread := .closeFile }
    | front :: queue => { s with file := s.file ++ [front], queue := queue, thread := .unlockEntry }
  | .unlockEntry => { s with owner := none, thread := .lockEntry }
  | .closeFile => { s with thread := .last }
  | .last =>
    if s.exit then { s with owner := none, thread := .exited } else { s with thread := .test }
  | .exited => s

/-- The next statement of the destructor. -/
def destroy (s : State) : State :=
  match s.dtor with
  | .before =>
    { s with early := s.order.filter fun i => s.call i = .returned, dtor := .entered }
  | .entered => { s with owner := some .dtor, dtor := .locked }
  | .locked => { s with exit := true, dtor := .raised }
  | .raised => { s with dtor := .notified }.notifyAll
  | .notified => { s with owner := none, dtor := .joining }
  | .joining => { s with dtor := .returned }
  | .returned => s

inductive Event
  | lock
  | push (i : Message)
  | notifyAll (i : Message)
  | unlock (i : Message)
  | destroy
  | thread
  | openFails
  | wake -- a spurious wake-up
  deriving DecidableEq, Repr

def Pending (s : State) : Event → Prop
  | .lock => s.owner = none ∧ s.dtor ≠ .returned
  | .push i => s.call i = .locked
  | .notifyAll i => s.call i = .pushed
  | .unlock i => s.call i = .notified
  | .destroy => (s.dtor = .entered → s.owner = none) ∧
      (s.dtor = .joining → s.thread = .exited) ∧ s.dtor ≠ .returned
  | .thread =>
    (s.thread = .start ∨ s.thread = .woken ∨ s.thread = .lockEntry → s.owner = none) ∧
      s.thread ≠ .waiting ∧ s.thread ≠ .exited
  | .openFails => s.thread = .openFile
  | .wake => s.thread = .waiting

instance : ∀ s e, Decidable (Pending s e)
  | _, .lock => inferInstanceAs (Decidable (_ = _ ∧ _ ≠ _))
  | _, .push _ | _, .notifyAll _ | _, .unlock _ => inferInstanceAs (Decidable (_ = _))
  | _, .destroy => inferInstanceAs (Decidable ((_ = _ → _) ∧ (_ = _ → _) ∧ _ ≠ _))
  | _, .thread => inferInstanceAs (Decidable ((_ → _) ∧ _ ≠ _ ∧ _ ≠ _))
  | _, .openFails | _, .wake => inferInstanceAs (Decidable (_ = _))

def handle (s : State) : Event → State
  | .lock =>
    { s.setCall s.started .locked with owner := some (.log s.started), started := s.started + 1 }
  | .push i =>
    { s.setCall i .pushed with queue := s.queue ++ [i], order := s.order ++ [i] }
  | .notifyAll i => (s.setCall i .notified).notifyAll
  | .unlock i => { s.setCall i .returned with owner := none }
  | .destroy => s.destroy
  | .thread => s.processEntries
  | .openFails => { s with thread := .exited }
  | .wake => { s with thread := .woken }

/-- One statement of one thread. -/
def Step (s : State) (e : Event) (t : State) : Prop := s.Pending e ∧ t = s.handle e

/-- The file can be opened. -/
def Opens (_ : State) : Event → Prop
  | .openFails => False
  | _ => True

/-- The background thread holds `lock`. -/
def ThreadHolds (s : State) : Prop :=
  s.thread = .test ∨ s.thread = .wait ∨ s.thread = .unlock ∨ s.thread = .entry ∨
    s.thread = .unlockEntry ∨ s.thread = .closeFile ∨ s.thread = .last

/-- The thread is between taking the mutex and giving it back. -/
def Inside (s : State) : Thread → Prop
  | .processEntries => s.ThreadHolds
  | .dtor => s.dtor = .locked ∨ s.dtor = .raised ∨ s.dtor = .notified
  | .log i => s.call i = .locked ∨ s.call i = .pushed ∨ s.call i = .notified

/-- What the object keeps while its threads run. -/
structure WellFormed (s : State) : Prop where
  guards : Guards s.owner s.Inside
  raised : s.exit = true ↔
    s.dtor = .raised ∨ s.dtor = .notified ∨ s.dtor = .joining ∨ s.dtor = .returned
  past_wait : s.exit = true → s.thread ≠ .wait
  past_waiting : s.dtor = .notified ∨ s.dtor = .joining ∨ s.dtor = .returned →
    s.thread ≠ .waiting
  drained : s.thread = .closeFile ∨ s.thread = .last → s.queue = []
  idle : ∀ i, s.started ≤ i → s.call i = .idle

variable {s t : State} {e : Event} {i : Message}

theorem wellFormed_create : WellFormed create where
  guards := by rintro (- | - | i) <;> simp [Inside, ThreadHolds, create]
  raised := by simp [create]
  past_wait := by simp [create]
  past_waiting := by simp [create]
  drained := by simp [create]
  idle := fun _ _ => rfl

@[simp] theorem call_setCall (s : State) (i j : Message) (pc : LogPc) :
    (s.setCall i pc).call j = if j = i then pc else s.call j :=
  Function.update_apply ..

/-- The thread moves messages from the queue to the file and takes and gives the mutex;
all the rest it leaves alone. -/
theorem processEntries_eq (s : State) : ∃ owner thread queue file overwritten,
    overwritten ++ file ++ queue = s.overwritten ++ s.file ++ s.queue ∧
      s.processEntries = { s with
        owner := owner, thread := thread, queue := queue, file := file,
        overwritten := overwritten } := by
  unfold processEntries
  split
  case h_7 => exact ⟨_, _, _, _, _, by simp, rfl⟩
  case h_9 =>
    split
    · exact ⟨_, _, _, _, _, rfl, rfl⟩
    · next hq => exact ⟨_, _, _, _, _, by simp [hq], rfl⟩
  case h_12 => split <;> exact ⟨_, _, _, _, _, rfl, rfl⟩
  all_goals exact ⟨_, _, _, _, _, rfl, rfl⟩

theorem notifyAll_eq (s : State) : ∃ thread, s.notifyAll = { s with thread := thread } := by
  unfold notifyAll
  split
  · exact ⟨_, rfl⟩
  · exact ⟨s.thread, rfl⟩

/-- A notified thread still waits for the mutex. -/
theorem inside_notifyAll (u : Thread) : s.notifyAll.Inside u ↔ s.Inside u := by
  unfold notifyAll
  split
  · next hw => cases u <;> simp [Inside, ThreadHolds, hw]
  · rfl

theorem owner_notifyAll : s.notifyAll.owner = s.owner := by
  obtain ⟨_, h⟩ := s.notifyAll_eq
  rw [h]

/-- What a call of `log` does leaves the other threads where they are. -/
theorem inside_of_call (s : State) (i : Message) (pc : LogPc) (hthread : t.thread = s.thread)
    (hdtor : t.dtor = s.dtor) (hcall : t.call = (s.setCall i pc).call) (u : Thread)
    (hu : u ≠ .log i) : t.Inside u ↔ s.Inside u := by
  cases u with
  | processEntries => simp only [Inside, ThreadHolds, hthread]
  | dtor => simp only [Inside, hdtor]
  | log j =>
    have hj : j ≠ i := fun hj => hu (congrArg Thread.log hj)
    simp [Inside, hcall, hj]

theorem inside_of_thread (s : State) (hdtor : t.dtor = s.dtor) (hcall : t.call = s.call)
    (u : Thread) (hu : u ≠ .processEntries) : t.Inside u ↔ s.Inside u := by
  cases u with
  | processEntries => exact absurd rfl hu
  | dtor => simp only [Inside, hdtor]
  | log j => simp only [Inside, hcall]

theorem inside_of_dtor (s : State) (hthread : t.thread = s.thread) (hcall : t.call = s.call)
    (u : Thread) (hu : u ≠ .dtor) : t.Inside u ↔ s.Inside u := by
  cases u with
  | processEntries => simp only [Inside, ThreadHolds, hthread]
  | dtor => exact absurd rfl hu
  | log j => simp only [Inside, hcall]

theorem guards_processEntries (h : Guards s.owner s.Inside) (hp : s.Pending .thread) :
    Guards s.processEntries.owner s.processEntries.Inside := by
  -- each statement takes the mutex, gives it back, or moves on with or without it
  have take {t : State} (hfree : s.owner = none) (hd : t.dtor = s.dtor) (hc : t.call = s.call)
      (hw : t.ThreadHolds) : Guards (some Thread.processEntries) t.Inside :=
    h.acquire (inside_of_thread s hd hc) hfree hw
  have give {t : State} (hin : s.ThreadHolds) (hd : t.dtor = s.dtor) (hc : t.call = s.call)
      (hw : ¬ t.ThreadHolds) : Guards none t.Inside :=
    h.release (inside_of_thread s hd hc) hin hw
  have move {t : State} (hd : t.dtor = s.dtor) (hc : t.call = s.call)
      (hw : t.ThreadHolds ↔ s.ThreadHolds) : Guards s.owner t.Inside :=
    h.move (inside_of_thread s hd hc) hw
  cases hw : s.thread <;> simp only [processEntries, hw]
  case start => exact take (hp.1 (.inl hw)) rfl rfl (by simp [ThreadHolds])
  case test => exact move rfl rfl (by split <;> simp [ThreadHolds, hw])
  case wait => exact give (by simp [ThreadHolds, hw]) rfl rfl (by simp [ThreadHolds])
  case waiting => exact absurd hw hp.2.1
  case woken => exact take (hp.1 (.inr (.inl hw))) rfl rfl (by simp [ThreadHolds])
  case unlock => exact give (by simp [ThreadHolds, hw]) rfl rfl (by simp [ThreadHolds])
  case openFile => exact move rfl rfl (by simp [ThreadHolds, hw])
  case lockEntry => exact take (hp.1 (.inr (.inr hw))) rfl rfl (by simp [ThreadHolds])
  case entry =>
    split
    · exact move rfl rfl (by simp [ThreadHolds, hw])
    · exact move rfl rfl (by simp [ThreadHolds, hw])
  case unlockEntry => exact give (by simp [ThreadHolds, hw]) rfl rfl (by simp [ThreadHolds])
  case closeFile => exact move rfl rfl (by simp [ThreadHolds, hw])
  case last =>
    split
    · exact give (by simp [ThreadHolds, hw]) rfl rfl (by simp [ThreadHolds])
    · exact move rfl rfl (by simp [ThreadHolds, hw])
  case exited => exact absurd hw hp.2.2

theorem guards_destroy (h : Guards s.owner s.Inside) (hp : s.Pending .destroy) :
    Guards s.destroy.owner s.destroy.Inside := by
  cases hd : s.dtor <;> simp only [destroy, hd]
  case before => exact h.move (inside_of_dtor s rfl rfl) (by simp [Inside, hd])
  case entered => exact h.acquire (inside_of_dtor s rfl rfl) (hp.1 hd) (by simp [Inside])
  case locked => exact h.move (inside_of_dtor s rfl rfl) (by simp [Inside, hd])
  case raised =>
    rw [owner_notifyAll]
    have hmoved : Guards s.owner { s with dtor := .notified }.Inside :=
      h.move (inside_of_dtor s rfl rfl) (by simp [Inside, hd])
    exact hmoved.congr inside_notifyAll
  case notified => exact h.release (inside_of_dtor s rfl rfl) (.inr (.inr hd)) (by simp [Inside])
  case joining => exact h.move (inside_of_dtor s rfl rfl) (by simp [Inside, hd])
  case returned => exact h

theorem WellFormed.guards_handle (hw : WellFormed s) (hp : s.Pending e) :
    Guards (s.handle e).owner (s.handle e).Inside := by
  have h := hw.guards
  cases e with
  | lock =>
    refine h.acquire (inside_of_call s s.started .locked rfl rfl rfl) hp.1 ?_
    simp [Inside, handle]
  | push i =>
    have hcall : s.call i = .locked := hp
    refine h.move (inside_of_call s i .pushed rfl rfl rfl) ?_
    simp [Inside, handle, hcall]
  | notifyAll i =>
    have hcall : s.call i = .pushed := hp
    have hmoved : Guards s.owner (s.setCall i .notified).Inside := by
      refine h.move (inside_of_call s i .notified rfl rfl rfl) ?_
      simp [Inside, hcall]
    rw [handle, owner_notifyAll]
    exact hmoved.congr inside_notifyAll
  | unlock i =>
    have hcall : s.call i = .notified := hp
    refine h.release (inside_of_call s i .returned rfl rfl rfl) (.inr (.inr hcall)) ?_
    simp [Inside, handle]
  | destroy => exact guards_destroy h hp
  | thread => exact guards_processEntries h hp
  | openFails =>
    have hthread : s.thread = .openFile := hp
    exact h.move (inside_of_thread s rfl rfl) (by simp [Inside, ThreadHolds, handle, hthread])
  | wake =>
    have hthread : s.thread = .waiting := hp
    exact h.move (inside_of_thread s rfl rfl) (by simp [Inside, ThreadHolds, handle, hthread])

theorem processEntries_ne_wait (hexit : s.exit = true) (hwait : s.thread ≠ .wait) :
    s.processEntries.thread ≠ .wait := by
  cases hw : s.thread <;> simp only [processEntries, hw]
  case wait => exact absurd hw hwait
  case entry => cases s.queue <;> simp
  all_goals simp [hexit]

theorem processEntries_ne_waiting (hwait : s.thread ≠ .wait) (hwaiting : s.thread ≠ .waiting) :
    s.processEntries.thread ≠ .waiting := by
  cases hw : s.thread <;> simp only [processEntries, hw]
  case wait => exact absurd hw hwait
  case waiting => exact absurd hw hwaiting
  case test => split <;> simp
  case entry => cases s.queue <;> simp
  case last => split <;> simp
  all_goals simp

/-- The thread leaves the drain loop when it finds the queue empty, and not otherwise. -/
theorem processEntries_drained (h : s.thread = .closeFile ∨ s.thread = .last → s.queue = []) :
    s.processEntries.thread = .closeFile ∨ s.processEntries.thread = .last →
      s.processEntries.queue = [] := by
  cases hw : s.thread <;> simp only [processEntries, hw]
  case test => split <;> simp
  case entry => cases s.queue <;> simp
  case closeFile => exact fun _ => h (.inl hw)
  case last => split <;> simp
  all_goals simp

/-- A call and the thread are not both inside. -/
theorem WellFormed.not_threadHolds (h : WellFormed s) {u : Thread} (hu : s.Inside u)
    (hne : u ≠ .processEntries) : ¬ s.ThreadHolds :=
  fun hholds => hne (h.guards.unique hu hholds)

theorem WellFormed.step_destroy (h : WellFormed s) (hp : s.Pending .destroy) :
    WellFormed (s.handle .destroy) := by
  have hguards : Guards (s.handle .destroy).owner (s.handle .destroy).Inside := h.guards_handle hp
  have hraised := h.raised
  rw [handle] at hguards ⊢
  cases hd : s.dtor <;> simp only [destroy, hd] at hguards hraised ⊢
  case before =>
    exact ⟨hguards, by simpa using hraised, h.past_wait, by simp, h.drained, h.idle⟩
  case entered =>
    exact ⟨hguards, by simpa using hraised, h.past_wait, by simp, h.drained, h.idle⟩
  case locked =>
    refine ⟨hguards, by simp, fun _ hwait => ?_, by simp, h.drained, h.idle⟩
    -- the thread does not hold the mutex, so it is not about to wait
    exact h.not_threadHolds (u := .dtor) (.inl hd) (by simp) (.inr (.inl hwait))
  case raised =>
    have hexit : s.exit = true := hraised.mpr (by simp)
    have hwait := h.past_wait hexit
    unfold notifyAll at hguards ⊢
    split at hguards
    · next hw =>
      rw [if_pos hw]
      exact ⟨hguards, by simpa using hraised, by simp, by simp, by simp, h.idle⟩
    · next hw =>
      rw [if_neg hw]
      exact ⟨hguards, by simpa using hraised, fun _ => hwait, fun _ => hw, h.drained, h.idle⟩
  case notified =>
    exact ⟨hguards, by simpa using hraised, h.past_wait, fun _ => h.past_waiting (.inl hd),
      h.drained, h.idle⟩
  case joining =>
    exact ⟨hguards, by simpa using hraised, h.past_wait,
      fun _ => h.past_waiting (.inr (.inl hd)), h.drained, h.idle⟩
  case returned => exact h

theorem WellFormed.step (h : WellFormed s) (hs : Step s e t) : WellFormed t := by
  obtain ⟨hp, rfl⟩ := hs
  have hguards : Guards (s.handle e).owner (s.handle e).Inside := h.guards_handle hp
  -- a call under way has begun
  have idle (i : Message) (pc : LogPc) (hpc : s.call i ≠ .idle) :
      ∀ j, s.started ≤ j → (s.setCall i pc).call j = .idle := by
    intro j hj
    have hne : j ≠ i := by
      rintro rfl
      exact hpc (h.idle j hj)
    simp [hne, h.idle j hj]
  cases e with
  | lock =>
    refine ⟨hguards, h.raised, h.past_wait, h.past_waiting, h.drained, fun j hj => ?_⟩
    have hne : j ≠ s.started := Nat.ne_of_gt hj
    simp [handle, hne, h.idle j (Nat.le_of_lt hj)]
  | push i =>
    have hcall : s.call i = .locked := hp
    have hholds : ¬ s.ThreadHolds := h.not_threadHolds (u := .log i) (.inl hcall) (by simp)
    refine ⟨hguards, h.raised, h.past_wait, h.past_waiting, ?_, idle i .pushed (by simp [hcall])⟩
    rintro (hw | hw)
    · exact absurd (by simp [ThreadHolds, show s.thread = .closeFile from hw]) hholds
    · exact absurd (by simp [ThreadHolds, show s.thread = .last from hw]) hholds
  | notifyAll i =>
    have hcall : s.call i = .pushed := hp
    have hidle := idle i .notified (by simp [hcall])
    rw [handle] at hguards ⊢
    unfold notifyAll at hguards ⊢
    split at hguards
    · next hw =>
      rw [if_pos hw]
      exact ⟨hguards, h.raised, by simp, by simp, by simp, hidle⟩
    · next hw =>
      rw [if_neg hw]
      exact ⟨hguards, h.raised, h.past_wait, h.past_waiting, h.drained, hidle⟩
  | unlock i =>
    have hcall : s.call i = .notified := hp
    exact ⟨hguards, h.raised, h.past_wait, h.past_waiting, h.drained,
      idle i .returned (by simp [hcall])⟩
  | destroy => exact h.step_destroy hp
  | thread =>
    have hwait := @processEntries_ne_wait s
    have hwaiting := @processEntries_ne_waiting s
    have hdrained := processEntries_drained h.drained
    obtain ⟨owner, thread, queue, file, overwritten, -, heq⟩ := s.processEntries_eq
    rw [heq] at hwait hwaiting hdrained
    rw [handle, heq] at hguards ⊢
    refine ⟨hguards, h.raised, fun hexit => hwait hexit (h.past_wait hexit), fun hd => ?_,
      hdrained, h.idle⟩
    exact hwaiting (h.past_wait (h.raised.mpr (.inr hd))) (h.past_waiting hd)
  | openFails => exact ⟨hguards, h.raised, by rintro - ⟨⟩, by rintro - ⟨⟩, by simp [handle], h.idle⟩
  | wake => exact ⟨hguards, h.raised, by rintro - ⟨⟩, by rintro - ⟨⟩, by simp [handle], h.idle⟩

theorem wellFormed_of_run {tr : List (State × Event)} (h : Run Step create tr s) :
    Throughout WellFormed tr s :=
  h.invariant wellFormed_create fun _ _ _ hw hs => hw.step hs

/-- The destructor is blocked in the join, and the thread in the wait or on a mutex that it
holds itself. -/
def Deadlocked (s : State) : Prop :=
  s.dtor = .joining ∧ (s.thread = .waiting ∨
    (s.thread = .start ∨ s.thread = .woken ∨ s.thread = .lockEntry) ∧
      s.owner = some .processEntries)

/-- A thread that exits in this step leaves the queue empty. -/
def ExitsDrained (s : State) (e : Event) : Prop :=
  s.thread ≠ .exited → (s.handle e).thread = .exited → (s.handle e).queue = []

theorem WellFormed.not_deadlocked (h : WellFormed s) : ¬ Deadlocked s := by
  rintro ⟨hd, hw | ⟨hw, howner⟩⟩
  · exact h.past_waiting (.inr (.inl hd)) hw
  · have hholds : s.ThreadHolds := (h.guards .processEntries).mp howner
    rcases hw with hw | hw | hw <;> simp [ThreadHolds, hw] at hholds

theorem thread_notifyAll (s : State) :
    s.notifyAll.thread = s.thread ∨ s.notifyAll.thread = .woken := by
  unfold notifyAll
  split
  · exact .inr rfl
  · exact .inl rfl

/-- The destructor does not end the thread. -/
theorem thread_destroy (s : State) : s.destroy.thread = s.thread ∨ s.destroy.thread = .woken := by
  unfold destroy
  split
  case h_4 => exact thread_notifyAll _
  all_goals exact .inl rfl

/-- The thread exits behind the drain loop. -/
theorem processEntries_exited (hrunning : s.thread ≠ .exited)
    (hexited : s.processEntries.thread = .exited) :
    s.thread = .last ∧ s.exit = true ∧ s.processEntries.queue = s.queue := by
  cases hw : s.thread <;> simp only [processEntries, hw] at hexited ⊢
  case last =>
    split at hexited
    · next hexit => exact ⟨trivial, hexit, by simp [hexit]⟩
    · cases hexited
  case exited => exact absurd hw hrunning
  case test => split at hexited <;> cases hexited
  case entry => cases hq : s.queue <;> simp [hq] at hexited
  all_goals cases hexited

theorem WellFormed.exitsDrained (h : WellFormed s) (hopen : s.Opens e) : ExitsDrained s e := by
  intro hrunning hexited
  cases e with
  | notifyAll i =>
    rcases thread_notifyAll (s.setCall i .notified) with heq | heq
    · exact absurd (heq.symm.trans hexited) hrunning
    · cases heq.symm.trans hexited
  | destroy =>
    rcases s.thread_destroy with heq | heq
    · exact absurd (heq.symm.trans hexited) hrunning
    · cases heq.symm.trans hexited
  | thread =>
    obtain ⟨hlast, -, hqueue⟩ := processEntries_exited hrunning hexited
    exact hqueue.trans (h.drained (.inr hlast))
  | openFails => exact hopen.elim
  | wake => cases hexited
  | _ => exact absurd hexited hrunning

/-- The shutdown handshake: in no state of a run is the destructor blocked in the join with
the thread blocked in the wait or on its own mutex, and the thread exits with the queue
empty. -/
theorem run_not_deadlocked {tr : List (State × Event)} (h : Run Step create tr s)
    (hopen : AllSteps Opens tr) :
    Throughout (fun s => ¬ Deadlocked s) tr s ∧ AllSteps ExitsDrained tr := by
  have hwell := wellFormed_of_run h
  exact ⟨hwell.imp fun _ hw => hw.not_deadlocked,
    fun x hx => (hwell.1 x hx).exitsDrained (hopen x hx)⟩

instance : ∀ s e, Decidable (Opens s e)
  | _, .openFails => .isFalse id
  | _, .lock | _, .push _ | _, .notifyAll _ | _, .unlock _ | _, .destroy | _, .thread
  | _, .wake => .isTrue trivial

theorem run_of_events (es : List Event) (h : Follows Pending handle create es) :
    Run Step create (steps handle create es) (es.foldl handle create) :=
  Run.start.follow (fun _ _ hp => ⟨hp, rfl⟩) h

/-- A call of `log`. -/
def logs (i : Message) : List Event := [.lock, .push i, .notifyAll i, .unlock i]

/-- Two callers log a message each, the destructor runs up to its join, and then the thread. -/
def oneWakeUp : List Event :=
  logs 0 ++ logs 1 ++ List.replicate 5 .destroy ++ List.replicate 14 .thread ++ [.destroy]

theorem run_not_deadlocked_oneWakeUp : ∃ tr s, Run Step create tr s ∧ s.dtor = .returned ∧
    s.file = [0, 1] ∧ Throughout (fun s => ¬ Deadlocked s) tr s := by
  have hrun := run_of_events oneWakeUp (by decide)
  exact ⟨_, _, hrun, by decide, by decide, (run_not_deadlocked hrun (by decide)).1⟩

end State

end Vs17.Logger
