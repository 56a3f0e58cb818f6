import Vs17.Library.Mutex
import Vs17.Library.Runs
import Vs17.Library.Text
import Mathlib.Logic.Function.Basic

/-! # The background thread of Mylog

Calls of `Mylog::log` format their text into one line buffer and queue a copy of it. A
thread runs `processEntries`, which drains the queue into the log file. The destructor
raises the exit flag, notifies the condition variable and joins the thread. Every step
here is one statement of the source, and the steps of all threads interleave.
-/

namespace Vs17.Mylog

open Runs Mutex

/-- The threads that take `g_log_Mutex`: the background thread, and the calls of `log`,
numbered in the order in which they format their texts. -/
inductive Thread
  | processEntries
  | log (i : ℕ)
  deriving DecidableEq, Repr

/-- The next statement of a call of `log`. -/
inductive LogPc
  | idle
  | formatted
  | locked
  | queued
  | unlocked
  | returned
  deriving DecidableEq, Repr

/-- The next statement of `processEntries`. -/
inductive WriterPc
  | lockQueue -- `std::unique_lock locker`, at the head of the loop
  | test -- `if (!g_log_Exit && mQueue.empty())`
  | wait -- `g_log_CondVar.wait(locker)`, not yet called
  | waiting -- blocked in the call
  | woken -- notified, about to take the mutex again
  | unlockQueue -- `locker.unlock()`
  | openFile
  | loop -- `while (!g_log_Exit)`
  | lockEntry -- `std::lock_guard lock`
  | entry -- the test of the queue and the branch that writes the front entry
  | unlockEntry -- the end of the body
  | leave -- `break`, which releases the lock too
  | closeFile
  | last -- `if (g_log_Exit) break`
  | exited
  deriving DecidableEq, Repr

/-- How far the destructor is: before `g_log_Exit = true`, before `notify_all()`, before
`join()`, and behind it. -/
inductive DtorPc
  | before
  | raised
  | notified
  | returned
  deriving DecidableEq, Repr

/-- A `Mylog` object and the threads at work on it. The last five fields are history: how
many calls have begun, which of them have queued and what, which wrote the line buffer
last, and what has been written to the log stream. -/
structure State where
  exit : Bool
  owner : Option Thread
  linebuffer : Bytes
  queue : List Bytes
  writer : WriterPc
  dtor : DtorPc
  call : ℕ → LogPc
  started : ℕ
  order : List ℕ
  entries : List Bytes
  formatted : Option ℕ
  stream : List Bytes

/-- The line buffer after `memset`. -/
def cleared : Bytes := List.replicate 65536 0

/-- The constructor, which clears the line buffer and launches the thread. -/
def create : State :=
  ⟨false, none, cleared, [], .lockQueue, .before, fun _ => .idle, 0, [], [], none, []⟩

/-- The line buffer after `memset` and `vsnprintf` with the size 65535. -/
def vsnprintf (text : Bytes) : Bytes :=
  let line := text.take 65534
  line ++ 0 :: cleared.drop (line.length + 1)

namespace State

def setCall (s : State) (i : ℕ) (pc : LogPc) : State :=
  { s with call := Function.update s.call i pc }

/-- The next statement of `processEntries`. -/
def processEntries (s : State) : State :=
  match s.writer with
  | .lockQueue => { s with owner := some .processEntries, writer := .test }
  | .test =>
    if s.exit = false ∧ s.queue = [] then { s with writer := .wait }
    else { s with writer := .unlockQueue }
  | .wait => { s with owner := none, writer := .waiting }
  | .waiting => s
  | .woken => { s with owner := some .processEntries, writer := .unlockQueue }
  | .unlockQueue => { s with owner := none, writer := .openFile }
  | .openFile => { s with writer := .loop }
  | .loop => { s with writer := if s.exit then .closeFile else .lockEntry }
  | .lockEntry => { s with owner := some .processEntries, writer := .entry }
  | .entry =>
    match s.queue with
    | [] => { s with writer := .leave }
    | front :: queue =>
      { s with stream := s.stream ++ [front], queue := queue, writer := .unlockEntry }
  | .unlockEntry => { s with owner := none, writer := .loop }
  | .leave => { s with owner := none, writer := .closeFile }
  | .closeFile => { s with writer := .last }
  | .last => { s with writer := if s.exit then .exited else .lockQueue }
  | .exited => s

/-- A notification reaches the thread only while it is blocked in the wait. -/
def notify (s : State) : State :=
  if s.writer = .waiting then { s with writer := .woken } else s

/-- The destructor is entered when no call of `log` is under way. -/
inductive Event
  | format
  | lock (i : ℕ)
  | emplace (i : ℕ)
  | unlock (i : ℕ)
  | notifyOne (i : ℕ)
  | exit
  | notifyAll
  | join
  | writer
  | openFails
  | wake -- a spurious wake-up
  deriving DecidableEq, Repr

def Pending (s : State) : Event → Prop
  | .format => s.dtor = .before
  | .lock i => s.call i = .formatted ∧ s.owner = none
  | .emplace i => s.call i = .locked
  | .unlock i => s.call i = .queued
  | .notifyOne i => s.call i = .unlocked
  | .exit => s.dtor = .before ∧ ∀ i < s.started, s.call i = .returned
  | .notifyAll => s.dtor = .raised
  | .join => s.dtor = .notified ∧ s.writer = .exited
  | .writer =>
    (s.writer = .lockQueue ∨ s.writer = .woken ∨ s.writer = .lockEntry → s.owner = none) ∧
      s.writer ≠ .waiting ∧ s.writer ≠ .exited
  | .openFails => s.writer = .openFile
  | .wake => s.writer = .waiting

instance : ∀ s e, Decidable (Pending s e)
  | _, .format | _, .notifyAll => inferInstanceAs (Decidable (_ = _))
  | _, .lock _ | _, .join => inferInstanceAs (Decidable (_ ∧ _))
  | _, .emplace _ | _, .unlock _ | _, .notifyOne _ => inferInstanceAs (Decidable (_ = _))
  | _, .exit => inferInstanceAs (Decidable (_ ∧ ∀ i < _, _ = _))
  | _, .writer => inferInstanceAs (Decidable ((_ → _) ∧ _ ≠ _ ∧ _ ≠ _))
  | _, .openFails | _, .wake => inferInstanceAs (Decidable (_ = _))

variable (text : ℕ → Bytes)

def handle (s : State) : Event → State
  | .format =>
    { s.setCall s.started .formatted with
      linebuffer := vsnprintf (text s.started)
      formatted := some s.started
      started := s.started + 1 }
  | .lock i => { s.setCall i .locked with owner := some (.log i) }
  | .emplace i =>
    { s.setCall i .queued with
      queue := s.queue ++ [Text.cstr s.linebuffer]
      entries := s.entries ++ [Text.cstr s.linebuffer]
      order := s.order ++ [i] }
  | .unlock i => { s.setCall i .unlocked with owner := none }
  | .notifyOne i => (s.setCall i .returned).notify
  | .exit => { s with exit := true, dtor := .raised }
  | .notifyAll => { s.notify with dtor := .notified }
  | .join => { s with dtor := .returned }
  | .writer => s.processEntries
  | .openFails => { s with writer := .exited }
  | .wake => { s with writer := .woken }

/-- One statement of one thread, where call `i` of `log` logs the text `text i`. -/
def Step (s : State) (e : Event) (t : State) : Prop := s.Pending e ∧ t = s.handle text e

/-- The thread holds `locker` or `lock`. -/
def WriterHolds (s : State) : Prop :=
  s.writer = .test ∨ s.writer = .wait ∨ s.writer = .unlockQueue ∨ s.writer = .entry ∨
    s.writer = .unlockEntry ∨ s.writer = .leave

/-- The thread is between taking the mutex and giving it back. -/
def Inside (s : State) : Thread → Prop
  | .processEntries => s.WriterHolds
  | .log i => s.call i = .locked ∨ s.call i = .queued

/-- What the object keeps while its threads run. -/
structure WellFormed (s : State) : Prop where
  guards : Guards s.owner s.Inside
  queued : s.stream ++ s.queue = s.entries
  raised : s.exit = true ↔ s.dtor ≠ .before
  idle : ∀ i, s.started ≤ i → s.call i = .idle
  closed : s.dtor ≠ .before → ∀ i, s.call i = .idle ∨ s.call i = .returned
  joined : s.dtor = .returned → s.writer = .exited

variable {text : ℕ → Bytes} {s t : State} {e : Event} {i : ℕ}

theorem wellFormed_create : WellFormed create where
  guards := by
    rintro (- | i)
    · simp [Inside, WriterHolds, create]
    · simp [Inside, create]
  queued := rfl
  raised := by simp [create]
  idle := fun _ _ => rfl
  closed := fun _ _ => .inl rfl
  joined := by simp [create]

/-- The thread moves entries from the queue to the stream and takes and gives the mutex;
all the rest it leaves alone. -/
theorem processEntries_eq (s : State) : ∃ owner writer queue stream,
    stream ++ queue = s.stream ++ s.queue ∧ s.processEntries =
      { s with owner := owner, writer := writer, queue := queue, stream := stream } := by
  unfold processEntries
  split
  case h_2 => split <;> exact ⟨_, _, _, _, rfl, rfl⟩
  case h_10 =>
    split
    · exact ⟨_, _, _, _, rfl, rfl⟩
    · next hq => exact ⟨_, _, _, _, by simp [hq], rfl⟩
  all_goals exact ⟨_, _, _, _, rfl, rfl⟩

theorem dtor_processEntries (s : State) : s.processEntries.dtor = s.dtor := by
  obtain ⟨owner, writer, queue, stream, -, heq⟩ := s.processEntries_eq
  rw [heq]

theorem notify_eq (s : State) : ∃ writer, s.notify = { s with writer := writer } := by
  unfold notify
  split
  · exact ⟨_, rfl⟩
  · exact ⟨s.writer, rfl⟩

/-- A notified thread still waits for the mutex. -/
theorem inside_notify (u : Thread) : s.notify.Inside u ↔ s.Inside u := by
  unfold notify
  split
  · next hw => cases u <;> simp [Inside, WriterHolds, hw]
  · rfl

theorem owner_notify : s.notify.owner = s.owner := by
  obtain ⟨_, h⟩ := s.notify_eq
  rw [h]

theorem call_setCall (s : State) (i j : ℕ) (pc : LogPc) :
    (s.setCall i pc).call j = if j = i then pc else s.call j :=
  Function.update_apply ..

/-- What a call of `log` does leaves the other threads where they are. -/
theorem inside_of_call (s : State) (i : ℕ) (pc : LogPc) (hwriter : t.writer = s.writer)
    (hcall : t.call = (s.setCall i pc).call) (u : Thread) (hu : u ≠ .log i) :
    t.Inside u ↔ s.Inside u := by
  cases u with
  | processEntries => simp only [Inside, WriterHolds, hwriter]
  | log j =>
    have hj : j ≠ i := fun hj => hu (congrArg Thread.log hj)
    simp [Inside, hcall, call_setCall, hj]

/-- What the background thread does leaves the calls of `log` where they are. -/
theorem inside_writer (w : WriterPc) (u : Thread) (hu : u ≠ .processEntries) :
    { s with writer := w }.Inside u ↔ s.Inside u := by
  cases u with
  | processEntries => exact absurd rfl hu
  | log j => rfl

theorem guards_processEntries (h : Guards s.owner s.Inside) (hp : s.Pending .writer) :
    Guards s.processEntries.owner s.processEntries.Inside := by
  have take (w : WriterPc) (hfree : s.owner = none) (hw : { s with writer := w }.WriterHolds) :
      Guards (some Thread.processEntries) { s with writer := w }.Inside :=
    h.acquire (inside_writer w) hfree hw
  have give (w : WriterPc) (hin : s.WriterHolds) (hw : ¬ { s with writer := w }.WriterHolds) :
      Guards none { s with writer := w }.Inside :=
    h.release (inside_writer w) hin hw
  have move (w : WriterPc) (hw : { s with writer := w }.WriterHolds ↔ s.WriterHolds) :
      Guards s.owner { s with writer := w }.Inside :=
    h.move (inside_writer w) hw
  cases hw : s.writer <;> simp only [processEntries, hw]
  case lockQueue => exact take _ (hp.1 (.inl hw)) (by simp [WriterHolds])
  case test =>
    split
    · exact move _ (by simp [WriterHolds, hw])
    · exact move _ (by simp [WriterHolds, hw])
  case wait => exact give _ (by simp [WriterHolds, hw]) (by simp [WriterHolds])
  case waiting => exact absurd hw hp.2.1
  case woken => exact take _ (hp.1 (.inr (.inl hw))) (by simp [WriterHolds])
  case unlockQueue => exact give _ (by simp [WriterHolds, hw]) (by simp [WriterHolds])
  case openFile => exact move _ (by simp [WriterHolds, hw])
  case loop => exact move _ (by split <;> simp [WriterHolds, hw])
  case lockEntry => exact take _ (hp.1 (.inr (.inr hw))) (by simp [WriterHolds])
  case entry =>
    split
    · exact move _ (by simp [WriterHolds, hw])
    · exact move _ (by simp [WriterHolds, hw])
  case unlockEntry => exact give _ (by simp [WriterHolds, hw]) (by simp [WriterHolds])
  case leave => exact give _ (by simp [WriterHolds, hw]) (by simp [WriterHolds])
  case closeFile => exact move _ (by simp [WriterHolds, hw])
  case last => exact move _ (by split <;> simp [WriterHolds, hw])
  case exited => exact absurd hw hp.2.2

theorem WellFormed.guards_handle (hw : WellFormed s) (hp : s.Pending e) :
    Guards (s.handle text e).owner (s.handle text e).Inside := by
  have h := hw.guards
  cases e with
  | format =>
    refine h.move (inside_of_call s s.started .formatted rfl rfl) ?_
    simp [Inside, handle, call_setCall, hw.idle]
  | lock i =>
    refine h.acquire (inside_of_call s i .locked rfl rfl) hp.2 ?_
    simp [Inside, handle, call_setCall]
  | emplace i =>
    have hcall : s.call i = .locked := hp
    refine h.move (inside_of_call s i .queued rfl rfl) ?_
    simp [Inside, handle, call_setCall, hcall]
  | unlock i =>
    have hcall : s.call i = .queued := hp
    refine h.release (inside_of_call s i .unlocked rfl rfl) (.inr hcall) ?_
    simp [Inside, handle, call_setCall]
  | notifyOne i =>
    have hcall : s.call i = .unlocked := hp
    have hmoved : Guards s.owner (s.setCall i .returned).Inside := by
      refine h.move (inside_of_call s i .returned rfl rfl) ?_
      simp [Inside, call_setCall, hcall]
    rw [handle, owner_notify]
    exact hmoved.congr inside_notify
  | exit => exact h
  | notifyAll =>
    change Guards s.notify.owner s.notify.Inside
    rw [owner_notify]
    exact h.congr inside_notify
  | join => exact h
  | writer => exact guards_processEntries h hp
  | openFails =>
    have hw : s.writer = .openFile := hp
    apply h.congr
    intro u
    cases u <;> simp [Inside, WriterHolds, handle, hw]
  | wake =>
    have hw : s.writer = .waiting := hp
    apply h.congr
    intro u
    cases u <;> simp [Inside, WriterHolds, handle, hw]

theorem WellFormed.step (h : WellFormed s) (hs : Step text s e t) : WellFormed t := by
  obtain ⟨hp, rfl⟩ := hs
  have hguards : Guards (s.handle text e).owner (s.handle text e).Inside := h.guards_handle hp
  -- a call that moves on has begun and, with the destructor entered, does not exist
  have moves (i : ℕ) (pc : LogPc) (hpc : s.call i ≠ .idle) (hpc' : s.call i ≠ .returned) :
      (∀ j, s.started ≤ j → (s.setCall i pc).call j = .idle) ∧
        (s.dtor ≠ .before → ∀ j, (s.setCall i pc).call j = .idle ∨
          (s.setCall i pc).call j = .returned) := by
    refine ⟨fun j hj => ?_, fun hd => absurd (h.closed hd i) (by simp [hpc, hpc'])⟩
    have hne : j ≠ i := by
      rintro rfl
      exact hpc (h.idle _ hj)
    simp [setCall, hne, h.idle j hj]
  cases e with
  | format =>
    have hd : s.dtor = .before := hp
    refine ⟨hguards, h.queued, h.raised, fun j hj => ?_, fun hne => absurd hd hne, h.joined⟩
    have hne : j ≠ s.started := Nat.ne_of_gt hj
    simp [handle, setCall, hne, h.idle j (Nat.le_of_lt hj)]
  | lock i =>
    have hcall : s.call i = .formatted := hp.1
    obtain ⟨hidle, hclosed⟩ := moves i .locked (by simp [hcall]) (by simp [hcall])
    exact ⟨hguards, h.queued, h.raised, hidle, hclosed, h.joined⟩
  | emplace i =>
    have hcall : s.call i = .locked := hp
    obtain ⟨hidle, hclosed⟩ := moves i .queued (by simp [hcall]) (by simp [hcall])
    exact ⟨hguards, by simp [handle, ← h.queued, setCall], h.raised, hidle, hclosed, h.joined⟩
  | unlock i =>
    have hcall : s.call i = .queued := hp
    obtain ⟨hidle, hclosed⟩ := moves i .unlocked (by simp [hcall]) (by simp [hcall])
    exact ⟨hguards, h.queued, h.raised, hidle, hclosed, h.joined⟩
  | notifyOne i =>
    have hcall : s.call i = .unlocked := hp
    obtain ⟨hidle, hclosed⟩ := moves i .returned (by simp [hcall]) (by simp [hcall])
    have hbefore : s.dtor = .before := by
      by_contra hd
      simpa [hcall] using h.closed hd i
    obtain ⟨writer, heq⟩ := (s.setCall i .returned).notify_eq
    rw [handle, heq] at hguards ⊢
    exact ⟨hguards, h.queued, h.raised, hidle, hclosed, fun hd => by simp [setCall, hbefore] at hd⟩
  | exit =>
    refine ⟨hguards, h.queued, by simp [handle], h.idle, fun _ j => ?_, by rintro ⟨⟩⟩
    rcases Nat.lt_or_ge j s.started with hj | hj
    · exact .inr (hp.2 j hj)
    · exact .inl (h.idle j hj)
  | notifyAll =>
    have hd : s.dtor = .raised := hp
    obtain ⟨writer, heq⟩ := s.notify_eq
    rw [handle, heq] at hguards ⊢
    exact ⟨hguards, h.queued, by simp [h.raised, hd], h.idle, fun _ => h.closed (by simp [hd]),
      by rintro ⟨⟩⟩
  | join =>
    have hd : s.dtor = .notified := hp.1
    exact ⟨hguards, h.queued, by simp [handle, h.raised, hd], h.idle,
      fun _ => h.closed (by simp [hd]), fun _ => hp.2⟩
  | writer =>
    obtain ⟨owner, writer, queue, stream, hqueue, heq⟩ := s.processEntries_eq
    have hnot : s.dtor ≠ .returned := fun hd => hp.2.2 (h.joined hd)
    rw [handle, heq] at hguards ⊢
    exact ⟨hguards, hqueue.trans h.queued, h.raised, h.idle, h.closed, fun hd => absurd hd hnot⟩
  | openFails => exact ⟨hguards, h.queued, h.raised, h.idle, h.closed, fun _ => rfl⟩
  | wake =>
    have hw : s.writer = .waiting := hp
    refine ⟨hguards, h.queued, h.raised, h.idle, h.closed, fun hd => ?_⟩
    cases hw.symm.trans (h.joined hd)

/-- Which statements change the flag, the place of the destructor and the history of the
queue: all others leave them as they are. -/
theorem frame_step (hs : Step text s e t) :
    (e ≠ .exit → t.exit = s.exit) ∧
      (e ≠ .exit → e ≠ .notifyAll → e ≠ .join → t.dtor = s.dtor) ∧
      ((∀ i, e ≠ .emplace i) → t.entries = s.entries ∧ t.order = s.order) := by
  obtain ⟨-, rfl⟩ := hs
  cases e with
  | emplace i => exact ⟨fun _ => rfl, fun _ _ _ => rfl, fun he => absurd rfl (he i)⟩
  | notifyOne i =>
    obtain ⟨writer, heq⟩ := (s.setCall i .returned).notify_eq
    rw [handle, heq]
    exact ⟨fun _ => rfl, fun _ _ _ => rfl, fun _ => ⟨rfl, rfl⟩⟩
  | exit => exact ⟨(absurd rfl ·), (absurd rfl ·), fun _ => ⟨rfl, rfl⟩⟩
  | notifyAll =>
    obtain ⟨writer, heq⟩ := s.notify_eq
    rw [handle, heq]
    exact ⟨fun _ => rfl, fun _ he _ => absurd rfl he, fun _ => ⟨rfl, rfl⟩⟩
  | join => exact ⟨fun _ => rfl, fun _ _ he => absurd rfl he, fun _ => ⟨rfl, rfl⟩⟩
  | writer =>
    obtain ⟨owner, writer, queue, stream, -, heq⟩ := s.processEntries_eq
    rw [handle, heq]
    exact ⟨fun _ => rfl, fun _ _ _ => rfl, fun _ => ⟨rfl, rfl⟩⟩
  | _ => exact ⟨fun _ => rfl, fun _ _ _ => rfl, fun _ => ⟨rfl, rfl⟩⟩

theorem run_of_events (es : List Event) (h : Follows Pending (handle text) create es) :
    Run (Step text) create (steps (handle text) create es) (es.foldl (handle text) create) :=
  Run.start.follow (fun _ _ hp => ⟨hp, rfl⟩) h

theorem wellFormed_of_run {tr : List (State × Event)} (h : Run (Step text) create tr s) :
    WellFormed s :=
  (h.invariant wellFormed_create fun _ _ _ hw hs => hw.step hs).2

/-- With the destructor entered, only it and the background thread have steps left. -/
theorem WellFormed.closing (h : WellFormed s) (hd : s.dtor ≠ .before) (hp : s.Pending e) :
    e = .notifyAll ∨ e = .join ∨ e = .writer ∨ e = .openFails ∨ e = .wake := by
  have idle_or_returned := h.closed hd
  cases e with
  | format => exact absurd hp hd
  | lock i =>
    have hcall : s.call i = .formatted := hp.1
    simpa [hcall] using idle_or_returned i
  | emplace i =>
    have hcall : s.call i = .locked := hp
    simpa [hcall] using idle_or_returned i
  | unlock i =>
    have hcall : s.call i = .queued := hp
    simpa [hcall] using idle_or_returned i
  | notifyOne i =>
    have hcall : s.call i = .unlocked := hp
    simpa [hcall] using idle_or_returned i
  | exit => exact absurd hp.1 hd
  | _ => simp

end State

end Vs17.Mylog
