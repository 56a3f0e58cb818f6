import Vs17.Pool.Roster
import Mathlib.Algebra.Order.Group.Multiset

/-! # What becomes of the tasks

Tasks are popped in the order in which they were emplaced. A popped task is held by one
thread until it is finished, and is finished once. When `in_flight` is zero, or the
destructor has returned, all tasks are finished.
-/

namespace Vs17.Pool

open Runs Population

/-- The task that a thread holds. -/
def Worker.task (w : Worker) : Multiset Task :=
  match w.pc with
  | .popped task _ | .running task => {task}
  | .awake | .waiting | .ran | .last | .exited => 0

@[simp] theorem Worker.task_wake (w : Worker) : w.wake.task = w.task := by
  unfold wake
  split
  · next hw => simp [task, hw]
  · rfl

namespace State

variable {s u : State} {e : Event} {i t : ℕ} {w : Worker} {tr : List (State × Event)}

/-- Where the tasks are. -/
structure Accounted (s : State) : Prop where
  queued : s.submitted = s.taken ++ s.tasks
  held : (s.taken : Multiset Task) = (s.finished : Multiset Task) + total Worker.task s.threads
  named : ∀ i, i ∈ s.submitted ↔ s.call i = .returned .enqueue
  once : s.submitted.Nodup

/-- Once the destructor has returned, there are no workers and nothing is in flight. -/
def Joined (s : State) : Prop := s.dtor = .returned → s.workers = [] ∧ s.inFlight = 0

theorem DtorPc.wake_eq_returned_iff {pc : DtorPc} : pc.wake = .returned ↔ pc = .returned := by
  cases pc <;> simp [DtorPc.wake]

theorem held_notifyOne (s : State) (wake : Option Consumer) :
    total Worker.task (s.notifyOne wake).threads = total Worker.task s.threads := by
  rcases wake with - | t | -
  · rfl
  · exact total_modify_of_eq Worker.task_wake
  · rfl

/-- A call that is notified has not returned. -/
theorem wake_eq_returned_iff {c : Condition} {pc : CallPc} {call : Call} :
    pc.wake c = .returned call ↔ pc = .returned call := by
  unfold CallPc.wake
  split
  · split <;> simp
  · rfl

namespace Accounted

variable (h : Accounted s)

include h

theorem notifyAll (c : Condition) : Accounted (s.notifyAll c) :=
  ⟨h.queued, h.held, fun i => (h.named i).trans wake_eq_returned_iff.symm, h.once⟩

theorem notifyConsumers : Accounted s.notifyConsumers :=
  ⟨h.queued, h.held.trans (by rw [State.notifyConsumers, total_map_of_eq Worker.task_wake]),
    h.named, h.once⟩

theorem setCall {pc : CallPc} (hopen : (s.call i).Open) (hpc : pc ≠ .returned .enqueue) :
    Accounted (s.setCall i pc) := by
  refine ⟨h.queued, h.held, fun j => (h.named j).trans ?_, h.once⟩
  by_cases hj : j = i
  · subst hj
    have hold : s.call j ≠ .returned .enqueue := by
      rintro heq
      rw [heq] at hopen
      exact hopen
    simp [State.setCall, hold, hpc]
  · simp [State.setCall, hj]

theorem emplace (hopen : (s.call i).Open) : Accounted (s.emplace i) := by
  have hnew : i ∉ s.submitted := by
    rw [h.named]
    rintro heq
    rw [heq] at hopen
    exact hopen
  constructor
  · simp [State.emplace, State.setCall, h.queued]
  · exact h.held
  · intro j
    simp only [State.emplace, State.setCall, List.mem_append, List.mem_singleton, h.named]
    by_cases hj : j = i <;> simp [hj]
  · exact List.nodup_append.mpr ⟨h.once, by simp, by rintro a ha b hb rfl; simp_all⟩

/-- A thread moves on with the task it holds. -/
theorem setPc {pc : WorkerPc} (hw : s.threads[t]? = some w)
    (htask : Worker.task { w with pc := pc } = w.task) : Accounted (s.setPc t w pc) :=
  ⟨h.queued, h.held.trans (by rw [State.setPc, total_set_of_eq hw htask]), h.named, h.once⟩

end Accounted

theorem Accounted.move (h : Accounted s) (hwell : WellFormed s) (hm : Move s u) :
    Accounted u := by
  cases hm with
  | stay => exact h
  | block hopen => exact h.setCall hopen (by simp)
  | @settle i pc hopen hpassive =>
    refine h.setCall hopen ?_
    rintro rfl
    exact hpassive rfl
  | @emplace i wake hopen =>
    obtain ⟨threads, dtor, heq, -⟩ := (s.emplace i).notifyOne_eq wake
    have hheld := (s.emplace i).held_notifyOne wake
    have hnew := h.emplace hopen
    rw [heq] at hheld ⊢
    exact ⟨hnew.queued, hnew.held.trans (by rw [hheld]), hnew.named, hnew.once⟩
  | limit => exact ⟨h.queued, h.held, h.named, h.once⟩
  | raise =>
    have hnotified := h.notifyAll .producers
    exact ⟨hnotified.queued, hnotified.held, hnotified.named, hnotified.once⟩
  | grow _ hlimit hstart =>
    obtain ⟨workers, new, rfl, -, hawake⟩ := hwell.grow_eq hlimit hstart
    have hnone : total Worker.task new = 0 :=
      total_eq_zero fun w hw => by simp [Worker.task, hawake w hw]
    exact ⟨h.queued, h.held.trans (by rw [total_append, hnone, add_zero]), h.named, h.once⟩
  | shrink =>
    have hnotified := h.notifyConsumers
    exact ⟨hnotified.queued, hnotified.held, hnotified.named, hnotified.once⟩
  | destroy _ hjoin =>
    have hnotified := h.notifyConsumers.notifyAll .producers
    rcases join_eq hjoin with ⟨-, -, rfl⟩ | ⟨-, rfl⟩ <;>
      exact ⟨hnotified.queued, hnotified.held, hnotified.named, hnotified.once⟩
  | join _ hjoin =>
    rcases join_eq hjoin with ⟨-, -, rfl⟩ | ⟨-, rfl⟩ <;>
      exact ⟨h.queued, h.held, h.named, h.once⟩
  | @wake c =>
    have hheld := s.held_notifyOne (some c)
    cases c with
    | worker t => exact ⟨h.queued, h.held.trans (by rw [← hheld]; rfl), h.named, h.once⟩
    | dtor => exact ⟨h.queued, h.held, h.named, h.once⟩
  | sleep hw hpc => exact h.setPc hw (by simp [Worker.task, hpc])
  | @leave t w _ hw hpc _ hleave =>
    obtain ⟨workers, -, rfl⟩ := leave_eq hleave
    have hexit : Accounted (s.setPc t w .exited) := h.setPc hw (by simp [Worker.task, hpc])
    have hnotified := hexit.notifyConsumers
    split
    · exact ⟨hnotified.queued, hnotified.held, hnotified.named, hnotified.once⟩
    · exact ⟨hexit.queued, hexit.held, hexit.named, hexit.once⟩
  | @pop t w task tasks notify hw hpc htasks =>
    constructor
    · simp [h.queued, htasks, State.setPc]
    · have hmoved := total_set (f := Worker.task) (b := { w with pc := .popped task notify }) hw
      simp only [Worker.task, hpc, add_zero] at hmoved
      rw [← Multiset.coe_add, h.held, Multiset.coe_singleton, add_assoc]
      exact congrArg _ hmoved.symm
    · exact h.named
    · exact h.once
  | @run t w task notify hw hpc =>
    have htask : Worker.task { w with pc := .running task } = w.task := by simp [Worker.task, hpc]
    cases notify with
    | true => exact (h.notifyAll .producers).setPc hw htask
    | false => exact h.setPc hw htask
  | @finish t w task hw hpc =>
    constructor
    · exact h.queued
    · have hmoved := total_set (f := Worker.task) (b := { w with pc := .ran }) hw
      simp only [Worker.task, hpc, add_zero] at hmoved
      refine h.held.trans ?_
      rw [← Multiset.coe_add, Multiset.coe_singleton, add_assoc]
      exact congrArg _ (hmoved.symm.trans (add_comm _ _))
    · exact h.named
    · exact h.once
  | @decrement t w hw hpc =>
    have hran : Accounted (s.setPc t w (if s.inFlight = 1 then .last else .awake)) :=
      h.setPc hw (by by_cases hone : s.inFlight = 1 <;> simp [Worker.task, hpc, hone])
    exact ⟨hran.queued, hran.held, hran.named, hran.once⟩
  | notify hw hpc => exact (h.notifyAll .inFlight).setPc hw (by simp [Worker.task, hpc])

/-- Without workers no thread makes a step. -/
theorem WellFormed.exited (h : WellFormed s) (hnil : s.workers = [])
    (hw : s.threads[t]? = some w) : w.pc = .exited := by
  by_contra hlive
  have hslot := h.slot hw hlive
  simp [hnil] at hslot

theorem Joined.move (h : Joined s) (hwell : WellFormed s) (hm : Move s u) : Joined u := by
  have hrunning : s.stop = false → s.dtor ≠ .returned := by
    intro hstop hreturned
    rw [hwell.raised.mpr hstop] at hreturned
    cases hreturned
  have hthread : ∀ {t : ℕ} {w : Worker}, s.threads[t]? = some w → w.pc ≠ .exited →
      s.dtor ≠ .returned :=
    fun hw hlive hreturned => hlive (hwell.exited (h hreturned).1 hw)
  cases hm with
  | stay | block | settle | limit | raise => exact h
  | @emplace i wake _ hstop =>
    intro hreturned
    refine absurd ?_ (hrunning hstop)
    rcases wake with - | t | -
    · exact hreturned
    · exact hreturned
    · exact DtorPc.wake_eq_returned_iff.mp hreturned
  | grow hstop hlimit hstart =>
    obtain ⟨workers, new, rfl, -⟩ := hwell.grow_eq hlimit hstart
    exact fun hreturned => absurd hreturned (hrunning hstop)
  | shrink hstop =>
    exact fun hreturned => absurd (DtorPc.wake_eq_returned_iff.mp hreturned) (hrunning hstop)
  | destroy _ hjoin | join _ hjoin =>
    rcases join_eq hjoin with ⟨hworkers, hinFlight, rfl⟩ | ⟨-, rfl⟩
    · exact fun _ => ⟨hworkers, hinFlight⟩
    · rintro ⟨⟩
  | @wake c hwaiting =>
    intro hreturned
    cases c with
    | worker t => exact h hreturned
    | dtor => exact h (DtorPc.wake_eq_returned_iff.mp hreturned)
  | sleep _ _ hstop => exact fun hreturned => absurd hreturned (hrunning hstop)
  | leave hw hpc _ hleave =>
    obtain ⟨workers, -, rfl⟩ := leave_eq hleave
    have hnot := hthread hw (by simp [hpc])
    split
    · exact fun hreturned => absurd (DtorPc.wake_eq_returned_iff.mp hreturned) hnot
    · exact fun hreturned => absurd hreturned hnot
  | pop hw hpc | finish hw hpc | decrement hw hpc | notify hw hpc =>
    exact fun hreturned => absurd hreturned (hthread hw (by simp [hpc]))
  | @run t w task notify hw hpc =>
    have hnot := hthread hw (by simp [hpc])
    cases notify <;> exact fun hreturned => absurd hreturned hnot

@[simp] theorem call_notifyOne (s : State) (wake : Option Consumer) :
    (s.notifyOne wake).call = s.call := by
  rcases wake with - | t | - <;> rfl

/-- A call that waits returns only when its predicate holds. -/
theorem WellFormed.ready_of_returned (hwell : WellFormed s) {c : Call} (hm : Move s u)
    (hc : c ≠ .enqueue)
    (hold : s.call i ≠ .returned c) (hnew : u.call i = .returned c) :
    s.Ready c ∧ u = s.setCall i (.returned c) := by
  have hnotified : ∀ d, (s.call i).wake d ≠ .returned c :=
    fun d heq => hold (wake_eq_returned_iff.mp heq)
  cases hm with
  | stay | limit | shrink | sleep | pop | finish | decrement => exact absurd hnew hold
  | @wake d => cases d <;> exact absurd hnew hold
  | @block j d =>
    by_cases hj : i = j
    · subst hj
      simp [State.setCall] at hnew
    · simp [State.setCall, hj, hold] at hnew
  | @settle j pc _ _ hready =>
    by_cases hj : i = j
    · subst hj
      obtain rfl : pc = .returned c := by simpa [State.setCall] using hnew
      exact ⟨hready c rfl, rfl⟩
    · simp [State.setCall, hj, hold] at hnew
  | @emplace j wake =>
    rw [call_notifyOne] at hnew
    by_cases hj : i = j
    · subst hj
      simp [State.emplace, State.setCall, Ne.symm hc] at hnew
    · simp [State.emplace, State.setCall, hj, hold] at hnew
  | raise | notify => exact absurd hnew (hnotified _)
  | grow _ hlimit hstart =>
    obtain ⟨workers, new, rfl, -⟩ := hwell.grow_eq hlimit hstart
    exact absurd hnew hold
  | destroy _ hjoin =>
    rcases join_eq hjoin with ⟨-, -, rfl⟩ | ⟨-, rfl⟩ <;> exact absurd hnew (hnotified _)
  | join _ hjoin =>
    rcases join_eq hjoin with ⟨-, -, rfl⟩ | ⟨-, rfl⟩ <;> exact absurd hnew hold
  | leave _ _ _ hleave =>
    obtain ⟨workers, -, rfl⟩ := leave_eq hleave
    split at hnew <;> exact absurd hnew hold
  | @run t w task notify =>
    cases notify
    · exact absurd hnew hold
    · exact absurd hnew (hnotified _)

theorem Accounted.finished_perm (h : Accounted s) (hwell : WellFormed s) (hzero : s.inFlight = 0) :
    s.finished.Perm s.submitted := by
  have hcounted := hwell.counted
  have htasks : s.tasks = [] := List.length_eq_zero_iff.mp (by omega)
  have hidle := total_eq_zero_iff.mp (show total Worker.busy s.threads = 0 by omega)
  have hnone : total Worker.task s.threads = 0 := by
    refine total_eq_zero fun w hw => ?_
    have hw := hidle w hw
    unfold Worker.busy at hw
    unfold Worker.task
    split at hw <;> simp_all
  rw [h.queued, htasks, List.append_nil, ← Multiset.coe_eq_coe, h.held, hnone, add_zero]

theorem accounted_of_run {threads : ℕ} {s₀ : State} (hcreate : create threads = some s₀)
    (h : Run Step s₀ tr s) : WellFormed s ∧ Accounted s ∧ Joined s := by
  have hinv := h.invariant (I := fun s => WellFormed s ∧ Accounted s ∧ Joined s) ?_
    fun _ _ _ hi hs => ⟨hi.1.move hs.move, hi.2.1.move hi.1 hs.move, hi.2.2.move hi.1 hs.move⟩
  · exact hinv.2
  · refine ⟨(wellFormed_create hcreate).1, ?_⟩
    obtain ⟨workers, new, heq, -, hawake⟩ := create_spec threads
    obtain rfl := Option.some.inj (heq.symm.trans hcreate)
    have hnone : total Worker.task new = 0 :=
      total_eq_zero fun w hw => by simp [Worker.task, hawake w hw]
    exact ⟨⟨rfl, by simp [hnone], by simp, by simp⟩, by simp [Joined]⟩

/-- Every task that a call of `enqueue` has submitted is popped in its turn, held by one thread
and finished once. Nothing in flight, the return of the destructor and the return of
`wait_until_nothing_in_flight` each mean that all of them are finished. -/
theorem run_tasks (threads : ℕ) : ∃ s₀, create threads = some s₀ ∧
    ∀ tr s, Run Step s₀ tr s →
      (∀ i, i ∈ s.submitted ↔ s.call i = .returned .enqueue) ∧ s.submitted.Nodup ∧
      s.submitted = s.taken ++ s.tasks ∧
      (s.taken : Multiset Task) = s.finished + total Worker.task s.threads ∧
      s.inFlight = s.tasks.length + total Worker.busy s.threads ∧
      (s.inFlight = 0 ∨ s.dtor = .returned → s.finished.Perm s.submitted) ∧
      ∀ e u i, Step s e u → s.call i ≠ .returned .waitUntilNothingInFlight →
        u.call i = .returned .waitUntilNothingInFlight → u.finished.Perm u.submitted := by
  obtain ⟨workers, new, heq, -⟩ := create_spec threads
  refine ⟨_, heq, fun tr s h => ?_⟩
  obtain ⟨hwell, hacc, hjoined⟩ := accounted_of_run heq h
  refine ⟨hacc.named, hacc.once, hacc.queued, hacc.held, hwell.counted, ?_, ?_⟩
  · rintro (hzero | hreturned)
    · exact hacc.finished_perm hwell hzero
    · exact hacc.finished_perm hwell (hjoined hreturned).2
  · intro e u i hs hold hnew
    obtain ⟨hready, rfl⟩ := hwell.ready_of_returned hs.move (by simp) hold hnew
    exact hacc.finished_perm hwell hready

end State

end Vs17.Pool
