import Vs17.Pool.Tasks

/-! # Nobody waits in vain

A thread blocks in a condition variable while its predicate is false. Whatever makes the
predicate true sends a notification in the same step, or is done by a worker that sends it
as its next step. The workers share one condition variable, and one notification is sent
for a task, so what is kept is a count: there are no fewer workers about to look for tasks
than there are tasks, as long as some worker is blocked.
-/

namespace Vs17.Pool

open Runs Population

/-- The worker is about to look for a task, and is not to be stopped. -/
def Worker.ready (size : ℕ) (w : Worker) : ℕ := if w.pc = .awake ∧ w.number < size then 1 else 0

/-- The worker's next step is to notify all that wait for the condition. -/
def Worker.Notifies (w : Worker) : Condition → Prop
  | .producers => ∃ task, w.pc = .popped task true
  | .inFlight => w.pc = .last

theorem Worker.not_notifies {w : Worker} (hpopped : ∀ task, w.pc ≠ .popped task true)
    (hlast : w.pc ≠ .last) (c : Condition) : ¬ w.Notifies c := by
  cases c with
  | producers => exact fun ⟨task, htask⟩ => hpopped task htask
  | inFlight => exact hlast

theorem Worker.Notifies.wake {w : Worker} {c : Condition} (h : w.Notifies c) : w.wake = w := by
  unfold Worker.wake
  split
  · next hw => cases c <;> simp [Notifies, hw] at h
  · rfl

theorem Worker.pc_wake_ne (w : Worker) : w.wake.pc ≠ .waiting := by
  unfold wake
  split
  · simp
  · next hw => exact hw

theorem Worker.ready_mono {size size' : ℕ} (w : Worker) (h : size ≤ size') :
    w.ready size ≤ w.ready size' := by
  unfold ready
  split_ifs with hold hnew
  · exact le_rfl
  · exact absurd ⟨hold.1, hold.2.trans_le h⟩ hnew
  · exact Nat.zero_le 1
  · exact le_rfl

namespace State

variable {s u : State} {e : Event} {i t : ℕ} {w : Worker} {tr : List (State × Event)}
  {c : Condition}

/-- A blocked worker is one that the pool keeps, and others see to the tasks. -/
def Idle (s : State) : Prop :=
  ∀ w ∈ s.threads, w.pc = .waiting → s.stop = false ∧ w.number < s.poolSize ∧
    s.tasks.length ≤ total (Worker.ready s.poolSize) s.threads

/-- A notification of all that wait for the condition is on its way. -/
def Coming (s : State) (c : Condition) : Prop := ∃ w ∈ s.threads, w.Notifies c

/-- A blocked call waits for something that does not hold yet, or is about to be notified. -/
def Called (s : State) : Prop :=
  ∀ i call, s.call i = .blocked call → ¬ s.Ready call ∨ s.Coming call.condition

/-- The destructor is blocked only while there are workers. -/
def Joining (s : State) : Prop := s.dtor = .waiting → s.workers ≠ []

section Idle

theorem wake_worker (hw : s.threads[t]? = some w) (hpc : w.pc = .waiting) :
    s.wake (.worker t) = s.setPc t w .awake := by
  have hthreads : s.threads.modify t Worker.wake = s.threads.set t { w with pc := .awake } := by
    ext n
    rw [List.getElem?_modify, List.getElem?_set]
    split
    · next hn =>
      subst hn
      obtain ⟨hlt, rfl⟩ := List.getElem?_eq_some_iff.mp hw
      simp [Worker.wake, hpc, hlt]
    · simp
  simp [wake, setPc, hthreads]

theorem idle_notifyConsumers (s : State) : Idle s.notifyConsumers := by
  intro w hw hpc
  obtain ⟨w, -, rfl⟩ := List.mem_map.mp hw
  exact absurd hpc w.pc_wake_ne

/-- A worker goes on, without blocking. -/
theorem Idle.advance (h : Idle s) {pc : WorkerPc} {tasks taken finished : List Task}
    {inFlight : ℕ} {workers : List (Option ℕ)} (hw : s.threads[t]? = some w) (hpc : pc ≠ .waiting)
    (hcount : s.stop = false → tasks.length + w.ready s.poolSize ≤
      s.tasks.length + Worker.ready s.poolSize { w with pc := pc }) :
    Idle { s.setPc t w pc with tasks := tasks, taken := taken, finished := finished,
                               inFlight := inFlight, workers := workers } := by
  intro v hv hvpc
  rcases List.mem_or_eq_of_mem_set hv with hv | rfl
  · obtain ⟨hstop, hnumber, hle⟩ := h v hv hvpc
    have hmoved := total_set (f := Worker.ready s.poolSize) (b := { w with pc := pc }) hw
    have hcount := hcount hstop
    refine ⟨hstop, hnumber, ?_⟩
    change tasks.length ≤ total (Worker.ready s.poolSize) (s.threads.set t { w with pc := pc })
    omega
  · exact absurd hvpc hpc

theorem Idle.setPc (h : Idle s) {pc : WorkerPc} (hw : s.threads[t]? = some w)
    (hpc : pc ≠ .waiting)
    (hready : w.ready s.poolSize ≤ Worker.ready s.poolSize { w with pc := pc }) :
    Idle (s.setPc t w pc) :=
  h.advance hw hpc fun _ => by omega

theorem Idle.emplace (h : Idle s) (hwell : WellFormed s) {wake : Option Consumer}
    (hstop : s.stop = false) (hchosen : s.Chosen wake) : Idle ((s.emplace i).notifyOne wake) := by
  rcases wake with - | t | -
  · exact fun w hw hpc => absurd hpc (hchosen.1 w hw)
  · simp only [Chosen, Waiting] at hchosen
    split at hchosen
    · next w hw =>
      obtain ⟨-, hnumber, -⟩ := h w (List.mem_of_getElem? hw) hchosen
      rw [notifyOne, wake_worker (s := s.emplace i) hw hchosen]
      have hwoken : Idle { s.setPc t w .awake with
          tasks := s.tasks ++ [i], taken := s.taken, finished := s.finished,
          inFlight := s.inFlight + 1, workers := s.workers } :=
        h.advance hw (by simp) fun _ => by simp [Worker.ready, hchosen, hnumber]
      exact hwoken
    · exact hchosen.elim
  · have hd : s.dtor = .waiting := hchosen
    rw [hwell.raised.mpr hstop] at hd
    cases hd

theorem Idle.move (h : Idle s) (hwell : WellFormed s) (hm : Move s u) : Idle u := by
  cases hm with
  | stay | block | settle | limit | raise => exact h
  | emplace _ hstop _ hchosen => exact h.emplace hwell hstop hchosen
  | @grow limit _ hstop hlimit hstart =>
    obtain ⟨workers, new, rfl, -, hawake⟩ := hwell.grow_eq hlimit hstart
    intro w hw hpc
    rcases List.mem_append.mp hw with hw | hw
    · obtain ⟨-, hnumber, hle⟩ := h w hw hpc
      refine ⟨hstop, hnumber.trans hlimit, hle.trans ?_⟩
      change total (Worker.ready s.poolSize) s.threads ≤
        total (Worker.ready limit) (s.threads ++ new)
      rw [total_append]
      exact (total_le fun v _ => v.ready_mono hlimit.le).trans (Nat.le_add_right _ _)
    · rw [hawake w hw] at hpc
      cases hpc
  | shrink => exact idle_notifyConsumers _
  | destroy _ hjoin =>
    rcases join_eq hjoin with ⟨-, -, rfl⟩ | ⟨-, rfl⟩ <;>
      exact idle_notifyConsumers { s with stop := true, poolSize := 0 }
  | join _ hjoin =>
    rcases join_eq hjoin with ⟨-, -, rfl⟩ | ⟨-, rfl⟩ <;> exact h
  | @wake c hwaiting =>
    cases c with
    | dtor => exact h
    | worker t =>
      simp only [Waiting] at hwaiting
      split at hwaiting
      · next w hw =>
        rw [wake_worker hw hwaiting]
        exact h.setPc hw (by simp) (by simp [Worker.ready, hwaiting])
      · exact hwaiting.elim
  | @sleep t w hw hpc hstop htasks hnumber =>
    intro v hv hvpc
    refine ⟨hstop, ?_, by simp [State.setPc, htasks]⟩
    rcases List.mem_or_eq_of_mem_set hv with hv | rfl
    · exact (h v hv hvpc).2.1
    · exact hnumber
  | @leave t w _ hw hpc hexit hleave =>
    obtain ⟨workers, -, rfl⟩ := leave_eq hleave
    split
    · exact idle_notifyConsumers _
    · refine h.advance hw (by simp) fun hstop => ?_
      rcases hexit with ⟨hstopped, -⟩ | ⟨-, hnumber⟩
      · rw [hstop] at hstopped
        cases hstopped
      · simp [Worker.ready, Nat.not_lt.mpr hnumber, State.setPc]
  | @pop t w task tasks notify hw hpc htasks =>
    refine h.advance hw (by simp) fun _ => ?_
    simp only [Worker.ready, htasks, List.length_cons, reduceCtorEq, false_and, if_false]
    split <;> omega
  | @run t w task notify hw hpc =>
    have hready : w.ready s.poolSize ≤ Worker.ready s.poolSize { w with pc := .running task } := by
      simp [Worker.ready, hpc]
    cases notify
    · exact h.setPc hw (by simp) hready
    · exact Idle.setPc (s := s.notifyAll .producers) h hw (by simp) hready
  | finish hw hpc => exact h.advance hw (by simp) fun _ => by simp [Worker.ready, hpc, State.setPc]
  | decrement hw hpc =>
    exact h.advance hw (by split <;> simp) fun _ => by simp [Worker.ready, hpc, State.setPc]
  | notify hw hpc =>
    exact Idle.setPc (s := s.notifyAll .inFlight) h hw (by simp) (by simp [Worker.ready, hpc])

end Idle

section Called

theorem wake_eq_blocked_iff {pc : CallPc} {call : Call} :
    pc.wake c = .blocked call ↔ pc = .blocked call ∧ call.condition ≠ c := by
  cases pc with
  | blocked d =>
    simp only [CallPc.wake, CallPc.blocked.injEq]
    split
    · next hc =>
      refine iff_of_false (by simp) ?_
      rintro ⟨rfl, hne⟩
      exact hne hc
    · next hc =>
      refine ⟨?_, fun h => by rw [h.1]⟩
      rintro ⟨⟩
      exact ⟨rfl, hc⟩
  | _ => simp [CallPc.wake]

theorem Coming.notifyConsumers (h : s.Coming c) : s.notifyConsumers.Coming c := by
  obtain ⟨w, hw, hnotifies⟩ := h
  exact ⟨w, mem_map_of_eq hw hnotifies.wake, hnotifies⟩

theorem Coming.wake (h : s.Coming c) (d : Consumer) : (s.wake d).Coming c := by
  obtain ⟨w, hw, hnotifies⟩ := h
  cases d with
  | worker t => exact ⟨w, mem_modify_of_eq hw hnotifies.wake, hnotifies⟩
  | dtor => exact ⟨w, hw, hnotifies⟩

theorem Coming.notifyOne (h : s.Coming c) (wake : Option Consumer) :
    (s.notifyOne wake).Coming c := by
  cases wake with
  | none => exact h
  | some d => exact h.wake d

/-- A worker that does not send the notification moves. -/
theorem Coming.setPc (h : s.Coming c) {pc : WorkerPc} (hw : s.threads[t]? = some w)
    (hnot : ¬ w.Notifies c) : (s.setPc t w pc).Coming c := by
  obtain ⟨v, hv, hnotifies⟩ := h
  exact ⟨v, mem_set_of_ne hw hv fun heq => hnot (heq ▸ hnotifies), hnotifies⟩

/-- Calls that are still blocked go on waiting for what does not hold. -/
theorem Called.mono (h : Called s)
    (hcall : ∀ i call, u.call i = .blocked call → s.call i = .blocked call)
    (hready : ∀ i call, u.call i = .blocked call → u.Ready call →
      s.Ready call ∨ u.Coming call.condition)
    (hcoming : ∀ i call, u.call i = .blocked call → s.Coming call.condition →
      u.Coming call.condition) : Called u := by
  intro i call hblocked
  by_cases hu : u.Ready call
  · rcases hready i call hblocked hu with hs | hcomes
    · rcases h i call (hcall i call hblocked) with hnot | hcomes
      · exact absurd hs hnot
      · exact .inr (hcoming i call hblocked hcomes)
    · exact .inr hcomes
  · exact .inl hu

/-- A worker moves, and neither the calls nor what they wait for change. -/
theorem Called.setPc (h : Called s) {pc : WorkerPc} (hw : s.threads[t]? = some w)
    (hnot : ∀ c, ¬ w.Notifies c) : Called (s.setPc t w pc) :=
  h.mono (fun _ _ hb => hb) (fun _ _ _ hr => .inl hr) fun _ _ _ hc => hc.setPc hw (hnot _)

/-- Calls that are notified are not blocked any more. -/
theorem Called.notifyAll (h : Called s) (c : Condition) : Called (s.notifyAll c) :=
  h.mono (fun _ _ hb => (wake_eq_blocked_iff.mp hb).1) (fun _ _ _ hr => .inl hr)
    fun _ _ _ hc => hc

theorem Called.notifyConsumers (h : Called s) : Called s.notifyConsumers :=
  h.mono (fun _ _ hb => hb) (fun _ _ _ hr => .inl hr) fun _ _ _ hc => hc.notifyConsumers

/-- The worker that notifies goes on. -/
theorem Called.setPc_notifyAll (h : Called s) {pc : WorkerPc} (hw : s.threads[t]? = some w)
    (hnot : ∀ d, d ≠ c → ¬ w.Notifies d) : Called ((s.notifyAll c).setPc t w pc) :=
  h.mono (fun _ _ hb => (wake_eq_blocked_iff.mp hb).1) (fun _ _ _ hr => .inl hr)
    fun _ _ hb hc => Coming.setPc (s := s.notifyAll c) hc hw
      (hnot _ (wake_eq_blocked_iff.mp hb).2)

theorem Called.setCall (h : Called s) {pc : CallPc}
    (hpc : ∀ call, pc = .blocked call → ¬ s.Ready call) : Called (s.setCall i pc) := by
  intro j call hblocked
  by_cases hj : j = i
  · subst hj
    exact .inl (hpc call (by simpa [State.setCall] using hblocked))
  · exact h j call (by simpa [State.setCall, hj] using hblocked)

theorem Called.emplace (h : Called s) : Called (s.emplace i) := by
  have hset : Called (s.setCall i (.returned .enqueue)) := h.setCall (by rintro call ⟨⟩)
  refine hset.mono (fun _ _ hb => hb) (fun j call _ hr => .inl ?_) fun _ _ _ hc => hc
  cases call with
  | enqueue =>
    refine hr.imp_left fun hlt => ?_
    simp only [State.emplace, List.length_append] at hlt
    exact lt_of_le_of_lt (Nat.le_add_right _ _) hlt
  | waitUntilEmpty => simp [Ready, State.emplace] at hr
  | waitUntilNothingInFlight => simp [Ready, State.emplace] at hr

theorem Called.notifyOne (h : Called s) (wake : Option Consumer) : Called (s.notifyOne wake) := by
  have hcall := s.call_notifyOne wake
  obtain ⟨threads, dtor, heq, -⟩ := s.notifyOne_eq wake
  refine h.mono (fun i call hb => hcall ▸ hb) (fun i call _ hr => .inl ?_)
    fun _ _ _ hc => hc.notifyOne wake
  rw [heq] at hr
  exact hr

theorem Called.pop (h : Called s) {task : Task} {tasks : List Task} {notify : Bool}
    (hw : s.threads[t]? = some w) (hpc : w.pc = .awake) (htasks : s.tasks = task :: tasks)
    (hnotify : notify = decide (tasks.length + 1 = s.maxQueueSize ∨ tasks = [])) :
    Called { s.setPc t w (.popped task notify) with
      tasks := tasks, taken := s.taken ++ [task] } := by
  have hlt := (List.getElem?_eq_some_iff.mp hw).1
  have hcomes : notify = true → Coming { s.setPc t w (.popped task notify) with
      tasks := tasks, taken := s.taken ++ [task] } .producers := by
    rintro rfl
    exact ⟨_, List.mem_set hlt _, task, rfl⟩
  refine h.mono (fun _ _ hb => hb) (fun j call _ hr => ?_) fun _ call _ hc => ?_
  · cases call with
    | enqueue =>
      by_cases hready : s.Ready .enqueue
      · exact .inl hready
      · refine .inr (hcomes ?_)
        simp only [Ready, not_or, htasks, List.length_cons, State.setPc] at hready hr
        have hlimit := hr.resolve_right hready.2
        rw [hnotify, decide_eq_true_eq]
        exact .inl (by omega)
    | waitUntilEmpty =>
      refine .inr (hcomes ?_)
      rw [hnotify, decide_eq_true_eq]
      exact .inr hr
    | waitUntilNothingInFlight => exact .inl hr
  · exact Coming.setPc hc hw (Worker.not_notifies (by simp [hpc]) (by simp [hpc]) _)

theorem Called.decrement (h : Called s) (hw : s.threads[t]? = some w) (hpc : w.pc = .ran) :
    Called { s.setPc t w (if s.inFlight = 1 then .last else .awake) with
      inFlight := s.inFlight - 1 } := by
  have hlt := (List.getElem?_eq_some_iff.mp hw).1
  refine h.mono (fun _ _ hb => hb) (fun j call _ hr => ?_) fun _ call _ hc => ?_
  · cases call with
    | waitUntilNothingInFlight =>
      by_cases hone : s.inFlight = 1
      · refine .inr ⟨_, List.mem_set hlt _, ?_⟩
        simp [Worker.Notifies, Call.condition, hone]
      · have hzero : s.inFlight - 1 = 0 := hr
        exact .inl (show s.inFlight = 0 by omega)
    | enqueue => exact .inl hr
    | waitUntilEmpty => exact .inl hr
  · exact Coming.setPc hc hw (Worker.not_notifies (by simp [hpc]) (by simp [hpc]) _)

theorem Called.move (h : Called s) (hwell : WellFormed s) (hm : Move s u) : Called u := by
  cases hm with
  | stay => exact h
  | block _ hready => exact h.setCall (by rintro call ⟨⟩; exact hready)
  | settle _ hpassive => exact h.setCall (by rintro call rfl; exact hpassive.elim)
  | emplace => exact h.emplace.notifyOne _
  | @limit m hm =>
    refine h.mono (fun _ _ hb => hb) (fun j call _ hr => .inl ?_) fun _ _ _ hc => hc
    cases call with
    | enqueue => exact hr.imp_left fun hlt => Nat.lt_of_lt_of_le hlt hm
    | _ => exact hr
  | raise =>
    refine h.mono (fun _ _ hb => (wake_eq_blocked_iff.mp hb).1) (fun j call hb hr => .inl ?_)
      fun _ _ _ hc => hc
    cases call with
    | waitUntilNothingInFlight => exact hr
    | _ => exact absurd rfl (wake_eq_blocked_iff.mp hb).2
  | grow _ hlimit hstart =>
    obtain ⟨workers, new, rfl, -⟩ := hwell.grow_eq hlimit hstart
    exact h.mono (fun _ _ hb => hb) (fun _ _ _ hr => .inl hr)
      fun _ _ _ ⟨w, hw, hnotifies⟩ => ⟨w, List.mem_append_left _ hw, hnotifies⟩
  | shrink =>
    exact h.notifyConsumers.mono (fun _ _ hb => hb) (fun _ _ _ hr => .inl hr) fun _ _ _ hc => hc
  | destroy _ hjoin =>
    have hnotified : Called ({ s with stop := true, poolSize := 0 }.notifyConsumers.notifyAll
        .producers) := by
      refine h.notifyConsumers.mono (fun _ _ hb => (wake_eq_blocked_iff.mp hb).1)
        (fun j call hb hr => .inl ?_) fun _ _ _ hc => hc
      cases call with
      | waitUntilNothingInFlight => exact hr
      | _ => exact absurd rfl (wake_eq_blocked_iff.mp hb).2
    rcases join_eq hjoin with ⟨-, -, rfl⟩ | ⟨-, rfl⟩ <;> exact hnotified
  | join _ hjoin =>
    rcases join_eq hjoin with ⟨-, -, rfl⟩ | ⟨-, rfl⟩ <;> exact h
  | wake => exact h.notifyOne (some _)
  | sleep hw hpc => exact h.setPc hw (Worker.not_notifies (by simp [hpc]) (by simp [hpc]))
  | @leave t w _ hw hpc _ hleave =>
    obtain ⟨workers, -, rfl⟩ := leave_eq hleave
    have hexit : Called (s.setPc t w .exited) :=
      h.setPc hw (Worker.not_notifies (by simp [hpc]) (by simp [hpc]))
    split
    · exact hexit.notifyConsumers
    · exact hexit
  | pop hw hpc htasks _ hnotify => exact h.pop hw hpc htasks hnotify
  | @run t w task notify hw hpc =>
    cases notify with
    | false => exact h.setPc hw (Worker.not_notifies (by simp [hpc]) (by simp [hpc]))
    | true =>
      refine h.setPc_notifyAll hw fun c hc => ?_
      cases c with
      | producers => exact absurd rfl hc
      | inFlight => simp [Worker.Notifies, hpc]
  | finish hw hpc =>
    have hran : Called (s.setPc _ _ .ran) :=
      h.setPc hw (Worker.not_notifies (by simp [hpc]) (by simp [hpc]))
    exact hran
  | decrement hw hpc => exact h.decrement hw hpc
  | notify hw hpc =>
    refine h.setPc_notifyAll hw fun c hc => ?_
    cases c with
    | producers => simp [Worker.Notifies, hpc]
    | inFlight => exact absurd rfl hc

end Called

section Joining

theorem DtorPc.wake_ne_waiting (pc : DtorPc) : pc.wake ≠ .waiting := by
  cases pc <;> simp [DtorPc.wake]

/-- The last worker to stop notifies the destructor. -/
theorem Joining.move (h : Joining s) (hwell : WellFormed s) (hm : Move s u) : Joining u := by
  cases hm with
  | stay | block | settle | limit | raise | sleep | pop | finish | decrement | notify => exact h
  | @emplace i wake =>
    rcases wake with - | t | -
    · exact h
    · exact h
    · exact fun hd => absurd hd (DtorPc.wake_ne_waiting _)
  | grow hstop hlimit hstart =>
    obtain ⟨workers, new, rfl, -⟩ := hwell.grow_eq hlimit hstart
    intro hd
    rw [show s.dtor = .before from hwell.raised.mpr hstop] at hd
    cases hd
  | shrink => exact fun hd => absurd hd (DtorPc.wake_ne_waiting _)
  | destroy _ hjoin | join _ hjoin =>
    rcases join_eq hjoin with ⟨-, -, rfl⟩ | ⟨hne, rfl⟩
    · rintro ⟨⟩
    · exact fun _ => hne
  | @wake c =>
    cases c with
    | worker t => exact h
    | dtor => exact fun hd => absurd hd (DtorPc.wake_ne_waiting _)
  | leave _ _ _ hleave =>
    obtain ⟨workers, -, rfl⟩ := leave_eq hleave
    split
    · exact fun hd => absurd hd (DtorPc.wake_ne_waiting _)
    · next hne => exact fun _ => hne
  | @run t w task notify => cases notify <;> exact h

end Joining

theorem blocking_of_run {threads : ℕ} {s₀ : State} (hcreate : create threads = some s₀)
    (h : Run Step s₀ tr s) : WellFormed s ∧ Idle s ∧ Called s ∧ Joining s := by
  have hinv := h.invariant (I := fun s => WellFormed s ∧ Idle s ∧ Called s ∧ Joining s) ?_
    fun _ _ _ hi hs => ⟨hi.1.move hs.move, hi.2.1.move hi.1 hs.move, hi.2.2.1.move hi.1 hs.move,
      hi.2.2.2.move hi.1 hs.move⟩
  · exact hinv.2
  · refine ⟨(wellFormed_create hcreate).1, ?_⟩
    obtain ⟨workers, new, heq, -, hawake⟩ := create_spec threads
    obtain rfl := Option.some.inj (heq.symm.trans hcreate)
    refine ⟨fun w hw hpc => ?_, by rintro i call ⟨⟩, by rintro ⟨⟩⟩
    rw [hawake w hw] at hpc
    cases hpc

/-- Nobody waits in vain, whatever the threads do: a worker is blocked only while the pool keeps
it and no fewer workers are about to look for tasks than there are tasks; a call is blocked
only while its predicate is false or a notification is on its way; the destructor is blocked
only while there are workers. -/
theorem run_blocked (threads : ℕ) : ∃ s₀, create threads = some s₀ ∧
    ∀ tr s, Run Step s₀ tr s →
      (∀ w ∈ s.threads, w.pc = .waiting → s.stop = false ∧ w.number < s.poolSize ∧
        s.tasks.length ≤ total (Worker.ready s.poolSize) s.threads) ∧
      (∀ i call, s.call i = .blocked call → ¬ s.Ready call ∨ s.Coming call.condition) ∧
      (s.dtor = .waiting → s.workers ≠ []) := by
  obtain ⟨workers, new, heq, -⟩ := create_spec threads
  exact ⟨_, heq, fun tr s h => (blocking_of_run heq h).2⟩

end State

end Vs17.Pool
