import Vs17.Pool.Blocking

/-! # The pool comes to rest

The workers and the destructor, left to themselves, finish every task that has been
submitted, and the destructor returns if it has been entered. A worker that is not blocked
can always make its next step, and no step is made twice for the same task. This rests on
tasks that return by themselves: one that waits in `enqueue` for room, in a pool whose other
workers do the same, never does.
-/

namespace Vs17.Pool

open Runs Population

/-- A bound on the steps that a worker makes before it looks for another task, and on the
notification it may leave behind. -/
def Worker.left (w : Worker) : ℕ :=
  match w.pc with
  | .popped _ _ => 6
  | .running _ => 5
  | .ran => 4
  | .last => 3
  | .awake => 2
  | .waiting | .exited => 0

def DtorPc.left : DtorPc → ℕ
  | .woken => 1
  | .before | .waiting | .returned => 0

namespace State

variable {s u : State} {e : Event} {t : ℕ} {w : Worker} {tr : List (State × Event)}

/-- A step of a worker, its task's return included, or of the destructor behind its wait. -/
def Own (s : State) (e : Event) (u : State) : Prop :=
  Step s e u ∧ ((∃ t, e = .worker t) ∨ e = .join)

/-- A bound on the steps that are left. -/
def left (s : State) : ℕ := 5 * s.tasks.length + total Worker.left s.threads + s.dtor.left

section Rank

/-- A worker goes on, and gets nearer to its rest. -/
theorem left_advance {pc : WorkerPc} {tasks taken finished : List Task} {inFlight : ℕ}
    (hw : s.threads[t]? = some w)
    (hcount : 5 * tasks.length + Worker.left { w with pc := pc } < 5 * s.tasks.length + w.left) :
    left { s.setPc t w pc with
      tasks := tasks, taken := taken, finished := finished, inFlight := inFlight } < left s := by
  have hmoved := total_set (f := Worker.left) (b := { w with pc := pc }) hw
  change 5 * tasks.length + total Worker.left (s.threads.set t { w with pc := pc }) + s.dtor.left <
    5 * s.tasks.length + total Worker.left s.threads + s.dtor.left
  omega

theorem left_setPc {pc : WorkerPc} (hw : s.threads[t]? = some w)
    (hcount : Worker.left { w with pc := pc } < w.left) : left (s.setPc t w pc) < left s :=
  left_advance hw (by omega)

/-- The last worker wakes the destructor, and nobody else is there to be woken. -/
theorem left_leave (h : WellFormed s) (hw : s.threads[t]? = some w) (hpc : w.pc = .awake)
    (hexit : s.stop = true ∧ s.tasks = [] ∨ s.stop = false ∧ s.poolSize ≤ w.number)
    (hleave : s.leave t w = some u) : left u < left s := by
  have hwell := h.leave hw hpc hexit hleave
  have hmoved := total_set (f := Worker.left) (b := { w with pc := .exited }) hw
  simp only [Worker.left, hpc] at hmoved
  obtain ⟨workers, -, rfl⟩ := leave_eq hleave
  split
  · next hnil =>
    rw [if_pos hnil] at hwell
    have hrest : total Worker.left
        ((s.threads.set t { w with pc := .exited }).map Worker.wake) = 0 := by
      refine total_eq_zero fun v hv => ?_
      obtain ⟨k, hk⟩ := List.mem_iff_getElem?.mp hv
      simp [Worker.left, hwell.exited hnil hk]
    have hdtor : s.dtor.wake.left ≤ 1 := by cases s.dtor <;> simp [DtorPc.wake, DtorPc.left]
    change 5 * s.tasks.length + total Worker.left ((s.threads.set t _).map Worker.wake) +
      s.dtor.wake.left < 5 * s.tasks.length + total Worker.left s.threads + s.dtor.left
    omega
  · change 5 * s.tasks.length + total Worker.left (s.threads.set t _) + s.dtor.left <
      5 * s.tasks.length + total Worker.left s.threads + s.dtor.left
    omega

theorem left_work (h : WellFormed s) (hw : s.threads[t]? = some w) (hwaiting : w.pc ≠ .waiting)
    (hexited : w.pc ≠ .exited) (hwork : s.work t w = some u) : left u < left s := by
  cases hpc : w.pc with
  | awake =>
    simp only [work, hpc] at hwork
    split at hwork
    · cases hwork
      exact left_setPc hw (by simp [Worker.left, hpc])
    · next hstay =>
      split at hwork
      · next hexit =>
        exact left_leave h hw hpc (hexit.imp_right fun hl => ⟨hl.1, by omega⟩) hwork
      · next hkept =>
        cases htasks : s.tasks with
        | nil =>
          -- the branch that continues is not reached
          exfalso
          simp only [htasks] at hstay hkept
          cases hstop : s.stop <;> simp_all
        | cons task tasks =>
          simp only [htasks, Option.some.injEq] at hwork
          subst hwork
          exact left_advance hw (by simp [Worker.left, hpc, htasks]; omega)
  | waiting => exact absurd hpc hwaiting
  | exited => exact absurd hpc hexited
  | popped task notify =>
    simp only [work, hpc, Option.some.injEq] at hwork
    subst hwork
    have hless : Worker.left { w with pc := .running task } < w.left := by simp [Worker.left, hpc]
    cases notify
    · exact left_setPc hw hless
    · exact left_setPc (s := s.notifyAll .producers) hw hless
  | running task =>
    simp only [work, hpc, Option.some.injEq] at hwork
    subst hwork
    exact left_advance hw (by simp [Worker.left, hpc, State.setPc])
  | ran =>
    simp only [work, hpc, Option.some.injEq] at hwork
    subst hwork
    refine left_advance hw ?_
    by_cases hone : s.inFlight = 1 <;> simp [Worker.left, hpc, hone, State.setPc]
  | last =>
    simp only [work, hpc, Option.some.injEq] at hwork
    subst hwork
    exact left_setPc (s := s.notifyAll .inFlight) hw (by simp [Worker.left, hpc])

theorem left_own (h : WellFormed s) (hs : Own s e u) : left u < left s := by
  obtain ⟨⟨hp, hhandle⟩, ⟨t, rfl⟩ | rfl⟩ := hs
  · simp only [Pending] at hp
    simp only [handle] at hhandle
    split at hp
    · next w hw =>
      simp only [hw] at hhandle
      exact left_work h hw hp.1 hp.2 hhandle
    · exact hp.elim
  · have hd : s.dtor = .woken := hp
    rcases join_eq hhandle with ⟨-, -, rfl⟩ | ⟨-, rfl⟩ <;> simp [left, hd, DtorPc.left]

end Rank

section Progress

/-- Everything that was submitted is finished, and the destructor has returned if it was entered. -/
def Settled (s : State) : Prop :=
  s.finished.Perm s.submitted ∧ (s.dtor ≠ .before → s.dtor = .returned)

/-- A running worker that is not blocked makes its next step. -/
theorem exists_own_worker (h : WellFormed s) (hw : s.threads[t]? = some w)
    (hwaiting : w.pc ≠ .waiting) (hexited : w.pc ≠ .exited) : ∃ e u, Own s e u := by
  obtain ⟨u, hu⟩ := Option.ne_none_iff_exists'.mp
    (mt h.handle_eq_none_iff.mp (by simp) : s.handle (.worker t) ≠ none)
  exact ⟨.worker t, u, ⟨by simp [Pending, hw, hwaiting, hexited], hu⟩, .inl ⟨t, rfl⟩⟩

/-- There is a worker that is not blocked as long as there are tasks, or once the pool is to
stop. -/
theorem exists_awake (h : WellFormed s) (hidle : Idle s) (hworkers : s.workers ≠ [])
    (hwork : s.tasks ≠ [] ∨ s.stop = true) : ∃ e u, Own s e u := by
  obtain ⟨p, hp, hruns⟩ := h.roster.exists_post hworkers
  obtain ⟨w, hw, rfl⟩ := List.mem_map.mp hp
  have hexited : w.pc ≠ .exited := by simpa [Worker.post] using hruns
  by_cases hwaiting : w.pc = .waiting
  · obtain ⟨hstop, -, hle⟩ := hidle w hw hwaiting
    have htasks := List.length_pos_of_ne_nil (hwork.resolve_right (by simp [hstop]))
    -- somebody else is about to look for the task
    have hready : total (Worker.ready s.poolSize) s.threads ≠ 0 := by omega
    rw [ne_eq, total_eq_zero_iff] at hready
    push Not at hready
    obtain ⟨v, hv, hawake⟩ := hready
    have hvpc : v.pc = .awake := by
      unfold Worker.ready at hawake
      split at hawake
      · next hv => exact hv.1
      · exact absurd rfl hawake
    obtain ⟨t, ht⟩ := List.mem_iff_getElem?.mp hv
    exact exists_own_worker h ht (by simp [hvpc]) (by simp [hvpc])
  · obtain ⟨t, ht⟩ := List.mem_iff_getElem?.mp hw
    exact exists_own_worker h ht hwaiting hexited

theorem exists_own (h : WellFormed s) (hacc : Accounted s) (hidle : Idle s) (hjoining : Joining s)
    (hthreads : s.threads ≠ []) (hsettled : ¬ Settled s) : ∃ e u, Own s e u := by
  by_cases htasks : s.tasks = []
  · by_cases hbusy : total Worker.busy s.threads = 0
    · -- everything is finished, so it is the destructor that has not returned
      have hzero : s.inFlight = 0 := by simp [h.counted, htasks, hbusy]
      have hd : s.dtor ≠ .before ∧ s.dtor ≠ .returned := by
        simpa [Settled, hacc.finished_perm h hzero] using hsettled
      have hstop : s.stop = true := by
        by_contra hstop
        exact hd.1 (h.raised.mpr (Bool.eq_false_of_not_eq_true hstop))
      cases hdtor : s.dtor with
      | before => exact absurd hdtor hd.1
      | returned => exact absurd hdtor hd.2
      | waiting => exact exists_awake h hidle (hjoining hdtor) (.inr hstop)
      | woken =>
        obtain ⟨u, hu⟩ := Option.ne_none_iff_exists'.mp
          (mt h.handle_eq_none_iff.mp (by simp [hthreads]) : s.handle .join ≠ none)
        exact ⟨.join, u, ⟨hdtor, hu⟩, .inr rfl⟩
    · rw [total_eq_zero_iff] at hbusy
      push Not at hbusy
      obtain ⟨w, hw, hbusy⟩ := hbusy
      obtain ⟨t, ht⟩ := List.mem_iff_getElem?.mp hw
      apply exists_own_worker h ht
      · rintro hpc
        simp [Worker.busy, hpc] at hbusy
      · rintro hpc
        simp [Worker.busy, hpc] at hbusy
  · exact exists_awake h hidle (h.served htasks hthreads) (.inl htasks)

/-- Whatever has been called, and in whichever order the workers and the destructor go on, with
tasks that return by themselves: the tasks submitted are all finished, and the destructor
returns if it was entered. -/
theorem run_settles {threads : ℕ} (hpos : 0 < threads) : ∃ s₀, create threads = some s₀ ∧
    ∀ tr s, Run Step s₀ tr s → Inevitable Own Settled s := by
  obtain ⟨workers, new, heq, -⟩ := create_spec threads
  refine ⟨_, heq, fun tr s h => ?_⟩
  obtain ⟨hwell, hidle, -, hjoining⟩ := blocking_of_run heq h
  refine Inevitable.of_rank (I := fun s => WellFormed s ∧ Accounted s ∧ Idle s ∧ Joining s ∧
    s.threads ≠ []) left ?_ ?_ ⟨hwell, (accounted_of_run heq h).2.1, hidle, hjoining,
      (wellFormed_of_run heq h).2 hpos⟩
  · rintro s ⟨hwell, hacc, hidle, hjoining, hthreads⟩ hsettled
    exact exists_own hwell hacc hidle hjoining hthreads hsettled
  · rintro s e u ⟨hwell, hacc, hidle, hjoining, hthreads⟩ - hs
    have hm := hs.1.move
    exact ⟨⟨hwell.move hm, hacc.move hwell hm, hidle.move hwell hm, hjoining.move hwell hm,
      hwell.threads_move hm hthreads⟩, left_own hwell hs⟩

theorem run_settles_one : ∃ s₀, create 1 = some s₀ ∧
    ∀ tr s, Run Step s₀ tr s → Inevitable Own Settled s := run_settles (by decide)

end Progress

end State

end Vs17.Pool
