import Vs17.Pool.ThreadPool

/-! # What a step of the pool can do

Every step, whichever thread makes it, is one of a few changes of the pool, and each of
them is made under a guard.
-/

namespace Vs17.Pool

open Runs Population

/-- A call that has neither returned nor thrown. -/
def CallPc.Open : CallPc → Prop
  | .idle | .blocked _ | .woken _ => True
  | .returned _ | .threw => False

/-- Where a call gets to without emplacing a task and without blocking. -/
def CallPc.Passive : CallPc → Prop
  | .woken _ | .threw => True
  | .returned call => call ≠ .enqueue
  | .idle | .blocked _ => False

namespace State

variable {s u : State} {e : Event} {i t k : ℕ} {w : Worker} {c : Call} {wake : Option Consumer}

/-- The changes that a step can make. -/
inductive Move (s : State) : State → Prop
  | stay : Move s s
  | block {i : ℕ} {c : Call} : (s.call i).Open → ¬ s.Ready c → Move s (s.setCall i (.blocked c))
  | settle {i : ℕ} {pc : CallPc} : (s.call i).Open → pc.Passive →
      (∀ c, pc = .returned c → s.Ready c) → Move s (s.setCall i pc)
  | emplace {i : ℕ} {wake : Option Consumer} : (s.call i).Open → s.stop = false →
      s.tasks.length < s.maxQueueSize → s.Chosen wake → Move s ((s.emplace i).notifyOne wake)
  | limit {m : ℕ} : m ≤ s.maxQueueSize → Move s { s with maxQueueSize := m }
  | raise {m : ℕ} : Move s ({ s with maxQueueSize := m }.notifyAll .producers)
  | grow {limit : ℕ} {u : State} : s.stop = false → s.poolSize < limit →
      { s with poolSize := limit }.startWorkers s.poolSize (limit - s.poolSize) = some u → Move s u
  | shrink {limit : ℕ} : s.stop = false → 0 < limit → limit < s.poolSize →
      Move s { s with poolSize := limit }.notifyConsumers
  | destroy {u : State} : s.dtor = .before → s.destroy = some u → Move s u
  | join {u : State} : s.dtor = .woken → s.join = some u → Move s u
  | wake {c : Consumer} : s.Waiting c → Move s (s.wake c)
  | sleep {t : ℕ} {w : Worker} : s.threads[t]? = some w → w.pc = .awake → s.stop = false →
      s.tasks = [] → w.number < s.poolSize → Move s (s.setPc t w .waiting)
  | leave {t : ℕ} {w : Worker} {u : State} : s.threads[t]? = some w → w.pc = .awake →
      (s.stop = true ∧ s.tasks = [] ∨ s.stop = false ∧ s.poolSize ≤ w.number) →
      s.leave t w = some u → Move s u
  | pop {t : ℕ} {w : Worker} {task : Task} {tasks : List Task} {notify : Bool} :
      s.threads[t]? = some w → w.pc = .awake → s.tasks = task :: tasks →
      (s.stop = false → w.number < s.poolSize) →
      notify = decide (tasks.length + 1 = s.maxQueueSize ∨ tasks = []) →
      Move s { s.setPc t w (.popped task notify) with tasks := tasks, taken := s.taken ++ [task] }
  | run {t : ℕ} {w : Worker} {task : Task} {notify : Bool} : s.threads[t]? = some w →
      w.pc = .popped task notify →
      Move s ((if notify then s.notifyAll .producers else s).setPc t w (.running task))
  | finish {t : ℕ} {w : Worker} {task : Task} : s.threads[t]? = some w → w.pc = .running task →
      Move s { s.setPc t w .ran with finished := s.finished ++ [task] }
  | decrement {t : ℕ} {w : Worker} : s.threads[t]? = some w → w.pc = .ran →
      Move s { s.setPc t w (if s.inFlight = 1 then .last else .awake)
        with inFlight := s.inFlight - 1 }
  | notify {t : ℕ} {w : Worker} : s.threads[t]? = some w → w.pc = .last →
      Move s ((s.notifyAll .inFlight).setPc t w .awake)

/-- The test that `enqueue` makes before its wait is part of the predicate it waits for. -/
theorem enter_eq_wait (s : State) (i : ℕ) (wake : Option Consumer) (c : Call) :
    s.enter i wake c = s.wait i wake c := by
  cases c with
  | enqueue =>
    rw [enter]
    split
    · rfl
    · next hroom => rw [wait, if_pos (show s.Ready .enqueue from .inl (by omega))]
  | _ => rfl

theorem move_wait (hopen : (s.call i).Open) (hwake : s.Chosen wake) :
    Move s (s.wait i wake c) := by
  unfold wait
  split
  · next hready =>
    cases c with
    | enqueue =>
      rw [proceed]
      split
      · exact .settle hopen trivial (by rintro c ⟨⟩)
      · next hstop =>
        have hstop : s.stop = false := Bool.eq_false_of_not_eq_true hstop
        exact .emplace hopen hstop (hready.resolve_right (by simp [hstop])) hwake
    | waitUntilEmpty =>
      exact .settle hopen (by rintro ⟨⟩) (by rintro c ⟨⟩; exact hready)
    | waitUntilNothingInFlight =>
      exact .settle hopen (by rintro ⟨⟩) (by rintro c ⟨⟩; exact hready)
  · next hready => exact .block hopen hready

theorem move_setQueueSizeLimit (s : State) (limit : ℕ) : Move s (s.setQueueSizeLimit limit) := by
  unfold setQueueSizeLimit
  split
  · exact .stay
  · split
    · exact .raise
    · next hlimit => exact .limit (Nat.le_of_not_lt hlimit)

theorem move_setPoolSize {limit : ℕ} (h : s.setPoolSize limit = some u) : Move s u := by
  unfold setPoolSize at h
  split at h
  · cases h
    exact .stay
  · next hstop =>
    have hstop : s.stop = false := Bool.eq_false_of_not_eq_true hstop
    split at h
    · cases h
    · split at h
      · next hlt => exact .grow hstop hlt h
      · split at h
        · next hgt =>
          cases h
          exact .shrink hstop (by omega) hgt
        · cases h
          exact .stay

theorem move_awake (hw : s.threads[t]? = some w) (hpc : w.pc = .awake)
    (h : s.work t w = some u) : Move s u := by
  simp only [work, hpc] at h
  split at h
  · next hsleep =>
    cases h
    simp only [not_or, not_not, Bool.not_eq_true] at hsleep
    exact .sleep hw hpc hsleep.1 hsleep.2.1 (by omega)
  · split at h
    · next hleave =>
      exact .leave hw hpc (hleave.imp_right fun hl => ⟨hl.1, by omega⟩) h
    · next hstay =>
      cases htasks : s.tasks with
      | nil =>
        simp only [htasks, Option.some.injEq] at h
        exact h ▸ .stay
      | cons task tasks =>
        simp only [htasks, Option.some.injEq] at h
        subst h
        refine .pop hw hpc htasks (fun hstop => ?_) rfl
        by_contra hnumber
        exact hstay (.inr ⟨hstop, by omega⟩)

theorem move_work (hw : s.threads[t]? = some w) (h : s.work t w = some u) : Move s u := by
  cases hpc : w.pc with
  | awake => exact move_awake hw hpc h
  | waiting | exited =>
    simp only [work, hpc, Option.some.injEq] at h
    exact h ▸ .stay
  | popped task notify =>
    simp only [work, hpc, Option.some.injEq] at h
    exact h ▸ .run hw hpc
  | running task =>
    simp only [work, hpc, Option.some.injEq] at h
    exact h ▸ .finish hw hpc
  | ran =>
    simp only [work, hpc, Option.some.injEq] at h
    exact h ▸ .decrement hw hpc
  | last =>
    simp only [work, hpc, Option.some.injEq] at h
    exact h ▸ .notify hw hpc

theorem Step.move (hs : Step s e u) : Move s u := by
  obtain ⟨hp, h⟩ := hs
  cases e with
  | enter i c wake =>
    cases h
    rw [enter_eq_wait]
    exact move_wait (by rw [hp.1]; trivial) hp.2.2
  | resume i wake =>
    simp only [Pending] at hp
    simp only [handle] at h
    split at hp
    · next c hcall =>
      simp only [hcall, Option.some.injEq] at h
      exact h ▸ move_wait (by rw [hcall]; trivial) hp.2
    · exact hp.elim
  | setQueueSizeLimit limit =>
    cases h
    exact move_setQueueSizeLimit s limit
  | setPoolSize limit => exact move_setPoolSize h
  | destroy => exact .destroy hp h
  | join => exact .join hp h
  | worker t =>
    simp only [Pending] at hp
    simp only [handle] at h
    split at hp
    · next w hw =>
      simp only [hw] at h
      exact move_work hw h
    · exact hp.elim
  | wakeConsumer c =>
    cases h
    exact .wake hp
  | wakeCall i =>
    simp only [Pending] at hp
    simp only [handle] at h
    split at hp
    · next c hcall =>
      simp only [hcall, Option.some.injEq] at h
      exact h ▸ .settle (by rw [hcall]; trivial) trivial (by rintro c ⟨⟩)
    · exact hp.elim

end State

end Vs17.Pool
