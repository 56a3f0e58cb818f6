import Vs17.Pool.Moves

/-! # The vector of workers

A thread has a post: its number, and whether it still runs. The elements of `workers` that
are joinable are those of the threads that still run, each under the number of its thread,
so that no number is given to two of them. All numbers below `pool_size` are held, and
behind them the vector ends with a number that is held.
-/

namespace Vs17.Pool

open Runs Population

section Vector

open State (downsize)

variable {workers : List (Option ℕ)} {posts : List (ℕ × Bool)} {n t size k : ℕ}

/-- Threads with these posts are at the elements of `workers`, and the numbers below `size`
are held. -/
structure Roster (workers : List (Option ℕ)) (size : ℕ) (posts : List (ℕ × Bool)) : Prop where
  joinable : ∀ n t : ℕ, workers[n]? = some (some t) ↔ posts[t]? = some (n, true)
  staffed : ∀ n < size, ∃ t, workers[n]? = some (some t)
  trimmed : size < workers.length → ∃ t, workers.getLast? = some (some t)

section Downsize

/-- What is taken off the end of the vector is not joinable, and it is taken off as long as
something joinable does not stand behind it. -/
theorem downsize_spec (h : k ≤ workers.length) :
    ∃ j ≤ k, workers = downsize workers k ++ List.replicate j none ∧
      (workers.length - k < (downsize workers k).length →
        (downsize workers k).getLast? ≠ some none) := by
  induction k generalizing workers with
  | zero => exact ⟨0, le_rfl, by simp [downsize], fun hlt => by simp [downsize] at hlt⟩
  | succ k ih =>
    unfold downsize
    split
    · next hlast =>
      have hne : workers ≠ [] := by rintro rfl; simp at hlast
      have hsplit : workers = workers.dropLast ++ [none] := by
        rw [List.getLast?_eq_some_getLast hne, Option.some.injEq] at hlast
        rw [← hlast, List.dropLast_append_getLast]
      obtain ⟨j, hj, heq, hkept⟩ := @ih workers.dropLast (by simp; omega)
      refine ⟨j + 1, by omega, ?_, fun hlt => hkept ?_⟩
      · rw [List.replicate_succ', ← List.append_assoc, ← heq]
        exact hsplit
      · rw [List.length_dropLast]
        omega
    · next hlast => exact ⟨0, by omega, by simp, fun _ => hlast⟩

/-- The elements in front stay, and those taken off were not joinable. -/
theorem getElem?_downsize (h : k ≤ workers.length) :
    (downsize workers k)[n]? = some (some t) ↔ workers[n]? = some (some t) := by
  obtain ⟨j, -, heq, -⟩ := downsize_spec h
  conv_rhs => rw [heq]
  rcases Nat.lt_or_ge n (downsize workers k).length with hlt | hge
  · rw [List.getElem?_append_left hlt]
  · rw [List.getElem?_append_right hge, List.getElem?_eq_none hge, List.getElem?_replicate]
    split <;> simp

end Downsize

namespace Roster

variable (h : Roster workers size posts)

include h

theorem sized : size ≤ workers.length := by
  by_contra hlt
  obtain ⟨t, ht⟩ := h.staffed workers.length (by omega)
  simp at ht

/-- No number is held by two threads. -/
theorem unique {t u : ℕ} (ht : posts[t]? = some (n, true)) (hu : posts[u]? = some (n, true)) :
    t = u := by
  have hslots := ((h.joinable n t).mpr ht).symm.trans ((h.joinable n u).mpr hu)
  simpa using hslots

/-- The vector is empty as soon as no thread runs and none is asked for. -/
theorem eq_nil_iff : workers = [] ↔ size = 0 ∧ ∀ p ∈ posts, p.2 = false := by
  constructor
  · rintro rfl
    refine ⟨Nat.le_zero.mp h.sized, fun p hp => ?_⟩
    obtain ⟨t, ht⟩ := List.mem_iff_getElem?.mp hp
    by_contra hruns
    have hp' : p = (p.1, true) := Prod.ext rfl (Bool.eq_true_of_not_eq_false hruns)
    have hslot := (h.joinable p.1 t).mpr (hp' ▸ ht)
    simp at hslot
  · rintro ⟨rfl, hexited⟩
    by_contra hne
    obtain ⟨t, ht⟩ := h.trimmed (List.length_pos_of_ne_nil hne)
    rw [List.getLast?_eq_getElem?] at ht
    have hpost := (h.joinable _ t).mp ht
    simpa using hexited _ (List.mem_of_getElem? hpost)

theorem exists_post (hne : workers ≠ []) : ∃ p ∈ posts, p.2 = true := by
  by_contra hexited
  push Not at hexited
  have hsize : size ≠ 0 := fun hsize =>
    hne (h.eq_nil_iff.mpr ⟨hsize, fun p hp => Bool.eq_false_of_not_eq_true (hexited p hp)⟩)
  obtain ⟨t, ht⟩ := h.staffed 0 (by omega)
  exact hexited _ (List.mem_of_getElem? ((h.joinable 0 t).mp ht)) rfl

/-- Fewer numbers need to be held. -/
theorem shrink (hk : k ≤ size) : Roster workers k posts := by
  refine ⟨h.joinable, fun n hn => h.staffed n (hn.trans_le hk), fun hlt => ?_⟩
  rcases Nat.lt_or_ge size workers.length with hbehind | hfull
  · exact h.trimmed hbehind
  · rw [List.getLast?_eq_getElem?]
    exact h.staffed _ (by omega)

theorem posts_lt {t : ℕ} (ht : workers[n]? = some (some t)) : t < posts.length :=
  (List.getElem?_eq_some_iff.mp ((h.joinable n t).mp ht)).1

/-- A thread stops: it detaches itself, and the vector is cut down to the numbers that are
needed. -/
theorem leave (hpost : posts[t]? = some (n, true)) (hn : size ≤ n) :
    Roster (downsize (workers.set n none) (workers.length - size)) size
      (posts.set t (n, false)) := by
  have hslot : workers[n]? = some (some t) := (h.joinable n t).mpr hpost
  have hlt : n < workers.length := (List.getElem?_eq_some_iff.mp hslot).1
  have hk : workers.length - size ≤ (workers.set n none).length := by simp
  have hslots : ∀ m u, (downsize (workers.set n none) (workers.length - size))[m]? =
      some (some u) ↔ m ≠ n ∧ workers[m]? = some (some u) := by
    intro m u
    rw [getElem?_downsize hk, List.getElem?_set]
    split
    · next hm => simp [hm.symm, hlt]
    · next hm => simp [Ne.symm hm]
  constructor
  · intro m u
    rw [hslots, h.joinable, List.getElem?_set]
    by_cases hu : t = u
    · subst hu
      rw [if_pos rfl, if_pos (h.posts_lt hslot), hpost]
      constructor
      · rintro ⟨hm, heq⟩
        simp only [Option.some.injEq, Prod.mk.injEq, and_true] at heq
        exact absurd heq.symm hm
      · rintro ⟨⟩
    · rw [if_neg hu]
      refine and_iff_right_of_imp fun hpost' => ?_
      rintro rfl
      exact hu (h.unique hpost hpost')
  · intro m hm
    obtain ⟨u, hu⟩ := h.staffed m hm
    exact ⟨u, (hslots m u).mpr ⟨by omega, hu⟩⟩
  · intro hbehind
    obtain ⟨j, -, -, hkept⟩ := downsize_spec hk
    have hlast := hkept (by simp only [List.length_set]; omega)
    cases hget : (downsize (workers.set n none) (workers.length - size)).getLast? with
    | none =>
      rw [List.getLast?_eq_none_iff] at hget
      rw [hget] at hbehind
      simp at hbehind
    | some slot =>
      cases slot with
      | none => exact absurd hget hlast
      | some u => exact ⟨u, rfl⟩

/-- A number that was needed no longer, or never, is needed again, and a thread runs under it
already. -/
theorem extend_held {u : ℕ} (hslot : workers[size]? = some (some u)) :
    Roster workers (size + 1) posts := by
  refine ⟨h.joinable, fun n hn => ?_, fun hlt => h.trimmed (by omega)⟩
  rcases Nat.lt_or_ge n size with hlt | hge
  · exact h.staffed n hlt
  · obtain rfl : n = size := by omega
    exact ⟨u, hslot⟩

/-- A thread is started under a number that none runs under. -/
theorem extend_started {workers' : List (Option ℕ)}
    (hslots : ∀ n, workers'[n]? = if n = size then some (some posts.length) else workers[n]?)
    (hfree : ∀ u, workers[size]? ≠ some (some u))
    (hlast : size + 1 < workers'.length → workers'.getLast? = workers.getLast?)
    (hlength : workers'.length = max workers.length (size + 1)) :
    Roster workers' (size + 1) (posts ++ [(size, true)]) := by
  constructor
  · intro n t
    rw [hslots]
    by_cases hn : n = size
    · subst hn
      rw [if_pos rfl, Option.some.injEq, Option.some.injEq]
      constructor
      · rintro rfl
        simp
      · intro hpost
        rcases Nat.lt_or_ge t posts.length with hlt | hge
        · rw [List.getElem?_append_left hlt] at hpost
          exact absurd ((h.joinable n t).mpr hpost) (hfree t)
        · have hbound := (List.getElem?_eq_some_iff.mp hpost).1
          simp only [List.length_append, List.length_cons, List.length_nil] at hbound
          omega
    · rw [if_neg hn, h.joinable]
      rcases Nat.lt_trichotomy t posts.length with hlt | rfl | hgt
      · rw [List.getElem?_append_left hlt]
      · simp [Ne.symm hn]
      · rw [List.getElem?_eq_none (by omega), List.getElem?_eq_none (by simp; omega)]
  · intro n hn
    rw [hslots]
    rcases Nat.lt_or_ge n size with hlt | hge
    · rw [if_neg hlt.ne]
      exact h.staffed n hlt
    · rw [if_pos (by omega)]
      exact ⟨_, rfl⟩
  · intro hbehind
    rw [hlast hbehind]
    exact h.trimmed (by omega)

end Roster

end Vector

/-- A thread's number, and whether it still runs. -/
def Worker.post (w : Worker) : ℕ × Bool := (w.number, decide (w.pc ≠ .exited))

/-- A thread holds a task, or has not yet counted it as done. -/
def Worker.busy (w : Worker) : ℕ :=
  match w.pc with
  | .popped _ _ | .running _ | .ran => 1
  | .awake | .waiting | .last | .exited => 0

namespace Worker

@[simp] theorem post_wake (w : Worker) : w.wake.post = w.post := by
  unfold wake
  split
  · next hw => simp [post, hw]
  · rfl

@[simp] theorem busy_wake (w : Worker) : w.wake.busy = w.busy := by
  unfold wake
  split
  · next hw => simp [busy, hw]
  · rfl

end Worker

namespace State

variable {s u : State} {e : Event} {t k n : ℕ} {w : Worker} {tr : List (State × Event)}

def posts (s : State) : List (ℕ × Bool) := s.threads.map Worker.post

@[simp] theorem posts_notifyConsumers (s : State) : s.notifyConsumers.posts = s.posts := by
  simp [posts, notifyConsumers]

theorem posts_setPc {pc : WorkerPc} :
    (s.setPc t w pc).posts = s.posts.set t (w.number, decide (pc ≠ .exited)) := by
  simp [posts, setPc, List.map_set, Worker.post]

/-- A thread that goes on keeps its post. -/
theorem posts_setPc_of_runs {pc : WorkerPc} (hw : s.threads[t]? = some w) (hold : w.pc ≠ .exited)
    (hnew : pc ≠ .exited) : (s.setPc t w pc).posts = s.posts := by
  have hpost : s.posts[t]? = some (w.number, true) := by simp [posts, hw, Worker.post, hold]
  obtain ⟨hlt, hpost⟩ := List.getElem?_eq_some_iff.mp hpost
  rw [posts_setPc, decide_eq_true hnew, ← hpost, List.set_getElem_self]

@[simp] theorem posts_wake (s : State) (c : Consumer) : (s.wake c).posts = s.posts := by
  cases c with
  | dtor => rfl
  | worker t =>
    unfold posts wake
    ext n
    simp only [List.getElem?_map, List.getElem?_modify]
    cases s.threads[n]? <;> simp [apply_ite Worker.post]

@[simp] theorem posts_notifyOne (s : State) (wake : Option Consumer) :
    (s.notifyOne wake).posts = s.posts := by
  cases wake <;> simp [notifyOne]

/-- What wakes a consumer changes its state and nothing else. -/
theorem notifyOne_eq (s : State) (wake : Option Consumer) : ∃ threads dtor,
    s.notifyOne wake = { s with threads := threads, dtor := dtor } ∧
      total Worker.busy threads = total Worker.busy s.threads ∧
      (dtor = .before ↔ s.dtor = .before) ∧ (threads = [] ↔ s.threads = []) := by
  rcases wake with - | t | -
  · exact ⟨_, _, rfl, rfl, Iff.rfl, Iff.rfl⟩
  · exact ⟨_, _, rfl, total_modify_of_eq Worker.busy_wake, Iff.rfl, by simp⟩
  · exact ⟨_, _, rfl, rfl, by cases s.dtor <;> simp [DtorPc.wake], Iff.rfl⟩

/-- The assertion of `start_worker` holds when all smaller numbers are held. -/
theorem startWorker_spec (h : Roster s.workers n s.posts) : ∃ workers new,
    s.startWorker n = some { s with workers := workers, threads := s.threads ++ new } ∧
      Roster workers (n + 1) (s.posts ++ new.map Worker.post) ∧ ∀ w ∈ new, w.pc = .awake := by
  have hlength : s.posts.length = s.threads.length := by simp [posts]
  unfold startWorker
  rw [if_neg (Nat.not_lt.mpr h.sized)]
  split
  · next u hslot =>
    exact ⟨s.workers, [], by simp, by simpa using h.extend_held hslot, by simp⟩
  · next hslot =>
    refine ⟨_, _, rfl, ?_, by simp⟩
    have hlt : n < s.workers.length := (List.getElem?_eq_some_iff.mp hslot).1
    apply h.extend_started
    · intro m
      rw [List.getElem?_set, hlength]
      grind
    · simp [hslot]
    · intro hbehind
      rw [List.length_set] at hbehind
      rw [List.getLast?_eq_getElem?, List.getLast?_eq_getElem?, List.length_set,
        List.getElem?_set_ne (by omega)]
    · rw [List.length_set]
      omega
  · next hslot =>
    refine ⟨_, _, rfl, ?_, by simp⟩
    have hsize : s.workers.length = n :=
      Nat.le_antisymm (List.getElem?_eq_none_iff.mp hslot) h.sized
    apply h.extend_started
    · intro m
      rw [hlength]
      grind
    · simp [hslot]
    · intro hbehind
      simp only [List.length_append, List.length_cons, List.length_nil] at hbehind
      omega
    · simp only [List.length_append, List.length_cons, List.length_nil]
      omega

/-- The loop never fails: each round starts from the numbers held by the rounds before. -/
theorem startWorkers_spec (h : Roster s.workers n s.posts) : ∃ workers new,
    s.startWorkers n k = some { s with workers := workers, threads := s.threads ++ new } ∧
      Roster workers (n + k) (s.posts ++ new.map Worker.post) ∧ (∀ w ∈ new, w.pc = .awake) := by
  induction k generalizing s n with
  | zero => exact ⟨s.workers, [], by simp [startWorkers], by simpa using h, by simp⟩
  | succ k ih =>
    obtain ⟨workers₁, new₁, heq₁, hroster₁, hawake₁⟩ := startWorker_spec h
    obtain ⟨workers₂, new₂, heq₂, hroster₂, hawake₂⟩ :=
      ih (s := { s with workers := workers₁, threads := s.threads ++ new₁ }) (n := n + 1)
        (by simpa [posts] using hroster₁)
    refine ⟨workers₂, new₁ ++ new₂, ?_, ?_, by simpa [or_imp, forall_and] using ⟨hawake₁, hawake₂⟩⟩
    · rw [startWorkers, heq₁, Option.bind_some, heq₂]
      simp
    · rw [Nat.add_assoc, Nat.add_comm 1] at hroster₂
      simpa [posts] using hroster₂

theorem leave_eq (hleave : s.leave t w = some u) : ∃ workers,
    workers = downsize (s.workers.set w.number none) (s.workers.length - s.poolSize) ∧
      u = if workers = [] then { s.setPc t w .exited with workers := workers }.notifyConsumers
        else { s.setPc t w .exited with workers := workers } := by
  unfold leave at hleave
  split at hleave
  · exact ⟨_, rfl, (Option.some.inj hleave).symm⟩
  · cases hleave

/-- What every step keeps. Behind the raised flag there is no number to be held, and before
it a pool without numbers has no threads. -/
structure WellFormed (s : State) : Prop where
  roster : Roster s.workers s.poolSize s.posts
  stopped : s.stop = true → s.poolSize = 0
  manned : s.stop = false → s.poolSize = 0 → s.threads = []
  served : s.tasks ≠ [] → s.threads ≠ [] → s.workers ≠ []
  counted : s.inFlight = s.tasks.length + total Worker.busy s.threads
  raised : s.dtor = .before ↔ s.stop = false

namespace WellFormed

variable (h : WellFormed s)

include h

/-- The pool still has workers when it still has numbers, or threads that have not been told
to stop. -/
theorem workers_ne_nil (hsize : s.poolSize ≠ 0) : s.workers ≠ [] :=
  fun hnil => hsize (h.roster.eq_nil_iff.mp hnil).1

theorem workers_ne_nil_of_running (hstop : s.stop = false) (hthreads : s.threads ≠ []) :
    s.workers ≠ [] :=
  h.workers_ne_nil fun hsize => hthreads (h.manned hstop hsize)

/-- Without workers, all threads have stopped and hold nothing. -/
theorem busy_eq_zero (hnil : s.workers = []) : total Worker.busy s.threads = 0 := by
  refine total_eq_zero_iff.mpr fun w hw => ?_
  have hexited := (h.roster.eq_nil_iff.mp hnil).2 w.post (List.mem_map_of_mem hw)
  simp only [Worker.post, ne_eq, decide_not, Bool.not_eq_false', decide_eq_true_eq] at hexited
  simp [Worker.busy, hexited]

theorem slot {t : ℕ} {w : Worker} (hw : s.threads[t]? = some w) (hpc : w.pc ≠ .exited) :
    s.workers[w.number]? = some (some t) :=
  (h.roster.joinable _ _).mpr (by simp [posts, hw, Worker.post, hpc])

/-- A thread goes on, with the queue and the counter changed to match. -/
theorem advance {pc : WorkerPc} {tasks taken finished : List Task} {inFlight : ℕ}
    (hw : s.threads[t]? = some w) (hold : w.pc ≠ .exited) (hnew : pc ≠ .exited)
    (htasks : tasks ≠ [] → s.tasks ≠ [])
    (hcount : inFlight + s.tasks.length + w.busy =
      s.inFlight + tasks.length + Worker.busy { w with pc := pc }) :
    WellFormed { s.setPc t w pc with
      tasks := tasks, inFlight := inFlight, taken := taken, finished := finished } where
  roster := by
    have hposts := posts_setPc_of_runs hw hold hnew
    exact hposts ▸ h.roster
  stopped := h.stopped
  manned hstop hsize := by simp [State.setPc, h.manned hstop hsize]
  served hne hthreads := h.served (htasks hne) (by simpa [State.setPc] using hthreads)
  counted := by
    have hmoved := total_set (f := Worker.busy) (b := { w with pc := pc }) hw
    have hcounted := h.counted
    change inFlight = tasks.length + total Worker.busy (s.threads.set t { w with pc := pc })
    omega
  raised := h.raised

/-- A thread goes on, and what it holds is counted as before. -/
theorem setPc {pc : WorkerPc} (hw : s.threads[t]? = some w) (hold : w.pc ≠ .exited)
    (hnew : pc ≠ .exited) (hbusy : Worker.busy { w with pc := pc } = w.busy) :
    WellFormed (s.setPc t w pc) :=
  h.advance hw hold hnew id (by rw [hbusy])

theorem notifyConsumers : WellFormed s.notifyConsumers where
  roster := by rw [posts_notifyConsumers]; exact h.roster
  stopped := h.stopped
  manned hstop hsize := by simp [State.notifyConsumers, h.manned hstop hsize]
  served htasks hthreads := h.served htasks (by simpa [State.notifyConsumers] using hthreads)
  counted := by
    change s.inFlight = s.tasks.length + total Worker.busy (s.threads.map Worker.wake)
    rw [total_map_of_eq Worker.busy_wake]
    exact h.counted
  raised := by
    refine Iff.trans ?_ h.raised
    cases hd : s.dtor <;> simp [State.notifyConsumers, DtorPc.wake, hd]

theorem notifyOne (wake : Option Consumer) : WellFormed (s.notifyOne wake) := by
  obtain ⟨threads, dtor, heq, hbusy, hdtor, hnil⟩ := s.notifyOne_eq wake
  have hposts := s.posts_notifyOne wake
  rw [heq] at hposts ⊢
  exact
    { roster := hposts ▸ h.roster
      stopped := h.stopped
      manned := fun hstop hsize => hnil.mpr (h.manned hstop hsize)
      served := fun htasks hthreads => h.served htasks fun hs => hthreads (hnil.mpr hs)
      counted := hbusy.symm ▸ h.counted
      raised := hdtor.trans h.raised }

theorem notifyAll (c : Condition) : WellFormed (s.notifyAll c) :=
  ⟨h.roster, h.stopped, h.manned, h.served, h.counted, h.raised⟩

theorem emplace (hstop : s.stop = false) (i : ℕ) : WellFormed (s.emplace i) where
  roster := h.roster
  stopped := h.stopped
  manned := h.manned
  served _ hthreads := h.workers_ne_nil_of_running hstop hthreads
  counted := by
    change s.inFlight + 1 = (s.tasks ++ [i]).length + total Worker.busy s.threads
    rw [h.counted, List.length_append, List.length_singleton]
    omega
  raised := h.raised

/-- The threads that are started when the pool grows. -/
theorem grow_eq {limit : ℕ} (hlimit : s.poolSize < limit)
    (hstart : { s with poolSize := limit }.startWorkers s.poolSize (limit - s.poolSize) = some u) :
    ∃ workers new,
      u = { s with poolSize := limit, workers := workers, threads := s.threads ++ new } ∧
      Roster workers limit (s.posts ++ new.map Worker.post) ∧ ∀ w ∈ new, w.pc = .awake := by
  obtain ⟨workers, new, heq, hroster, hawake⟩ :=
    startWorkers_spec (s := { s with poolSize := limit }) (k := limit - s.poolSize) h.roster
  rw [Nat.add_sub_cancel' hlimit.le] at hroster
  exact ⟨workers, new, Option.some.inj (hstart.symm.trans heq), hroster, hawake⟩

theorem grow {limit : ℕ} (hstop : s.stop = false) (hlimit : s.poolSize < limit)
    (hstart : { s with poolSize := limit }.startWorkers s.poolSize (limit - s.poolSize) = some u) :
    WellFormed u := by
  obtain ⟨workers, new, rfl, hroster, hawake⟩ := h.grow_eq hlimit hstart
  have hbusy : total Worker.busy new = 0 :=
    total_eq_zero_iff.mpr fun w hw => by simp [Worker.busy, hawake w hw]
  constructor
  · simpa [posts] using hroster
  · intro hstopped
    rw [hstop] at hstopped
    cases hstopped
  · rintro - rfl
    omega
  · rintro - - rfl
    have hnil := hroster.eq_nil_iff.mp rfl
    omega
  · change s.inFlight = s.tasks.length + total Worker.busy (s.threads ++ new)
    rw [total_append, hbusy, Nat.add_zero]
    exact h.counted
  · exact h.raised

theorem leave {t : ℕ} {w : Worker} (hw : s.threads[t]? = some w) (hpc : w.pc = .awake)
    (hexit : s.stop = true ∧ s.tasks = [] ∨ s.stop = false ∧ s.poolSize ≤ w.number)
    (hleave : s.leave t w = some u) : WellFormed u := by
  have hlive : w.pc ≠ .exited := by simp [hpc]
  have hnumber : s.poolSize ≤ w.number := by
    rcases hexit with ⟨hstop, -⟩ | ⟨-, hnumber⟩
    · simp [h.stopped hstop]
    · exact hnumber
  have hthreads : s.threads ≠ [] := by
    rintro hnil
    simp [hnil] at hw
  have hroster := h.roster.leave (t := t) (n := w.number)
    (by simp [posts, hw, Worker.post, hlive]) hnumber
  obtain ⟨workers, hworkers, rfl⟩ := leave_eq hleave
  rw [← hworkers] at hroster
  have hwell : WellFormed { s.setPc t w .exited with workers := workers } :=
    { roster := by simpa [posts, State.setPc, List.map_set, Worker.post] using hroster
      stopped := h.stopped
      manned := fun hstop hsize => absurd (h.manned hstop hsize) hthreads
      served := fun htasks _ => by
        rcases hexit with ⟨-, hnil⟩ | ⟨hstop, -⟩
        · exact absurd hnil htasks
        · rintro rfl
          exact hthreads (h.manned hstop (hroster.eq_nil_iff.mp rfl).1)
      counted := by
        change s.inFlight = s.tasks.length + total Worker.busy (s.threads.set t _)
        rw [total_set_of_eq hw (by simp [Worker.busy, hpc])]
        exact h.counted
      raised := h.raised }
  split
  · exact hwell.notifyConsumers
  · exact hwell

theorem setDtor {d : DtorPc} (hstop : s.stop = true) (hd : d ≠ .before) :
    WellFormed { s with dtor := d } :=
  ⟨h.roster, h.stopped, h.manned, h.served, h.counted, by simp [hd, hstop]⟩

/-- The flag is raised, and the destructor goes on. -/
theorem stop {d : DtorPc} (hd : d ≠ .before) :
    WellFormed { s with stop := true, poolSize := 0, dtor := d } where
  roster := h.roster.shrink (Nat.zero_le _)
  stopped _ := rfl
  manned hstop := by cases hstop
  served := h.served
  counted := h.counted
  raised := by simp [hd]

end WellFormed

/-- The destructor waits or returns. -/
theorem join_eq (hjoin : s.join = some u) :
    s.workers = [] ∧ s.inFlight = 0 ∧ u = { s with dtor := .returned } ∨
      s.workers ≠ [] ∧ u = { s with dtor := .waiting } := by
  unfold join at hjoin
  split at hjoin
  · next hnil =>
    split at hjoin
    · next hzero => exact .inl ⟨hnil, hzero, (Option.some.inj hjoin).symm⟩
    · cases hjoin
  · next hne => exact .inr ⟨hne, (Option.some.inj hjoin).symm⟩

theorem WellFormed.destroy (h : WellFormed s) (hdestroy : s.destroy = some u) : WellFormed u := by
  have hstop := ((h.stop (d := .waiting) (by simp)).notifyConsumers).notifyAll .producers
  rcases join_eq hdestroy with ⟨-, -, rfl⟩ | ⟨-, rfl⟩
  · exact hstop.setDtor (d := .returned) rfl (by simp)
  · exact hstop.setDtor (d := .waiting) rfl (by simp)

theorem WellFormed.join (h : WellFormed s) (hd : s.dtor = .woken) (hjoin : s.join = some u) :
    WellFormed u := by
  have hstop : s.stop = true := by
    by_contra hstop
    simp [h.raised.mpr (Bool.eq_false_of_not_eq_true hstop)] at hd
  rcases join_eq hjoin with ⟨-, -, rfl⟩ | ⟨-, rfl⟩
  · exact h.setDtor hstop (by simp)
  · exact h.setDtor hstop (by simp)

theorem WellFormed.move (h : WellFormed s) (hm : Move s u) : WellFormed u := by
  cases hm with
  | stay => exact h
  | block | settle | limit | raise =>
    exact ⟨h.roster, h.stopped, h.manned, h.served, h.counted, h.raised⟩
  | emplace _ hstop => exact (h.emplace hstop _).notifyOne _
  | grow hstop hlimit hstart => exact h.grow hstop hlimit hstart
  | @shrink limit hstop hpos hlimit =>
    have hwell : WellFormed { s with poolSize := limit } :=
      { roster := h.roster.shrink hlimit.le
        stopped := fun hstopped => by rw [hstop] at hstopped; cases hstopped
        manned := fun _ hsize => absurd hsize hpos.ne'
        served := h.served
        counted := h.counted
        raised := h.raised }
    exact hwell.notifyConsumers
  | destroy _ hdestroy => exact h.destroy hdestroy
  | join hd hjoin => exact h.join hd hjoin
  | @wake c => exact h.notifyOne (some c)
  | sleep hw hpc =>
    exact h.setPc hw (by simp [hpc]) (by simp) (by simp [Worker.busy, hpc])
  | leave hw hpc hexit hleave => exact h.leave hw hpc hexit hleave
  | pop hw hpc htasks =>
    exact h.advance hw (by simp [hpc]) (by simp) (by simp [htasks])
      (by simp [Worker.busy, hpc, htasks, State.setPc]; omega)
  | @run t w task notify hw hpc =>
    have hbusy : Worker.busy { w with pc := .running task } = w.busy := by simp [Worker.busy, hpc]
    cases notify with
    | true => exact (h.notifyAll .producers).setPc hw (by simp [hpc]) (by simp) hbusy
    | false => exact h.setPc hw (by simp [hpc]) (by simp) hbusy
  | finish hw hpc =>
    exact h.advance hw (by simp [hpc]) (by simp) id (by simp [Worker.busy, hpc, State.setPc])
  | @decrement t w hw hpc =>
    have hheld := le_total (f := Worker.busy) (List.mem_of_getElem? hw)
    have hbusy : w.busy = 1 := by simp [Worker.busy, hpc]
    have hcounted := h.counted
    refine h.advance hw (by simp [hpc]) (by split <;> simp) id ?_
    have hidle : Worker.busy { w with pc := if s.inFlight = 1 then .last else .awake } = 0 := by
      by_cases hone : s.inFlight = 1 <;> simp [Worker.busy, hone]
    change s.inFlight - 1 + s.tasks.length + _ = s.inFlight + s.tasks.length + _
    omega
  | notify hw hpc =>
    exact (h.notifyAll .inFlight).setPc hw (by simp [hpc]) (by simp) (by simp [Worker.busy, hpc])

theorem join_eq_none_iff : s.join = none ↔ s.workers = [] ∧ s.inFlight ≠ 0 := by
  unfold State.join
  split_ifs <;> simp [*]

/-- The destructor's assertion fails exactly when tasks are left to a pool without threads. -/
theorem WellFormed.abandoned_iff (h : WellFormed s) :
    s.workers = [] ∧ s.inFlight ≠ 0 ↔ s.threads = [] ∧ s.tasks ≠ [] := by
  have hcounted := h.counted
  constructor
  · rintro ⟨hworkers, hinFlight⟩
    rw [h.busy_eq_zero hworkers, Nat.add_zero] at hcounted
    rw [hcounted, ne_eq, List.length_eq_zero_iff] at hinFlight
    exact ⟨by_contra fun hthreads => h.served hinFlight hthreads hworkers, hinFlight⟩
  · rintro ⟨hthreads, htasks⟩
    refine ⟨by_contra fun hworkers => ?_, ?_⟩
    · obtain ⟨slot, hslot⟩ := h.roster.exists_post hworkers
      simp [posts, hthreads] at hslot
    · have hpos := List.length_pos_of_ne_nil htasks
      omega

theorem WellFormed.setPoolSize_ne_none (h : WellFormed s) (limit : ℕ) :
    s.setPoolSize limit ≠ none := by
  unfold State.setPoolSize
  rw [if_neg (Nat.not_lt.mpr h.roster.sized)]
  obtain ⟨workers, new, heq, -⟩ := startWorkers_spec (s := { s with poolSize := max limit 1 })
    (k := max limit 1 - s.poolSize) h.roster
  rw [heq]
  split_ifs <;> simp

theorem WellFormed.work_ne_none (h : WellFormed s) (hw : s.threads[t]? = some w) :
    s.work t w ≠ none := by
  cases hpc : w.pc <;> simp only [work, hpc]
  case awake =>
    have hslot := h.slot hw (by simp [hpc])
    simp only [State.leave, hslot]
    cases s.tasks <;> split_ifs <;> simp
  all_goals simp

/-- No assertion of the pool fails, no access to its vector and no `detach`, but for the
destructor's assertion in a pool without threads that has been given tasks. -/
theorem WellFormed.handle_eq_none_iff (h : WellFormed s) :
    s.handle e = none ↔ (e = .destroy ∨ e = .join) ∧ s.threads = [] ∧ s.tasks ≠ [] := by
  cases e with
  | destroy =>
    have hdestroy : s.destroy = none ↔ s.workers = [] ∧ s.inFlight ≠ 0 := join_eq_none_iff
    simpa [handle] using hdestroy.trans h.abandoned_iff
  | join => simpa [handle] using join_eq_none_iff.trans h.abandoned_iff
  | setPoolSize limit => simpa [handle] using h.setPoolSize_ne_none limit
  | worker t =>
    simp only [handle]
    split
    · next w hw => simpa using h.work_ne_none hw
    · simp
  | resume i wake | wakeCall i =>
    simp only [handle]
    split <;> simp
  | enter | setQueueSizeLimit | wakeConsumer => simp [handle]

/-- The state the constructor starts its loop from. -/
theorem create_spec (threads : ℕ) : ∃ workers new,
    create threads = some ⟨workers, threads, [], 100000, false, 0, new, fun _ => .idle, .before,
      [], [], []⟩ ∧ Roster workers threads (new.map Worker.post) ∧ ∀ w ∈ new, w.pc = .awake := by
  obtain ⟨workers, new, heq, hroster, hawake⟩ := startWorkers_spec (n := 0) (k := threads)
    (s := ⟨[], threads, [], 100000, false, 0, [], fun _ => .idle, .before, [], [], []⟩)
    ⟨by simp [posts], by simp, by simp⟩
  rw [Nat.zero_add] at hroster
  exact ⟨workers, new, heq, hroster, hawake⟩

theorem wellFormed_create {threads : ℕ} (hcreate : create threads = some s) :
    WellFormed s ∧ (0 < threads → s.threads ≠ []) := by
  obtain ⟨workers, new, heq, hroster, hawake⟩ := create_spec threads
  have hbusy : total Worker.busy new = 0 :=
    total_eq_zero_iff.mpr fun w hw => by simp [Worker.busy, hawake w hw]
  obtain rfl := Option.some.inj (heq.symm.trans hcreate)
  refine ⟨⟨hroster, by simp, ?_, by simp, by simp [hbusy], by simp⟩, ?_⟩
  · rintro - rfl
    have hnil : workers = [] ∧ new = [] := by
      simpa [create, State.startWorkers, eq_comm] using heq
    exact hnil.2
  · rintro hpos rfl
    obtain ⟨p, hp⟩ := hroster.exists_post fun hnil => hpos.ne' (hroster.eq_nil_iff.mp hnil).1
    simp at hp

/-- Threads are added and never taken away. -/
theorem WellFormed.threads_move (h : WellFormed s) (hm : Move s u) (hs : s.threads ≠ []) :
    u.threads ≠ [] := by
  cases hm with
  | @emplace i wake =>
    obtain ⟨threads, dtor, heq, -, -, hnil⟩ := (s.emplace i).notifyOne_eq wake
    rw [heq]
    exact mt hnil.mp hs
  | grow _ hlimit hstart =>
    obtain ⟨workers, new, rfl, -⟩ := h.grow_eq hlimit hstart
    simp [hs]
  | destroy _ hjoin | join _ hjoin =>
    rcases join_eq hjoin with ⟨-, -, rfl⟩ | ⟨-, rfl⟩ <;>
      simpa [State.notifyAll, State.notifyConsumers] using hs
  | leave _ _ _ hleave =>
    obtain ⟨workers, -, rfl⟩ := leave_eq hleave
    split <;> simpa [State.setPc, State.notifyConsumers] using hs
  | @wake c => cases c <;> simpa [State.wake] using hs
  | @run t w task notify =>
    cases notify <;> simpa [State.setPc, State.notifyAll] using hs
  | _ => simpa [State.setPc, State.setCall, State.notifyAll, State.notifyConsumers] using hs

/-- A run that starts from the constructor's pool. -/
theorem wellFormed_of_run {threads : ℕ} {s₀ : State} (hcreate : create threads = some s₀)
    (h : Run Step s₀ tr s) : WellFormed s ∧ (0 < threads → s.threads ≠ []) := by
  have hinv := h.invariant (I := fun s => WellFormed s ∧ (0 < threads → s.threads ≠ []))
    (wellFormed_create hcreate)
    fun _ _ _ hi hs => ⟨hi.1.move hs.move, fun hpos => hi.1.threads_move hs.move (hi.2 hpos)⟩
  exact hinv.2

/-- Whatever is called from whichever thread, as long as the system refuses no thread: the
constructor succeeds; each joinable element of the vector is the one running thread of its number;
and nothing fails, except that the destructor's assertion does in a pool that never had a thread
and was given tasks. -/
theorem run_faultless (threads : ℕ) : ∃ s₀, create threads = some s₀ ∧
    ∀ tr s, Run Step s₀ tr s →
      (∀ n t : ℕ, s.workers[n]? = some (some t) ↔
        ∃ w, s.threads[t]? = some w ∧ w.number = n ∧ w.pc ≠ .exited) ∧
      (∀ e, s.handle e = none ↔ (e = .destroy ∨ e = .join) ∧ s.threads = [] ∧ s.tasks ≠ []) ∧
      (0 < threads → s.threads ≠ []) := by
  obtain ⟨workers, new, heq, -⟩ := create_spec threads
  refine ⟨_, heq, fun tr s h => ?_⟩
  obtain ⟨hwell, hthreads⟩ := wellFormed_of_run heq h
  refine ⟨fun n t => ?_, fun e => hwell.handle_eq_none_iff, hthreads⟩
  rw [hwell.roster.joinable]
  simp [posts, Worker.post]

end State

end Vs17.Pool
