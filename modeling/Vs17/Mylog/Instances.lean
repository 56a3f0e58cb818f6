import Vs17.Library.Runs
import Mathlib.Logic.Function.Basic

/-! # Several Mylog objects in one process

The exit flag and the handle of the background thread are variables of the file, which all
objects share. The constructor clears the flag and assigns a new thread to the handle; the
destructor raises the flag and joins the thread the handle holds.
-/

namespace Vs17.Mylog

open Runs

/-- The life of an object. Its constructor first clears the flag, and is over when the
thread is launched; its destructor first raises the flag, and is over when a thread is
joined. -/
inductive Phase
  | absent
  | constructing
  | live
  | dying
  | destroyed
  deriving DecidableEq, Repr

/-- `g_log_Exit`, the object whose thread `logth` holds while it is joinable, the objects'
threads that have not returned, and whether `std::terminate` has ended the process. -/
structure Process where
  exit : Bool
  logth : Option ℕ
  running : ℕ → Bool
  phase : ℕ → Phase
  terminated : Bool

namespace Process

def create : Process := ⟨false, none, fun _ => false, fun _ => .absent, false⟩

def setPhase (p : Process) (i : ℕ) (phase : Phase) : Process :=
  { p with phase := Function.update p.phase i phase }

/-- `logth = std::thread{…}`. A joinable thread that is assigned over ends the process. -/
def launch (p : Process) (i : ℕ) : Process :=
  match p.logth with
  | none =>
    { p.setPhase i .live with logth := some i, running := Function.update p.running i true }
  | some _ => { p with terminated := true }

/-- `logth.join()`, behind the test of `joinable()` in one version of the source. Without
a joinable thread it throws, which ends the process in a destructor. -/
def join (guarded : Bool) (p : Process) (i : ℕ) : Process :=
  match p.logth with
  | some _ => { p.setPhase i .destroyed with logth := none }
  | none => if guarded then p.setPhase i .destroyed else { p with terminated := true }

/-- What the objects and their threads do. A thread returns when it reads a raised flag,
or when it cannot open the log file. -/
inductive Event
  | construct (i : ℕ)
  | launch (i : ℕ)
  | destroy (i : ℕ)
  | join (i : ℕ)
  | stops (i : ℕ)
  | openFails (i : ℕ)
  deriving DecidableEq, Repr

def Pending (p : Process) (e : Event) : Prop :=
  p.terminated = false ∧
    match e with
    | .construct i => p.phase i = .absent
    | .launch i => p.phase i = .constructing
    | .destroy i => p.phase i = .live
    | .join i => p.phase i = .dying ∧ ∀ j, p.logth = some j → p.running j = false
    | .stops i => p.running i = true ∧ p.exit = true
    | .openFails i => p.running i = true

def handle (guarded : Bool) (p : Process) : Event → Process
  | .construct i => { p.setPhase i .constructing with exit := false }
  | .launch i => p.launch i
  | .destroy i => { p.setPhase i .dying with exit := true }
  | .join i => p.join guarded i
  | .stops i | .openFails i => { p with running := Function.update p.running i false }

def Step (guarded : Bool) (p : Process) (e : Event) (q : Process) : Prop :=
  p.Pending e ∧ q = p.handle guarded e

/-- No joinable thread has been assigned over, and the thread of every live object runs. -/
def Isolated (p : Process) : Prop :=
  p.terminated = false ∧ ∀ i, p.phase i = .live → p.running i = true

/-- A thread is launched while no object is live or being destroyed, and with the flag
clear. A live object's thread can open the log file. -/
def Alone (p : Process) : Event → Prop
  | .launch _ => p.exit = false ∧ ∀ j, p.phase j ≠ .live ∧ p.phase j ≠ .dying
  | .openFails i => p.phase i ≠ .live
  | _ => True

variable {guarded : Bool} {p q : Process} {e : Event} {i j : ℕ}

section SetPhase

variable (p i) (phase : Phase)

@[simp] theorem phase_setPhase :
    (p.setPhase i phase).phase j = if j = i then phase else p.phase j :=
  Function.update_apply ..

@[simp] theorem exit_setPhase : (p.setPhase i phase).exit = p.exit := rfl

@[simp] theorem logth_setPhase : (p.setPhase i phase).logth = p.logth := rfl

@[simp] theorem running_setPhase : (p.setPhase i phase).running = p.running := rfl

@[simp] theorem terminated_setPhase : (p.setPhase i phase).terminated = p.terminated := rfl

end SetPhase

/-- The handle holds the thread of the one object that is live or being destroyed. -/
def HandleHeld (p : Process) : Prop :=
  ∀ j, (p.phase j = .live ∨ p.phase j = .dying) ↔ p.logth = some j

/-- What holds until the process ends. -/
def Running (p : Process) : Prop := p.terminated = false → HandleHeld p

theorem running_create : Running create := fun _ j => by simp [create]

/-- The object whose life goes on is the only one with a say in the handle. -/
theorem HandleHeld.setPhase (h : HandleHeld p) {phase : Phase}
    (hphase : (phase = .live ∨ phase = .dying) ↔ p.logth = some i) :
    HandleHeld (p.setPhase i phase) := by
  intro j
  by_cases hj : j = i
  · subst hj
    simpa using hphase
  · simpa [hj] using h j

/-- An object that is launched finds the handle free, or ends the process. -/
theorem HandleHeld.launch_eq (h : HandleHeld p) (i : ℕ) :
    (p.logth = none ∧ (∀ j, p.phase j ≠ .live ∧ p.phase j ≠ .dying) ∧
      p.launch i = { p.setPhase i .live with
        logth := some i, running := Function.update p.running i true }) ∨
    ((∃ j, p.phase j = .live ∨ p.phase j = .dying) ∧
      p.launch i = { p with terminated := true }) := by
  unfold launch
  cases hlogth : p.logth with
  | none => exact .inl ⟨rfl, fun j => not_or.mp (by simp [h j, hlogth]), rfl⟩
  | some j => exact .inr ⟨⟨j, (h j).mpr hlogth⟩, rfl⟩

/-- The destructor finds the thread of its own object in the handle. -/
theorem HandleHeld.join_eq (h : HandleHeld p) (hi : p.phase i = .dying) :
    p.join guarded i = { p.setPhase i .destroyed with logth := none } := by
  have hlogth : p.logth = some i := (h i).mp (.inr hi)
  unfold join
  rw [hlogth]

theorem Running.step (h : Running p) (hs : Step guarded p e q) : Running q := by
  obtain ⟨⟨halive, hp⟩, rfl⟩ := hs
  have held : HandleHeld p := h halive
  cases e with
  | construct i =>
    have habsent : p.phase i = .absent := hp
    exact fun _ => held.setPhase (by simp [← held i, habsent])
  | launch i =>
    rcases held.launch_eq i with ⟨hlogth, -, heq⟩ | ⟨-, heq⟩
    · rw [handle, heq]
      intro _ j
      by_cases hj : j = i
      · simp [hj]
      · have hother := held j
        simp only [hlogth] at hother
        simpa [hj, Ne.symm hj] using hother
    · rw [handle, heq]
      rintro ⟨⟩
  | destroy i =>
    have hlive : p.phase i = .live := hp
    exact fun _ => held.setPhase (by simp [← held i, hlive])
  | join i =>
    rw [handle, held.join_eq hp.1]
    intro _ j
    by_cases hj : j = i
    · simp [hj]
    · have hother : p.logth ≠ some j := by
        rw [(held i).mp (.inr hp.1)]
        exact fun heq => hj (Option.some.inj heq).symm
      simpa [hj] using (not_congr (held j)).mpr hother
  | stops i => exact h
  | openFails i => exact h

/-- Isolated, and with the flag clear while an object is live. -/
def Clear (p : Process) : Prop := Isolated p ∧ ∀ i, p.phase i = .live → p.exit = false

theorem clear_step_iff (h : Running p) (hclear : Clear p) (hs : Step guarded p e q) :
    Clear q ↔ Alone p e := by
  obtain ⟨⟨halive, hp⟩, rfl⟩ := hs
  obtain ⟨⟨-, hrunning⟩, hexit⟩ := hclear
  have held : HandleHeld p := h halive
  cases e with
  | construct i =>
    refine iff_of_true ⟨⟨halive, fun j => ?_⟩, fun _ _ => rfl⟩ trivial
    by_cases hj : j = i
    · simp [handle, hj]
    · simpa [handle, hj] using hrunning j
  | launch i =>
    rcases held.launch_eq i with ⟨-, hnone, heq⟩ | ⟨⟨j, hj⟩, heq⟩
    · rw [handle, heq]
      constructor
      · intro hclear
        exact ⟨hclear.2 i (by simp), hnone⟩
      · rintro ⟨hflag, -⟩
        refine ⟨⟨halive, fun j => ?_⟩, fun _ _ => hflag⟩
        by_cases hj : j = i
        · simp [hj]
        · simp [hj, (hnone j).1]
    · rw [handle, heq]
      refine iff_of_false (fun hclear => Bool.noConfusion hclear.1.1) fun halone => ?_
      exact hj.elim (halone.2 j).1 (halone.2 j).2
  | destroy i =>
    have hlive : p.phase i = .live := hp
    -- the object was the only one, and is not live any more
    have hother (j : ℕ) : (p.handle guarded (.destroy i)).phase j ≠ .live := by
      by_cases hj : j = i
      · simp [handle, hj]
      · have hi : p.logth = some i := (held i).mp (.inl hlive)
        have hne : p.phase j ≠ .live := fun hlive =>
          hj (Option.some.inj (((held j).mp (.inl hlive)).symm.trans hi))
        simpa [handle, hj] using hne
    exact iff_of_true ⟨⟨halive, fun j hj => absurd hj (hother j)⟩,
      fun j hj => absurd hj (hother j)⟩ trivial
  | join i =>
    rw [handle, held.join_eq hp.1]
    refine iff_of_true ⟨⟨halive, fun j => ?_⟩, fun j => ?_⟩ trivial
    · by_cases hj : j = i
      · simp [hj]
      · simpa [hj] using hrunning j
    · by_cases hj : j = i
      · simp [hj]
      · simpa [hj] using hexit j
  | stops i =>
    -- no object is live while the flag is raised
    have hnone (j : ℕ) : p.phase j ≠ .live := fun hj => by simp [hexit j hj] at hp
    exact iff_of_true ⟨⟨halive, fun j hj => absurd hj (hnone j)⟩,
      fun j hj => absurd hj (hnone j)⟩ trivial
  | openFails i =>
    constructor
    · intro hclear hlive
      simpa [handle] using hclear.1.2 i hlive
    · intro hnot
      refine ⟨⟨halive, fun j hj => ?_⟩, hexit⟩
      have hne : j ≠ i := by
        rintro rfl
        exact hnot hj
      simpa [handle, hne] using hrunning j hj

/-- A step that breaks the guard ends the process, or leaves a live object whose thread
does not run, or may return at once. -/
theorem broken_of_not_alone (h : Running p) (hs : Step guarded p e q) (hnot : ¬ Alone p e) :
    ∃ tr r, Run (Step guarded) q tr r ∧ ¬ Isolated r := by
  obtain ⟨⟨halive, hp⟩, rfl⟩ := hs
  have held : HandleHeld p := h halive
  cases e with
  | launch i =>
    rcases held.launch_eq i with ⟨-, hnone, heq⟩ | ⟨-, heq⟩
    · have hflag : p.exit = true := by simpa [Alone, hnone] using hnot
      have hstops : Step guarded (p.handle guarded (.launch i)) (.stops i)
          ((p.handle guarded (.launch i)).handle guarded (.stops i)) := by
        refine ⟨⟨?_, ?_, ?_⟩, rfl⟩ <;> simp [handle, heq, halive, hflag]
      refine ⟨_, _, Run.start.next hstops, fun hisolated => ?_⟩
      have hrunning := hisolated.2 i (by simp [handle, heq])
      simp [handle] at hrunning
    · refine ⟨_, _, .start, fun hisolated => ?_⟩
      rw [handle, heq] at hisolated
      exact Bool.noConfusion hisolated.1
  | openFails i =>
    refine ⟨_, _, .start, fun hisolated => ?_⟩
    have hrunning := hisolated.2 i (not_not.mp hnot)
    simp [handle] at hrunning
  | _ => exact absurd trivial hnot

/-- When every thread is launched alone, with the flag clear, and can open its file while
its object lives, the objects are isolated in every state of the run. After any step that
breaks this they need not be. -/
theorem run_isolated_iff {tr : List (Process × Event)} (h : Run (Step guarded) create tr p) :
    (AllSteps Alone tr → Throughout Isolated tr p) ∧
    ∀ x ∈ tr, ¬ Alone x.1 x.2 →
      ∃ tr' q, Run (Step guarded) (x.1.handle guarded x.2) tr' q ∧ ¬ Isolated q := by
  constructor
  · intro halone
    have hclear : Throughout Clear tr p :=
      (h.throughout_iff running_create (fun _ _ _ hr hs => hr.step hs)
        ⟨⟨rfl, by simp [create]⟩, by simp [create]⟩
        (fun _ _ _ hr hc hs => clear_step_iff hr hc hs)).mpr halone
    exact hclear.imp fun _ hc => hc.1
  · rintro ⟨r, e⟩ hx hnot
    have hrunning : Throughout Running tr p :=
      h.invariant running_create fun _ _ _ hr hs => hr.step hs
    obtain ⟨q, hs⟩ := h.exists_step hx
    obtain ⟨-, rfl⟩ := id hs
    exact broken_of_not_alone (hrunning.1 _ hx) hs hnot

/-- The object of `thread_fun` is constructed. -/
def one (guarded : Bool) : Process :=
  (create.handle guarded (.construct 0)).handle guarded (.launch 0)

theorem run_one (guarded : Bool) : Run (Step guarded) create
    [(create, .construct 0), (create.handle guarded (.construct 0), .launch 0)] (one guarded) :=
  (Run.start.next ⟨⟨rfl, rfl⟩, rfl⟩).next ⟨⟨rfl, rfl⟩, rfl⟩

theorem run_isolated_one : Isolated (one true) ∧ Isolated (one false) := by
  have halone (guarded : Bool) : AllSteps Alone
      [(create, .construct 0), (create.handle guarded (.construct 0), .launch 0)] := by
    rintro x hx
    rcases List.mem_cons.mp hx with rfl | hx
    · trivial
    · cases List.mem_singleton.mp hx
      refine ⟨rfl, fun j => ?_⟩
      by_cases hj : j = 0 <;> simp [handle, create, hj]
  exact ⟨((run_isolated_iff (run_one true)).1 (halone true)).2,
    ((run_isolated_iff (run_one false)).1 (halone false)).2⟩

theorem terminated_second (guarded : Bool) : ∃ tr p, Run (Step guarded) create tr p ∧
    p.phase 0 = .live ∧ p.terminated = true := by
  have hsecond : Step guarded (one guarded) (.construct 1)
      ((one guarded).handle guarded (.construct 1)) := ⟨⟨rfl, rfl⟩, rfl⟩
  have hlaunch : Step guarded ((one guarded).handle guarded (.construct 1)) (.launch 1)
      (((one guarded).handle guarded (.construct 1)).handle guarded (.launch 1)) :=
    ⟨⟨rfl, rfl⟩, rfl⟩
  exact ⟨_, _, ((run_one guarded).next hsecond).next hlaunch, rfl, rfl⟩

/-- The object of `myrecv` is constructed while that of `thread_fun` is live: the handle is
assigned over, and the process ends. -/
theorem not_isolated_second : (∃ tr p, Run (Step true) create tr p ∧ ¬ Isolated p) ∧
    ∃ tr p, Run (Step false) create tr p ∧ ¬ Isolated p := by
  have broken (guarded : Bool) : ∃ tr p, Run (Step guarded) create tr p ∧ ¬ Isolated p := by
    obtain ⟨tr, p, hrun, -, hterminated⟩ := terminated_second guarded
    exact ⟨tr, p, hrun, fun h => Bool.noConfusion (h.1.symm.trans hterminated)⟩
  exact ⟨broken true, broken false⟩

end Process

end Vs17.Mylog
