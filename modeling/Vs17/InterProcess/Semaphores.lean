import Vs17.Library.Runs
import Mathlib.Logic.Function.Basic

/-! # Two threads and two semaphores

`threadProc` and the loop of `testSemapthore` print by turns. Each waits for its own semaphore and
releases the one of the other, and only one of the two is free at first. The counters of the loops
are never increased.
-/

namespace Vs17.InterProcess.Semaphores

open Runs

inductive Who
  | threadProc
  | main
  deriving DecidableEq, Repr

namespace Who

def other : Who → Who
  | threadProc => main
  | main => threadProc

@[simp] theorem other_ne (t : Who) : t.other ≠ t := by cases t <;> decide

end Who

/-- What a thread does next. -/
inductive Pc
  | test
  | wait
  | print
  | release
  | sleep
  | returned
  deriving DecidableEq, Repr

def gCount : ℕ := 100

/-- The maximum of both semaphores. -/
def maximum : ℕ := 1

/-- `sem` is, for each thread, the count of the semaphore that it waits for: `g_hSem1` for
`threadProc`, and `g_hSem2` for `main`. -/
structure State where
  pc : Who → Pc
  count : Who → ℕ
  sem : Who → ℕ
  printed : List Who

def start : State where
  pc _ := .test
  count _ := 0
  sem
    | .threadProc => 1
    | .main => 0
  printed := []

/-- `ReleaseSemaphore`, which fails at the maximum. -/
def releaseSemaphore (count : ℕ) : ℕ := if count < maximum then count + 1 else count

def State.goto (s : State) (t : Who) (pc : Pc) : State := { s with pc := Function.update s.pc t pc }

def enabled (s : State) (t : Who) : Bool :=
  match s.pc t with
  | .wait => 0 < s.sem t
  | .returned => false
  | _ => true

def next (s : State) (t : Who) : State :=
  match s.pc t with
  | .test => s.goto t (if s.count t < gCount then .wait else .returned)
  | .wait => { s.goto t .print with sem := Function.update s.sem t (s.sem t - 1) }
  | .print => { s.goto t .release with printed := s.printed ++ [t] }
  | .release =>
    { s.goto t .sleep with
      sem := Function.update s.sem t.other (releaseSemaphore (s.sem t.other)) }
  | .sleep => s.goto t .test
  | .returned => s

/-- The scheduler lets one of the threads make a step. -/
def Step (s : State) (t : Who) (s' : State) : Prop := enabled s t ∧ s' = next s t

/-- The thread that prints the line of this number. -/
def turn (i : ℕ) : Who := if i % 2 = 0 then .threadProc else .main

def Blocked (s : State) (t : Who) : Prop := s.pc t = .wait ∧ s.sem t = 0

/-- The thread has waited, and has not released yet. -/
def InSection (s : State) (t : Who) : Prop := s.pc t = .print ∨ s.pc t = .release

structure PingPong (s : State) : Prop where
  alternate : ∀ i (h : i < s.printed.length), s.printed[i] = turn i
  apart : ∀ t, InSection s t → ¬ InSection s t.other
  room : ∀ t, s.pc t = .release → s.sem t.other < maximum
  awake : ¬ ∀ t, Blocked s t

/-- Where the one unit is that the two semaphores share. -/
inductive Token
  | free (t : Who)
  | printing (t : Who)
  | releasing (t : Who)
  deriving DecidableEq, Repr

/-- The thread that prints next. -/
def Token.printer : Token → Who
  | free t => t
  | printing t => t
  | releasing t => t.other

structure Holds (k : Token) (s : State) : Prop where
  sem : ∀ t, s.sem t = if k = .free t then 1 else 0
  print : ∀ t, s.pc t = .print ↔ k = .printing t
  release : ∀ t, s.pc t = .release ↔ k = .releasing t
  running : ∀ t, s.pc t ≠ .returned
  count : ∀ t, s.count t = 0
  printed : s.printed = (List.range s.printed.length).map turn
  turn : k.printer = turn s.printed.length

variable {s s' : State} {t : Who} {k : Token} {pc : Pc} {tr : List (State × Who)}

theorem turn_succ (i : ℕ) : turn (i + 1) = (turn i).other := by
  unfold turn
  obtain h | h := Nat.mod_two_eq_zero_or_one i
  · rw [if_pos h, if_neg (by omega)]
    rfl
  · rw [if_pos (by omega), if_neg (by omega)]
    rfl

/-- A thread moves on, and the unit may go with it. -/
theorem Holds.move {k' : Token} (h : Holds k s) (hpc : s'.pc = Function.update s.pc t pc)
    (hcount : s'.count = s.count) (hsem : ∀ u, s'.sem u = if k' = .free u then 1 else 0)
    (hprint : pc = .print ↔ k' = .printing t) (hrelease : pc = .release ↔ k' = .releasing t)
    (hrunning : pc ≠ .returned)
    (hother : ∀ u, u ≠ t → (k' = .printing u ↔ k = .printing u) ∧
      (k' = .releasing u ↔ k = .releasing u))
    (hprinted : s'.printed = (List.range s'.printed.length).map Semaphores.turn)
    (hturn : k'.printer = Semaphores.turn s'.printed.length) : Holds k' s' := by
  have hself : s'.pc t = pc := by rw [hpc, Function.update_self]
  have hne (u : Who) (hu : u ≠ t) : s'.pc u = s.pc u := by rw [hpc, Function.update_of_ne hu]
  refine ⟨hsem, fun u => ?_, fun u => ?_, fun u => ?_, fun u => ?_, hprinted, hturn⟩
  · by_cases hu : u = t
    · rw [hu, hself, hprint]
    · rw [hne u hu, h.print, (hother u hu).1]
  · by_cases hu : u = t
    · rw [hu, hself, hrelease]
    · rw [hne u hu, h.release, (hother u hu).2]
  · by_cases hu : u = t
    · rw [hu, hself]
      exact hrunning
    · rw [hne u hu]
      exact h.running u
  · rw [hcount, h.count]

/-- A step outside of the sections. -/
theorem Holds.goto (h : Holds k s) (hout : ¬ InSection s t) (hpc : pc = .test ∨ pc = .wait) :
    Holds k (s.goto t pc) := by
  unfold InSection at hout
  rw [h.print, h.release, not_or] at hout
  refine h.move rfl rfl h.sem ?_ ?_ ?_ (fun _ _ => ⟨Iff.rfl, Iff.rfl⟩) h.printed h.turn
  · rcases hpc with rfl | rfl <;> simp [hout]
  · rcases hpc with rfl | rfl <;> simp [hout]
  · rcases hpc with rfl | rfl <;> decide

theorem Holds.wait (h : Holds k s) (ht : s.pc t = .wait) (hpos : 0 < s.sem t) :
    Holds (.printing t) (next s t) := by
  obtain rfl : k = .free t := by
    rw [h.sem] at hpos
    split_ifs at hpos with hk
    · exact hk
    · contradiction
  unfold next
  rw [ht]
  refine h.move rfl rfl (fun u => ?_) (by simp) (by simp) (by decide) (fun u hu => ?_) h.printed
    h.turn
  · by_cases hu : u = t
    · subst hu
      simp [h.sem]
    · simp [Function.update_of_ne hu, h.sem, Ne.symm hu]
  · simp [Ne.symm hu]

theorem Holds.print_step (h : Holds k s) (ht : s.pc t = .print) :
    Holds (.releasing t) (next s t) := by
  obtain rfl : k = .printing t := (h.print t).mp ht
  have hturn : t = Semaphores.turn s.printed.length := h.turn
  unfold next
  rw [ht]
  refine h.move rfl rfl (fun u => by simp [State.goto, h.sem]) (by simp) (by simp) (by decide)
    (fun u hu => by simp [Ne.symm hu]) ?_ ?_
  · simp [List.range_succ, ← h.printed, ← hturn]
  · simp [turn_succ, ← hturn, Token.printer]

theorem Holds.release_step (h : Holds k s) (ht : s.pc t = .release) :
    Holds (.free t.other) (next s t) := by
  obtain rfl : k = .releasing t := (h.release t).mp ht
  have hzero (u : Who) : s.sem u = 0 := by simp [h.sem]
  unfold next
  rw [ht]
  refine h.move rfl rfl (fun u => ?_) (by simp) (by simp) (by decide)
    (fun u hu => by simp [Ne.symm hu]) h.printed h.turn
  by_cases hu : u = t.other
  · subst hu
    simp [hzero, releaseSemaphore, maximum]
  · simp [Function.update_of_ne hu, hzero, Ne.symm hu]

theorem not_inSection (hpc : s.pc t = pc) (hne : pc ≠ .print ∧ pc ≠ .release) :
    ¬ InSection s t := by
  unfold InSection
  rw [hpc, not_or]
  exact hne

theorem Holds.step (h : Holds k s) (hs : Step s t s') : ∃ k', Holds k' s' := by
  obtain ⟨henabled, rfl⟩ := hs
  cases hpc : s.pc t with
  | test =>
    refine ⟨k, ?_⟩
    unfold next
    rw [hpc, h.count]
    exact h.goto (not_inSection hpc (by decide)) (.inr rfl)
  | wait =>
    have hpos : 0 < s.sem t := by simpa [enabled, hpc] using henabled
    exact ⟨_, h.wait hpc hpos⟩
  | print => exact ⟨_, h.print_step hpc⟩
  | release => exact ⟨_, h.release_step hpc⟩
  | sleep =>
    refine ⟨k, ?_⟩
    unfold next
    rw [hpc]
    exact h.goto (not_inSection hpc (by decide)) (.inl rfl)
  | returned => exact absurd hpc (h.running t)

theorem holds_start : Holds (.free .threadProc) start where
  sem t := by cases t <;> rfl
  print t := by simp [start]
  release t := by simp [start]
  running t := by simp [start]
  count _ := rfl
  printed := rfl
  turn := rfl

theorem Holds.not_inSection_other (h : Holds k s) (ht : InSection s t) :
    ¬ InSection s t.other := by
  unfold InSection at ht ⊢
  rw [h.print, h.release] at ht ⊢
  rcases ht with rfl | rfl <;> simp [Ne.symm (Who.other_ne t)]

/-- The thread that has the unit on its side can make a step. -/
theorem Holds.exists_enabled (h : Holds k s) : ∃ t, enabled s t := by
  cases k with
  | free t =>
    refine ⟨t, ?_⟩
    have hsem : s.sem t = 1 := by rw [h.sem, if_pos rfl]
    have hrunning := h.running t
    unfold enabled
    split
    · simp [hsem]
    · contradiction
    · rfl
  | printing t => exact ⟨t, by simp [enabled, (h.print t).mpr rfl]⟩
  | releasing t => exact ⟨t, by simp [enabled, (h.release t).mpr rfl]⟩

theorem Holds.pingPong (h : Holds k s) : PingPong s where
  alternate i hi := by
    have hnth := List.getElem_of_eq h.printed hi
    rwa [List.getElem_map, List.getElem_range] at hnth
  apart t := h.not_inSection_other
  room t ht := by
    rw [h.sem, (h.release t).mp ht, if_neg (by simp)]
    exact Nat.one_pos
  awake hall := by
    obtain ⟨t, ht⟩ := h.exists_enabled
    obtain ⟨hpc, hsem⟩ := hall t
    simp [enabled, hpc, hsem] at ht

/-- Under every schedule, in every state. -/
theorem pingPong_throughout (h : Run Step start tr s) : Throughout PingPong tr s := by
  have hholds : Throughout (fun s => ∃ k, Holds k s) tr s :=
    h.invariant ⟨_, holds_start⟩ fun _ _ _ ⟨_, hk⟩ hs => hk.step hs
  exact hholds.imp fun _ ⟨_, hk⟩ => hk.pingPong

/-- `main` has to wait until `threadProc` has printed its first line. -/
def firstLines : List Who :=
  [.main, .threadProc, .threadProc, .threadProc, .threadProc, .main, .main, .main]

theorem pingPong_throughout_firstLines :
    Throughout PingPong (steps next start firstLines) (firstLines.foldl next start) := by
  have hrun : Run Step start (steps next start firstLines) (firstLines.foldl next start) :=
    Run.start.follow (fun _ _ henabled => ⟨henabled, rfl⟩)
      (by decide : Follows (fun s t => enabled s t = true) next start firstLines)
  exact pingPong_throughout hrun

end Vs17.InterProcess.Semaphores
