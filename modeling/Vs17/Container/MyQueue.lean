import Mathlib.Data.Int.Notation
import Vs17.Library.Traces

/-! # A queue of two stacks

`push` pours the second stack into the first one, puts the element on top, and pours everything
back, so that the second stack has the oldest element on top. The stacks are lists with the top
in front.
-/

namespace Vs17.Container

open Traces

structure Myqueue where
  stack1 : List ℤ
  stack2 : List ℤ
  deriving DecidableEq, Repr

namespace Myqueue

/-- `while (!src.empty()) { dst.push(src.top()); src.pop(); }` gives both stacks. -/
def pour : List ℤ → List ℤ → List ℤ × List ℤ
  | [], dst => ([], dst)
  | x :: src, dst => pour src (x :: dst)

def push (node : ℤ) (q : Myqueue) : Myqueue :=
  let (stack2, stack1) := pour q.stack2 q.stack1
  let (stack1, stack2) := pour (node :: stack1) stack2
  ⟨stack1, stack2⟩

/-- No result is the value of a variable that nothing has been assigned to. -/
def pop (q : Myqueue) : Option (ℤ × Myqueue) :=
  match q.stack2 with
  | [] => none
  | n :: stack2 => some (n, { q with stack2 })

inductive Op
  | push (node : ℤ)
  | pop
  deriving DecidableEq, Repr

/-- An operation, with the value it returns. -/
def step (q : Myqueue) : Op → Option (Myqueue × Option ℤ)
  | .push node => some (q.push node, none)
  | .pop => q.pop.map fun p => (p.2, some p.1)

/-- A list with the oldest element in front. -/
def fifoStep (l : List ℤ) : Op → Option (List ℤ × Option ℤ)
  | .push node => some (l ++ [node], none)
  | .pop =>
    match l with
    | [] => none
    | n :: l => some (l, some n)

/-- Between two operations the first stack is empty. -/
def Represents (q : Myqueue) (l : List ℤ) : Prop :=
  q.stack1 = [] ∧ q.stack2 = l

variable {q : Myqueue} {l : List ℤ}

theorem pour_eq (src dst : List ℤ) : pour src dst = ([], src.reverse ++ dst) := by
  induction src generalizing dst with
  | nil => rfl
  | cons x src ih => rw [pour, ih, List.reverse_cons, List.append_assoc, List.singleton_append]

theorem Represents.push (h : Represents q l) (node : ℤ) :
    Represents (q.push node) (l ++ [node]) := by
  obtain ⟨hstack1, rfl⟩ := h
  unfold Represents Myqueue.push
  simp [pour_eq, hstack1]

theorem step_agree (q : Myqueue) (l : List ℤ) (op : Op) (h : Represents q l) :
    Option.Rel (Agree Represents) (q.step op) (fifoStep l op) := by
  cases op with
  | push node => exact .some ⟨h.push node, rfl⟩
  | pop =>
    obtain ⟨stack1, stack2⟩ := q
    obtain ⟨rfl, rfl⟩ := h
    cases stack2 with
    | nil => exact .none
    | cons n stack2 => exact .some ⟨⟨rfl, rfl⟩, rfl⟩

/-- From the empty queue on, `Myqueue` returns what a list of the elements in the order of their
arrival returns, and its stacks hold that list behind every operation. A `pop` without a result
is one of an empty list. -/
theorem myqueue_fifo (ops : List Op) :
    Option.Rel (List.Forall₂ (Agree Represents)) (trace step ⟨[], []⟩ ops)
      (trace fifoStep [] ops) :=
  trace_agree step_agree ⟨rfl, rfl⟩ ops

end Myqueue

example : trace Myqueue.step ⟨[], []⟩ [.push 1, .push 2, .pop] =
    some [(⟨[], [1]⟩, none), (⟨[], [1, 2]⟩, none), (⟨[], [2]⟩, some 1)] := by decide

end Vs17.Container
