import Vs17.Asio.Client
import Mathlib.Data.List.Induction

/-! # The flag of the client

Callers of `AsyncClient` ask `connected()` before they send. The flag is compared with
what it stands for: a connect has succeeded, and the client has not been stopped since.
-/

namespace Vs17.Asio.AsyncClient

open Runs

variable {c : AsyncClient} {es : List Event} {e : Event}

/-- `on_connect` is called without an error and gets as far as setting the flag. -/
def Event.Succeeds : Event → Prop
  | .connect localEp err optionSet => localEp = true ∧ err = false ∧ optionSet = true
  | _ => False

/-- The client is stopped: by its owner, or by a handler that is given an error. -/
def Event.Stops : Event → Prop
  | .stop => True
  | .connect localEp err _ => localEp = true ∧ err = true
  | .read err | .write err => err = true
  | .doWrite _ => False

instance : DecidablePred Event.Succeeds
  | .connect .. => inferInstanceAs (Decidable (_ ∧ _ ∧ _))
  | .doWrite _ | .stop | .read _ | .write _ => .isFalse id

instance : DecidablePred Event.Stops
  | .connect .. => inferInstanceAs (Decidable (_ ∧ _))
  | .read err | .write err => inferInstanceAs (Decidable (err = true))
  | .stop => .isTrue trivial
  | .doWrite _ => .isFalse id

/-- A connect has succeeded and the client has not been stopped since. -/
def Live (es : List Event) : Prop :=
  ∃ before e after, es = before ++ e :: after ∧ e.Succeeds ∧ ∀ e' ∈ after, ¬ e'.Stops

/-- A connect has succeeded, or the client has been stopped. -/
def Settled (es : List Event) : Prop := ∃ e ∈ es, e.Succeeds ∨ e.Stops

theorem not_live_nil : ¬ Live [] := by
  rintro ⟨before, e, after, heq, -, -⟩
  cases before <;> cases heq

theorem live_append : Live (es ++ [e]) ↔ e.Succeeds ∨ (Live es ∧ ¬ e.Stops) := by
  constructor
  · rintro ⟨before, e', after, heq, hs, hafter⟩
    -- the connect that succeeded is the last event, or lies before it
    induction after using List.reverseRecOn with
    | nil =>
      obtain ⟨-, heq⟩ := List.append_inj' heq rfl
      cases heq
      exact .inl hs
    | append_singleton after last _ =>
      rw [← List.cons_append, ← List.append_assoc] at heq
      obtain ⟨rfl, hlast⟩ := List.append_inj' heq rfl
      cases hlast
      rw [List.forall_mem_append, List.forall_mem_singleton] at hafter
      exact .inr ⟨⟨before, e', after, rfl, hs, hafter.1⟩, hafter.2⟩
  · rintro (hs | ⟨⟨before, e', after, rfl, hs, hafter⟩, he⟩)
    · exact ⟨es, e, [], rfl, hs, by simp⟩
    · refine ⟨before, e', after ++ [e], by simp, hs, ?_⟩
      rw [List.forall_mem_append, List.forall_mem_singleton]
      exact ⟨hafter, he⟩

theorem settled_append : Settled (es ++ [e]) ↔ Settled es ∨ e.Succeeds ∨ e.Stops := by
  simp only [Settled, List.mem_append, List.mem_singleton, or_and_right, exists_or,
    exists_eq_left]

theorem Live.settled (h : Live es) : Settled es := by
  obtain ⟨before, e, after, rfl, hs, -⟩ := h
  exact ⟨e, by simp, .inl hs⟩

@[simp] theorem connected_stop : c.stop.connected = false := by
  unfold stop
  split
  · assumption
  · rfl

@[simp] theorem connected_doRead : c.doRead.connected = c.connected := by
  unfold doRead
  split <;> rfl

@[simp] theorem connected_doWrite (sent : Bool) : (c.doWrite sent).connected = c.connected := by
  unfold doWrite
  split_ifs <;> simp

/-- The flag is set by a connect that succeeds, cleared by a stop, and kept otherwise. -/
theorem connected_handle :
    (c.handle e).connected = true ↔ e.Succeeds ∨ (c.connected = true ∧ ¬ e.Stops) := by
  cases e with
  | doWrite sent => simp [handle, Event.Succeeds, Event.Stops]
  | stop => simp [handle, Event.Succeeds, Event.Stops]
  | connect localEp err optionSet =>
    cases localEp <;> cases err <;> cases optionSet <;>
      simp [handle, onConnect, Event.Succeeds, Event.Stops]
  | read err => cases err <;> simp [handle, onRead, Event.Succeeds, Event.Stops]
  | write err => cases err <;> simp [handle, onWrite, Event.Succeeds, Event.Stops]

/-- The flag also stays set from the construction on until something settles it. -/
theorem connected_iff {tr : List (AsyncClient × Event)} (h : Run Step create.start tr c) :
    c.connected = true ↔ Live (tr.map Prod.snd) ∨ ¬ Settled (tr.map Prod.snd) := by
  induction h with
  | start => exact iff_of_true rfl (.inr (by simp [Settled]))
  | next _ hs ih =>
    obtain ⟨-, rfl⟩ := hs
    rw [connected_handle, ih, List.map_append, List.map_singleton, live_append, settled_append]
    tauto

theorem run_isConnected :
    Run Step create.start [(create.start, .connect true false true)] isConnected :=
  Run.start.next ⟨Nat.zero_lt_one, rfl⟩

end Vs17.Asio.AsyncClient
