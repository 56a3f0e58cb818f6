import Vs17.Library.Runs
import Mathlib.Logic.Function.Basic
import Mathlib.Data.List.Nodup

/-! # Accepting connections

`AsyncServer::start` constructs a connection and hands its socket to the acceptor;
`on_accept` registers the connection, starts reading and calls `start` again. It
returns without calling it when an endpoint cannot be read or the accept failed,
and the server then accepts nobody any more.
-/

namespace Vs17.Asio

open Runs

/-- A connection object, named by the number of those constructed before it. -/
abbrev ConnPtr := ℕ

/-- Which socket calls of `close` succeed; a call that does not throws. -/
structure SocketCalls where
  remoteEndpoint : Bool
  shutdown : Bool
  close : Bool
  deriving DecidableEq, Repr

/-- How a read completes: with an error, when `close` is called, or with bytes that
make the processor send replies and possibly throw. -/
structure ReadDone where
  err : Bool
  calls : SocketCalls
  replies : ℕ
  throws : Bool
  deriving DecidableEq, Repr

/-- The server, its connections, and the operations outstanding on their sockets. -/
structure AsyncServer where
  accepting : List ConnPtr
  sConns : List ConnPtr
  connected : ConnPtr → Bool
  reading : List ConnPtr
  writing : List ConnPtr
  accepted : List ConnPtr
  constructed : ℕ

namespace AsyncServer

def create : AsyncServer := ⟨[], [], fun _ => false, [], [], [], 0⟩

/-- `start()`: one more connection waits to be accepted. -/
def start (s : AsyncServer) : AsyncServer :=
  { s with
    accepting := s.accepting ++ [s.constructed]
    connected := Function.update s.connected s.constructed true
    constructed := s.constructed + 1 }

def deleteConn (s : AsyncServer) (conn : ConnPtr) : AsyncServer :=
  { s with sConns := s.sConns.erase conn }

/-- `AsyncConnection::close`, left by an exception where a socket call throws. -/
def close (s : AsyncServer) (conn : ConnPtr) (calls : SocketCalls) : AsyncServer :=
  let s := { s with connected := Function.update s.connected conn false }
  if calls.remoteEndpoint = false then s
  else if calls.shutdown = false then s
  else if calls.close = false then s
  else s.deleteConn conn

def doRead (s : AsyncServer) (conn : ConnPtr) : AsyncServer :=
  if s.connected conn = false then s else { s with reading := s.reading ++ [conn] }

/-- Calls of `do_write`, one for each reply. -/
def doWrite (s : AsyncServer) (conn : ConnPtr) (replies : ℕ) : AsyncServer :=
  if s.connected conn = false then s
  else { s with writing := s.writing ++ List.replicate replies conn }

/-- `on_accept`, where the two endpoints can be read or not. -/
def onAccept (s : AsyncServer) (conn : ConnPtr) (remoteEp localEp err : Bool) : AsyncServer :=
  if remoteEp = false then s
  else if localEp = false then s
  else if err then s
  else
    let s := { s with sConns := s.sConns ++ [conn], accepted := s.accepted ++ [conn] }
    (s.doRead conn).start

/-- `AsyncConnection::on_read`. -/
def onRead (s : AsyncServer) (conn : ConnPtr) (done : ReadDone) : AsyncServer :=
  if done.err then s.close conn done.calls -- closed by now, so nothing else happens
  else if s.connected conn = false then s
  else
    let s := s.doWrite conn done.replies
    if done.throws then s else s.doRead conn

/-- `AsyncConnection::on_write`, which throws when an endpoint cannot be read. -/
def onWrite (s : AsyncServer) (conn : ConnPtr) (endpoints err : Bool) (calls : SocketCalls) :
    AsyncServer :=
  if endpoints = false then s else if err then s.close conn calls else s

/-- An operation completes, and its handler is called. -/
inductive Event
  | accept (conn : ConnPtr) (remoteEp localEp err : Bool)
  | read (conn : ConnPtr) (done : ReadDone)
  | write (conn : ConnPtr) (endpoints err : Bool) (calls : SocketCalls)

/-- The operation is outstanding. -/
def Pending (s : AsyncServer) : Event → Prop
  | .accept conn .. => conn ∈ s.accepting
  | .read conn _ => conn ∈ s.reading
  | .write conn .. => conn ∈ s.writing

def handle (s : AsyncServer) : Event → AsyncServer
  | .accept conn remoteEp localEp err =>
    { s with accepting := s.accepting.erase conn }.onAccept conn remoteEp localEp err
  | .read conn done => { s with reading := s.reading.erase conn }.onRead conn done
  | .write conn endpoints err calls =>
    { s with writing := s.writing.erase conn }.onWrite conn endpoints err calls

def Step (s : AsyncServer) (e : Event) (t : AsyncServer) : Prop := s.Pending e ∧ t = s.handle e

/-- Exactly one `async_accept` is outstanding. -/
def OneAccept (s : AsyncServer) : Prop := s.accepting.length = 1

instance : DecidablePred OneAccept := fun s =>
  inferInstanceAs (Decidable (s.accepting.length = 1))

/-- An accept that completes finds both endpoints and no error. -/
def AcceptSucceeds (_ : AsyncServer) : Event → Prop
  | .accept _ remoteEp localEp err => remoteEp = true ∧ localEp = true ∧ err = false
  | _ => True

section Accepting

variable (s : AsyncServer) (conn : ConnPtr)

@[simp] theorem accepting_doRead : (s.doRead conn).accepting = s.accepting := by
  unfold doRead
  split <;> rfl

@[simp] theorem constructed_doRead : (s.doRead conn).constructed = s.constructed := by
  unfold doRead
  split <;> rfl

@[simp] theorem accepting_close (calls : SocketCalls) :
    (s.close conn calls).accepting = s.accepting := by
  unfold close deleteConn
  split_ifs <;> rfl

@[simp] theorem accepting_onRead (done : ReadDone) :
    (s.onRead conn done).accepting = s.accepting := by
  unfold onRead doWrite
  split_ifs <;> simp

@[simp] theorem accepting_onWrite (endpoints err : Bool) (calls : SocketCalls) :
    (s.onWrite conn endpoints err calls).accepting = s.accepting := by
  unfold onWrite
  split_ifs <;> simp

/-- Only a successful accept starts another one. -/
theorem accepting_onAccept (remoteEp localEp err : Bool) :
    (s.onAccept conn remoteEp localEp err).accepting =
      if remoteEp = true ∧ localEp = true ∧ err = false then s.accepting ++ [s.constructed]
      else s.accepting := by
  cases remoteEp <;> cases localEp <;> cases err <;> simp [onAccept, start]

end Accepting

variable {s t : AsyncServer} {e : Event}

theorem oneAccept_step_iff (h : OneAccept s) (hs : Step s e t) :
    OneAccept t ↔ AcceptSucceeds s e := by
  obtain ⟨hp, rfl⟩ := hs
  cases e with
  | accept conn remoteEp localEp err =>
    -- the completed accept was the only one
    have hnone : s.accepting.erase conn = [] := by
      apply List.eq_nil_of_length_eq_zero
      rw [List.length_erase_of_mem hp, h]
    rw [OneAccept, handle, accepting_onAccept, hnone, AcceptSucceeds]
    split_ifs with hok
    · exact iff_of_true rfl hok
    · exact iff_of_false (by simp) hok
  | read => exact iff_of_true (by simpa [OneAccept, handle] using h) trivial
  | write => exact iff_of_true (by simpa [OneAccept, handle] using h) trivial

/-- In a run of a started server exactly one accept is outstanding throughout exactly
when every accept that completes is successful. -/
theorem run_oneAccept_iff {tr : List (AsyncServer × Event)} (h : Run Step create.start tr s) :
    Throughout OneAccept tr s ↔ AllSteps AcceptSucceeds tr :=
  h.throughout_iff (I := fun _ => True) trivial (fun _ _ _ _ _ => trivial) rfl
    (fun _ _ _ _ => oneAccept_step_iff)

theorem step_accept (remoteEp localEp err : Bool) :
    Step create.start (.accept 0 remoteEp localEp err)
      (create.start.handle (.accept 0 remoteEp localEp err)) :=
  ⟨List.mem_singleton_self 0, rfl⟩

theorem run_oneAccept_client :
    ∃ tr s, Run Step create.start tr s ∧ Throughout OneAccept tr s ∧ s.sConns = [0] := by
  have hrun := Run.start.next (step_accept true true false)
  refine ⟨_, _, hrun, (run_oneAccept_iff hrun).mpr ?_, rfl⟩
  exact allSteps_append.mpr ⟨by simp [AllSteps], rfl, rfl, rfl⟩

/-- A client that is gone before its address is read is the last one accepted. -/
theorem not_oneAccept_goneClient :
    ∃ tr s, Run Step create.start tr s ∧ ¬ OneAccept s ∧ s.accepting = [] :=
  ⟨_, _, Run.start.next (step_accept false true false), by decide, rfl⟩

end AsyncServer

end Vs17.Asio
