import Vs17.Library.Runs
import Mathlib.Data.Nat.Notation

/-! # Reads of the client

`AsyncClient::do_write` sends in place and then starts a read. A read that completes
starts the next one, so the client reads all the time after its first message, and
every further message adds one more read into the same buffer.
-/

namespace Vs17.Asio

open Runs

/-- The flag of the client and the operations outstanding on its socket. -/
structure AsyncClient where
  connected : Bool
  connects : ℕ
  reads : ℕ
  writes : ℕ
  deriving DecidableEq, Repr

namespace AsyncClient

/-- The constructor sets the flag before there is a connection. -/
def create : AsyncClient := ⟨true, 0, 0, 0⟩

/-- `start`, which calls `async_connect`. -/
def start (c : AsyncClient) : AsyncClient := { c with connects := c.connects + 1 }

def stop (c : AsyncClient) : AsyncClient :=
  if c.connected = false then c else { c with connected := false }

/-- `do_read` reads into the whole of `m_read_buffer_`. -/
def doRead (c : AsyncClient) : AsyncClient :=
  if c.connected = false then c else { c with reads := c.reads + 1 }

/-- `do_write`, where `send` throws or not. The call of `async_write_some` is commented
out in the source. -/
def doWrite (c : AsyncClient) (sent : Bool) : AsyncClient :=
  if c.connected = false then c
  else if sent then c.doRead
  else c

/-- `on_connect`; `set_option` may throw before the flag is set. -/
def onConnect (c : AsyncClient) (localEp err optionSet : Bool) : AsyncClient :=
  if localEp = false then c
  else if err = false then
    if optionSet then { c with connected := true } else c
  else c.stop

def onRead (c : AsyncClient) (err : Bool) : AsyncClient :=
  if err = false then c.doRead else c.stop

def onWrite (c : AsyncClient) (err : Bool) : AsyncClient :=
  if err = false then c.doRead else c.stop

/-- The caller calls a method, or an operation completes. -/
inductive Event
  | doWrite (sent : Bool)
  | stop
  | connect (localEp err optionSet : Bool)
  | read (err : Bool)
  | write (err : Bool)
  deriving DecidableEq, Repr

/-- An operation that completes was outstanding. -/
def Pending (c : AsyncClient) : Event → Prop
  | .doWrite _ | .stop => True
  | .connect .. => 0 < c.connects
  | .read _ => 0 < c.reads
  | .write _ => 0 < c.writes

def handle (c : AsyncClient) : Event → AsyncClient
  | .doWrite sent => c.doWrite sent
  | .stop => c.stop
  | .connect localEp err optionSet =>
    { c with connects := c.connects - 1 }.onConnect localEp err optionSet
  | .read err => { c with reads := c.reads - 1 }.onRead err
  | .write err => { c with writes := c.writes - 1 }.onWrite err

def Step (c : AsyncClient) (e : Event) (c' : AsyncClient) : Prop := c.Pending e ∧ c' = c.handle e

/-- No two reads target `m_read_buffer_` at the same time. -/
def OneRead (c : AsyncClient) : Prop := c.reads ≤ 1

/-- A message that is sent finds no read outstanding. -/
def SendsIdle (c : AsyncClient) : Event → Prop
  | .doWrite sent => c.connected = true → sent = true → c.reads = 0
  | _ => True

variable {c c' : AsyncClient} {e : Event}

@[simp] theorem reads_stop : c.stop.reads = c.reads := by
  unfold stop
  split <;> rfl

@[simp] theorem writes_stop : c.stop.writes = c.writes := by
  unfold stop
  split <;> rfl

@[simp] theorem writes_doRead : c.doRead.writes = c.writes := by
  unfold doRead
  split <;> rfl

theorem reads_doRead_le : c.doRead.reads ≤ c.reads + 1 := by
  unfold doRead
  split
  · exact Nat.le_succ _
  · exact Nat.le_refl _

@[simp] theorem reads_onConnect (localEp err optionSet : Bool) :
    (c.onConnect localEp err optionSet).reads = c.reads := by
  unfold onConnect
  split_ifs <;> simp

theorem reads_doWrite (sent : Bool) :
    (c.doWrite sent).reads = if c.connected = true ∧ sent = true then c.reads + 1 else c.reads := by
  unfold doWrite doRead
  cases c.connected <;> cases sent <;> simp

@[simp] theorem writes_doWrite (sent : Bool) : (c.doWrite sent).writes = c.writes := by
  unfold doWrite
  split_ifs <;> simp

@[simp] theorem writes_onConnect (localEp err optionSet : Bool) :
    (c.onConnect localEp err optionSet).writes = c.writes := by
  unfold onConnect
  split_ifs <;> simp

@[simp] theorem writes_onRead (err : Bool) : (c.onRead err).writes = c.writes := by
  unfold onRead
  split_ifs <;> simp

/-- No write is ever outstanding, so `on_write` is never called. -/
theorem writes_step (h : c.writes = 0) (hs : Step c e c') : c'.writes = 0 := by
  obtain ⟨hp, rfl⟩ := hs
  cases e with
  | doWrite => simpa [handle] using h
  | stop => simpa [handle] using h
  | connect => simpa [handle] using h
  | read => simpa [handle] using h
  | write =>
    have hpos : 0 < c.writes := hp
    omega

theorem oneRead_step_iff (hw : c.writes = 0) (h : OneRead c) (hs : Step c e c') :
    OneRead c' ↔ SendsIdle c e := by
  obtain ⟨hp, rfl⟩ := hs
  cases e with
  | doWrite sent =>
    rw [OneRead, handle, reads_doWrite, SendsIdle]
    split_ifs with hsend
    · exact ⟨fun hle _ _ => Nat.le_zero.mp (Nat.le_of_succ_le_succ hle),
        fun hidle => Nat.le_of_eq (congrArg (· + 1) (hidle hsend.1 hsend.2))⟩
    · exact iff_of_true h fun hc hsent => absurd ⟨hc, hsent⟩ hsend
  | stop => exact iff_of_true (by simpa [OneRead, handle] using h) trivial
  | connect => exact iff_of_true (by simpa [OneRead, handle] using h) trivial
  | read err =>
    refine iff_of_true ?_ trivial
    -- the read that completed makes room for the next one
    have hle : c.reads - 1 + 1 ≤ 1 := by
      have hpos : 0 < c.reads := hp
      have hone : c.reads ≤ 1 := h
      omega
    simp only [OneRead, handle, onRead]
    split_ifs
    · exact Nat.le_trans reads_doRead_le hle
    · rw [reads_stop]
      exact Nat.le_trans (Nat.le_succ _) hle
  | write =>
    have hpos : 0 < c.writes := hp
    omega

/-- The client is connected, and sends its first message. -/
def isConnected : AsyncClient := create.start.handle (.connect true false true)

def firstSent : AsyncClient := isConnected.handle (.doWrite true)

theorem run_firstSent : Run Step create.start
    ([] ++ [(create.start, .connect true false true)] ++ [(isConnected, .doWrite true)])
    firstSent :=
  (Run.start.next ⟨Nat.zero_lt_one, rfl⟩).next ⟨trivial, rfl⟩

end AsyncClient

end Vs17.Asio
