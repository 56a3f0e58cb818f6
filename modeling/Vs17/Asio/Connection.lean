import Vs17.Asio.MsgGet
import Vs17.Library.Runs

/-! # The receiving side of `AsyncConnection`

A completed read has put its bytes behind the kept ones in `read_buffer_`; `on_read`
hands the whole of it to `msgGet`, moves the unconsumed rest to the front and passes
every queued message to `msgProcess`. One read splits the kept bytes followed by the
new ones, and keeps the rest.
-/

namespace Vs17.Asio

open Framing Words

/-- `max_msg`, the size of `read_buffer_`. -/
def maxMsg : ℕ := 65536

/-- The storage of `read_buffer_`. -/
structure ReadBuffer where
  bytes : Bytes
  length_eq : bytes.length = maxMsg

namespace ReadBuffer

/-- A buffer of zeros. -/
def zero : ReadBuffer := ⟨List.replicate maxMsg 0, List.length_replicate⟩

/-- The transport stores bytes into the offered region. -/
def receive (b : ReadBuffer) (off : ℕ) (src : Bytes) : ReadBuffer :=
  ⟨blit off src b.bytes, by rw [length_blit, b.length_eq]⟩

/-- `memmove(read_buffer_, read_buffer_ + ret, max_msg - ret)`. -/
def memmove (b : ReadBuffer) (ret : ℕ) : ReadBuffer :=
  ⟨b.bytes.drop ret ++ b.bytes.drop (maxMsg - ret), by
    simp only [List.length_append, List.length_drop, b.length_eq]; omega⟩

end ReadBuffer

/-- The members of `AsyncConnection` that reading uses. -/
structure AsyncConnection where
  connected : Bool
  readBuffer : ReadBuffer
  readPos : ℕ
  readPos_le : readPos ≤ maxMsg
  mqRecv : List Bytes

/-- Why a handler does not return in order: `std::out_of_range` leaves it, `msgGet`
never ends, or it reads a header field past the end of its message. -/
inductive Fault
  | outOfRange
  | endless
  | pastEnd
  deriving DecidableEq, Repr

namespace AsyncConnection

/-- A connection as its constructor leaves it; `read_buffer_` is not initialised. -/
def create (b : ReadBuffer) : AsyncConnection := ⟨true, b, 0, Nat.zero_le _, []⟩

/-- `close` as far as this object is concerned: the flag is cleared first. -/
def close (c : AsyncConnection) : AsyncConnection := { c with connected := false }

/-- The bytes kept at the front of `read_buffer_`. -/
def received (c : AsyncConnection) : Bytes := c.readBuffer.bytes.take c.readPos

/-- The region `do_read` offers to `async_read_some`, as an offset and a size. -/
def doRead (c : AsyncConnection) : Option (ℕ × ℕ) :=
  if c.connected then some (c.readPos, maxMsg - c.readPos) else none

/-- `on_read`. The second component lists the messages passed to `msgProcess`. -/
def onRead (k : Cutter) (c : AsyncConnection) (err : Bool) (bytes : ℕ)
    (h : c.readPos + bytes ≤ maxMsg) : Except Fault (AsyncConnection × List Bytes) :=
  if err then .ok (c.close, []) -- closed by now, so the test of `connected` returns
  else if c.connected = false then .ok (c, [])
  else if 0 < bytes then
    let readPos := c.readPos + bytes
    let msg := c.readBuffer.bytes.take readPos
    match msgGet k msg c.mqRecv with
    | none => .error .endless
    | some (.throws _) => .error .outOfRange
    | some (.returns ret qRecv) =>
      if 0 < ret then
        .ok (⟨c.connected, c.readBuffer.memmove ret, readPos - ret,
          (Nat.sub_le _ _).trans h, []⟩, qRecv)
      else .ok (⟨c.connected, c.readBuffer, readPos, h, []⟩, qRecv)
  else .ok (c, [])

/-- A read completes: with an error, or with bytes stored into the offered region. -/
def complete (k : Cutter) (c : AsyncConnection) (err : Bool) (chunk : Bytes)
    (h : c.readPos + chunk.length ≤ maxMsg) : Except Fault (AsyncConnection × List Bytes) :=
  onRead k { c with readBuffer := c.readBuffer.receive c.readPos chunk } err chunk.length h

/-- A read that completes: its error flag and the bytes it stored. -/
structure Completion where
  err : Bool
  chunk : Bytes

/-- `on_read` returns normally from this completion and leaves the second connection. -/
def Completes (k : Cutter) (c : AsyncConnection) (e : Completion) (c' : AsyncConnection) : Prop :=
  ∃ h ms, complete k c e.err e.chunk h = .ok (c', ms)

theorem length_received (c : AsyncConnection) : c.received.length = c.readPos := by
  rw [received, List.length_take, c.readBuffer.length_eq, Nat.min_eq_left c.readPos_le]

@[simp] theorem received_create (b : ReadBuffer) : (create b).received = [] := rfl

/-- Between two reads: nothing is queued, and no frame can be cut off the kept bytes. -/
structure Settled (k : Cutter) (c : AsyncConnection) : Prop where
  mqRecv : c.mqRecv = []
  cut : k.cut c.received = none

theorem settled_create (k : Cutter) (b : ReadBuffer) : Settled k (create b) :=
  ⟨rfl, cut_nil⟩

variable {k : Cutter} {c c' : AsyncConnection} {chunk : Bytes} {ms : List Bytes}

/-- The buffer handed to `msgGet` holds the kept bytes and the new ones. -/
theorem take_receive (h : c.readPos + chunk.length ≤ maxMsg) :
    (c.readBuffer.receive c.readPos chunk).bytes.take (c.readPos + chunk.length) =
      c.received ++ chunk :=
  take_blit (by rw [c.readBuffer.length_eq]; exact h)

/-- Storing beyond the kept bytes leaves them alone. -/
theorem received_receive (h : c.readPos + chunk.length ≤ maxMsg) :
    received { c with readBuffer := c.readBuffer.receive c.readPos chunk } = c.received := by
  have ht := congrArg (List.take c.readPos) (take_receive h)
  rwa [List.take_take, Nat.min_eq_left (Nat.le_add_right _ _),
    List.take_append_of_le_length (c.length_received).ge,
    List.take_of_length_le (c.length_received).le] at ht

theorem take_memmove {b : ReadBuffer} {pos ret : ℕ} (hr : ret ≤ pos) (hp : pos ≤ maxMsg) :
    (b.memmove ret).bytes.take (pos - ret) = (b.bytes.take pos).drop ret := by
  have hl : pos - ret ≤ (b.bytes.drop ret).length := by
    rw [List.length_drop, b.length_eq]; omega
  rw [ReadBuffer.memmove, List.take_append_of_le_length hl, List.drop_take]

/-- With nothing consumed there is nothing to move. -/
theorem memmove_zero (b : ReadBuffer) : b.memmove 0 = b := by
  have hend : b.bytes.drop maxMsg = [] := List.drop_eq_nil_of_le b.length_eq.le
  simp [ReadBuffer.memmove, hend]

/-- The connection after a read of which `msgGet` consumed the first bytes. -/
def consumed (c : AsyncConnection) (bytes ret : ℕ) (h : c.readPos + bytes ≤ maxMsg) :
    AsyncConnection :=
  ⟨c.connected, c.readBuffer.memmove ret, c.readPos + bytes - ret, (Nat.sub_le _ _).trans h, []⟩

theorem onRead_of_returns {bytes ret : ℕ} {h : c.readPos + bytes ≤ maxMsg} {q : List Bytes}
    (hc : c.connected = true) (hpos : 0 < bytes)
    (hget : msgGet k (c.readBuffer.bytes.take (c.readPos + bytes)) c.mqRecv =
      some (.returns ret q)) :
    onRead k c false bytes h = .ok (c.consumed bytes ret h, q) := by
  by_cases hret : 0 < ret
  · simp [onRead, consumed, hc, hpos, hget, hret]
  · obtain rfl : ret = 0 := by omega
    simp [onRead, consumed, hc, hpos, hget, memmove_zero]

/-- A read without error on an open connection splits the kept bytes followed by the
new ones, passes on the frames and keeps the rest. -/
theorem complete_of_splits (hc : c.connected = true) (hs : Settled k c)
    (h : c.readPos + chunk.length ≤ maxMsg) {r : Bytes}
    (hsplit : Splits k.cut (c.received ++ chunk) ms r) :
    ∃ c', complete k c false chunk h = .ok (c', ms) ∧ c'.connected = true ∧ Settled k c' ∧
      c'.received = r := by
  by_cases hpos : 0 < chunk.length
  · have hlen := congrArg List.length hsplit.flatten_append
    simp only [List.length_append, length_received] at hlen
    have hget : msgGet k ((c.readBuffer.receive c.readPos chunk).bytes.take
        (c.readPos + chunk.length)) c.mqRecv = some (.returns ms.flatten.length ms) := by
      rw [take_receive h, msgGet_returns_iff]
      exact ⟨ms, r, hsplit, by simp [hs.mqRecv], by rw [List.length_append, length_received, hlen]⟩
    let filled : AsyncConnection := { c with readBuffer := c.readBuffer.receive c.readPos chunk }
    have hr : (filled.consumed chunk.length ms.flatten.length h).received = r := by
      have hrest : (c.received ++ chunk).drop ms.flatten.length = r := by
        rw [← hsplit.flatten_append, List.drop_left]
      have hle : ms.flatten.length ≤ c.readPos + chunk.length := by omega
      rw [← hrest, ← take_receive h]
      exact take_memmove hle h
    exact ⟨_, onRead_of_returns hc hpos hget, hc, ⟨rfl, hr ▸ hsplit.rest⟩, hr⟩
  · obtain rfl : chunk = [] := by simpa using hpos
    obtain ⟨rfl, rfl⟩ := hsplit.deterministic (by simpa using .wait hs.cut)
    have hr := received_receive h
    exact ⟨{ c with readBuffer := c.readBuffer.receive c.readPos [] },
      by simp [complete, onRead, hc], hc, ⟨hs.mqRecv, by rw [hr]; exact hs.cut⟩, hr⟩

theorem completes_of_splits (hc : c.connected = true) (hs : Settled k c)
    (h : c.readPos + chunk.length ≤ maxMsg) {r : Bytes}
    (hsplit : Splits k.cut (c.received ++ chunk) ms r) :
    ∃ c', Completes k c ⟨false, chunk⟩ c' ∧ Settled k c' ∧ c'.received = r := by
  obtain ⟨c', hok, -, hs', hr⟩ := complete_of_splits hc hs h hsplit
  exact ⟨c', ⟨h, ms, hok⟩, hs', hr⟩

/-- Conversely, a read without error that returns has split. -/
theorem splits_of_complete (hc : c.connected = true) (hs : Settled k c)
    {h : c.readPos + chunk.length ≤ maxMsg} (hok : complete k c false chunk h = .ok (c', ms)) :
    Splits k.cut (c.received ++ chunk) ms c'.received ∧ c'.connected = true ∧ Settled k c' := by
  have key : ∃ fs r, Splits k.cut (c.received ++ chunk) fs r := by
    by_cases hpos : 0 < chunk.length
    · simp only [complete, onRead, hc, hpos, take_receive h, if_true] at hok
      cases hget : msgGet k (c.received ++ chunk) c.mqRecv with
      | none => simp [hget] at hok
      | some e =>
        cases e with
        | throws q => simp [hget] at hok
        | returns ret q =>
          obtain ⟨fs, r, hsplit, -, -⟩ := msgGet_returns_iff.mp hget
          exact ⟨fs, r, hsplit⟩
    · obtain rfl : chunk = [] := by simpa using hpos
      exact ⟨[], c.received, by simpa using .wait hs.cut⟩
  obtain ⟨fs, r, hsplit⟩ := key
  obtain ⟨c₁, hok₁, hc₁, hs₁, rfl⟩ := complete_of_splits hc hs h hsplit
  obtain ⟨rfl, rfl⟩ := Prod.mk.inj (Except.ok.inj (hok₁.symm.trans hok))
  exact ⟨hsplit, hc₁, hs₁⟩

/-- What a completed read may do to a settled connection: leave its kept bytes alone
when it is closed or gets closed, or split. -/
theorem completes_cases {e : Completion} (hs : Settled k c) (h : Completes k c e c') :
    Settled k c' ∧
      ((c.connected && !e.err) = false ∧ c'.readPos = c.readPos ∧ c'.connected = false ∨
        (c.connected && !e.err) = true ∧ c'.connected = true ∧
          c.readPos + e.chunk.length ≤ maxMsg ∧
          ∃ ms, Splits k.cut (c.received ++ e.chunk) ms c'.received) := by
  obtain ⟨hfit, ms, hok⟩ := h
  have hcut := (congrArg k.cut (received_receive hfit)).trans hs.cut
  by_cases herr : e.err = true
  · simp only [complete, onRead, herr, if_true, Except.ok.injEq, Prod.mk.injEq] at hok
    obtain ⟨rfl, -⟩ := hok
    exact ⟨⟨hs.mqRecv, hcut⟩, .inl ⟨by simp [herr], rfl, rfl⟩⟩
  · rw [Bool.not_eq_true] at herr
    rw [herr] at hok
    by_cases hc : c.connected = true
    · obtain ⟨hsplit, hc', hs'⟩ := splits_of_complete hc hs hok
      exact ⟨hs', .inr ⟨by simp [hc, herr], hc', hfit, ms, hsplit⟩⟩
    · rw [Bool.not_eq_true] at hc
      obtain ⟨rfl, -⟩ : { c with readBuffer := c.readBuffer.receive c.readPos e.chunk } = c' ∧
          [] = ms := by simpa [complete, onRead, hc] using hok
      exact ⟨⟨hs.mqRecv, hcut⟩, .inl ⟨by simp [hc], rfl, hc⟩⟩

end AsyncConnection

end Vs17.Asio
