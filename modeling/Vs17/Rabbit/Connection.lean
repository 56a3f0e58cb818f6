import Mathlib.Data.Int.Notation
import Vs17.Library.Resources
import Vs17.Library.Runs

/-! # The connection object of `MyRabbit`

`connectRabbit` and `reconnectRabbit` get a connection object from the library, and
`mn_isConnected` is set when everything after that has worked. `closeRabbit` gives the
object back whether the flag is set or not, the destructor only if it is.
-/

namespace Vs17.Rabbit

open Runs

/-- The `reply_type` of an `amqp_rpc_reply_t`. -/
inductive ReplyType
  | normal
  | none
  | libraryException
  | serverException
  deriving DecidableEq, Repr

def logOnAmqpError : ReplyType → ℤ
  | .normal => 0
  | .none | .libraryException | .serverException => 1

theorem logOnAmqpError_ne_zero (x : ReplyType) : logOnAmqpError x ≠ 0 ↔ x ≠ .normal := by
  cases x <;> simp [logOnAmqpError]

/-- What the library answers to one attempt to connect: the new object (or a null pointer),
whether there is a socket for it (or a null pointer), and the replies to the login and to the
opening of the channel. -/
structure Attempt where
  newConnection : Option ℕ
  socket : Bool
  login : ReplyType
  openChannel : ReplyType
  deriving DecidableEq, Repr

/-- `m_conn` is `none` before the first attempt, and when it is null. -/
structure MyRabbit where
  isConnected : ℤ
  conn : Option ℕ
  conns : Resources ℕ
  deriving DecidableEq, Repr

namespace MyRabbit

def init : MyRabbit := ⟨0, none, .empty⟩

/-- The library is called with `m_conn`. -/
def useConn (s : MyRabbit) : MyRabbit :=
  match s.conn with
  | some c => { s with conns := s.conns.use c }
  | none => { s with conns := s.conns.misuse }

/-- `amqp_new_connection` -/
def newConn (c : Option ℕ) (s : MyRabbit) : MyRabbit :=
  match c with
  | some c => { s with conn := some c, conns := s.conns.acquire c }
  | none => { s with conn := none }

/-- `amqp_socket_open` on `m_socket`, which belongs to `m_conn`. That there is none is only
logged. -/
def openSocket (socket : Bool) (s : MyRabbit) : MyRabbit :=
  if socket then s.useConn else { s with conns := s.conns.misuse }

/-- `amqp_destroy_connection` -/
def destroyConn (s : MyRabbit) : MyRabbit :=
  match s.conn with
  | some c => { s with conns := s.conns.release c }
  | none => { s with conns := s.conns.misuse }

def closeRabbit (s : MyRabbit) : MyRabbit :=
  let s := s.useConn -- `amqp_channel_close`
  let s := s.useConn -- `amqp_connection_close`
  { s.destroyConn with isConnected := 0 }

/-- What `connectRabbit` and `reconnectRabbit` have in common. -/
def openConnection (e : Attempt) (s : MyRabbit) : MyRabbit × ℤ :=
  let s := s.newConn e.newConnection
  let s := s.useConn -- `amqp_tcp_socket_new`
  let s := s.openSocket e.socket -- a failure is only logged
  let s := s.useConn -- `amqp_login`
  if logOnAmqpError e.login ≠ 0 then (s, -1)
  else
    let s := s.useConn -- `amqp_channel_open`
    let s := s.useConn -- `amqp_get_rpc_reply`
    if logOnAmqpError e.openChannel ≠ 0 then (s, -1)
    else ({ s with isConnected := 1 }, 0)

def connectRabbit (e : Attempt) (s : MyRabbit) : MyRabbit × ℤ := openConnection e s

def reconnectRabbit (e : Attempt) (s : MyRabbit) : MyRabbit × ℤ :=
  openConnection e (if s.isConnected = 1 then s.closeRabbit else s)

/-- `~MyRabbit` -/
def destruct (s : MyRabbit) : MyRabbit := if s.isConnected = 1 then s.closeRabbit else s

end MyRabbit

/-- A call on the object, with what the library answers. -/
inductive Call
  | connect (e : Attempt)
  | reconnect (e : Attempt)
  | close
  deriving DecidableEq, Repr

namespace Call

def handle (s : MyRabbit) : Call → MyRabbit
  | connect e => (s.connectRabbit e).1
  | reconnect e => (s.reconnectRabbit e).1
  | close => s.closeRabbit

/-- A new object is none of those that exist when it is asked for; `reconnectRabbit` has then
done what the destructor does. -/
def Enabled (s : MyRabbit) : Call → Prop
  | connect e => ∀ c ∈ e.newConnection, c ∉ s.conns.live
  | reconnect e => ∀ c ∈ e.newConnection, c ∉ s.destruct.conns.live
  | close => True

end Call

namespace Attempt

/-- The attempt returns 0 once it has an object. -/
def Succeeds (e : Attempt) : Prop := e.login = .normal ∧ e.openChannel = .normal

instance (e : Attempt) : Decidable e.Succeeds := inferInstanceAs (Decidable (_ ∧ _))

end Attempt

/-- How far the caller has got: nothing open, an object left over from an attempt that
failed, or connected. -/
inductive Phase
  | idle
  | failed
  | connected
  deriving DecidableEq, Repr

namespace Phase

/-- Where an attempt leads that finds nothing open. -/
def ofAttempt (e : Attempt) : Option Phase :=
  if e.newConnection.isSome ∧ e.socket then some (if e.Succeeds then connected else failed)
  else none

def next : Phase → Call → Option Phase
  | idle, .connect e | idle, .reconnect e | connected, .reconnect e => ofAttempt e
  | failed, .close | connected, .close => some idle
  | idle, .close | failed, .connect _ | failed, .reconnect _ | connected, .connect _ => none

/-- Calls after which every object has been given back once: `connectRabbit` only when nothing
is open, `closeRabbit` only when something is and at once after an attempt that failed; the
library always has an object to hand out, and a socket for it. -/
def WellUsed : Phase → List Call → Prop
  | p, [] => p ≠ failed
  | p, c :: cs =>
    match next p c with
    | some q => WellUsed q cs
    | none => False

instance : ∀ p calls, Decidable (WellUsed p calls)
  | p, [] => inferInstanceAs (Decidable (p ≠ failed))
  | p, c :: cs =>
    match h : next p c with
    | some q =>
      have := instDecidableWellUsed q cs
      decidable_of_iff (WellUsed q cs) (by simp [WellUsed, h])
    | none => .isFalse (by simp [WellUsed, h])

end Phase

namespace MyRabbit

variable {s : MyRabbit} {c : ℕ} {e : Attempt}

theorem useConn_of_mem (hc : s.conn = some c) (hm : c ∈ s.conns.live) : s.useConn = s := by
  rw [useConn, hc]
  simp only [Resources.use_of_mem hm, ← hc]

@[simp] theorem conn_useConn : s.useConn.conn = s.conn := by
  rcases hc : s.conn with _ | c <;> simp [useConn, hc]

@[simp] theorem live_useConn : s.useConn.conns.live = s.conns.live := by
  rcases hc : s.conn with _ | c <;> simp [useConn, hc, Resources.misuse]

theorem closeRabbit_of_mem (hc : s.conn = some c) (hm : c ∈ s.conns.live) :
    s.closeRabbit = ⟨0, some c, s.conns.release c⟩ := by
  simp only [closeRabbit, useConn_of_mem hc hm, destroyConn, hc]

theorem misused_useConn (h : s.conns.misused = true) : s.useConn.conns.misused = true := by
  rcases hc : s.conn with _ | c <;> simp [useConn, hc, Resources.misuse, Resources.use, h]

theorem misused_openSocket {socket : Bool}
    (h : s.conns.misused = true ∨ socket = false) :
    (s.openSocket socket).conns.misused = true := by
  rw [openSocket]
  rcases h with h | rfl
  · split
    · exact misused_useConn h
    · rfl
  · rfl

/-- What has been misused before the login remains so. -/
theorem openConnection_misused
    (h : (((s.newConn e.newConnection).useConn).openSocket e.socket).conns.misused = true) :
    (s.openConnection e).1.conns.misused = true := by
  have hlogin := misused_useConn h
  have hchannel := misused_useConn (misused_useConn hlogin)
  simp only [openConnection]
  split
  · exact hlogin
  · split
    · exact hchannel
    · exact hchannel

/-- An attempt leads to a phase, with the new object as `m_conn`, or passes a null pointer to
the library. -/
theorem openConnection_cases (s : MyRabbit) (e : Attempt) :
    (Phase.ofAttempt e = none ∧ (s.openConnection e).1.conns.misused = true) ∨
    ∃ c, e.newConnection = some c ∧
      Phase.ofAttempt e = some (if e.Succeeds then .connected else .failed) ∧
      (s.openConnection e).1 =
        ⟨if e.Succeeds then 1 else s.isConnected, some c, s.conns.acquire c⟩ := by
  rcases hn : e.newConnection with _ | c
  · refine .inl ⟨by simp [Phase.ofAttempt, hn], openConnection_misused ?_⟩
    rw [hn]
    exact misused_openSocket (.inl rfl)
  cases hsock : e.socket with
  | false =>
    refine .inl ⟨by simp [Phase.ofAttempt, hsock], openConnection_misused ?_⟩
    exact misused_openSocket (.inr hsock)
  | true =>
    refine .inr ⟨c, rfl, by simp [Phase.ofAttempt, hn, hsock], ?_⟩
    have huse : (s.newConn (some c)).useConn = s.newConn (some c) :=
      useConn_of_mem rfl (by simp [newConn])
    simp only [openConnection, openSocket, hn, hsock, if_true, huse, logOnAmqpError_ne_zero,
      Attempt.Succeeds]
    by_cases hl : e.login = .normal <;> by_cases ho : e.openChannel = .normal <;>
      simp [hl, ho, newConn]

/-- Something has gone wrong for good: an object that is not held was used or released, or one
that exists is not the one `m_conn` points to. -/
def Lost (s : MyRabbit) : Prop := s.conns.misused = true ∨ ∃ c ∈ s.conns.live, s.conn ≠ some c

theorem Lost.closeRabbit (h : s.Lost) : s.closeRabbit.Lost := by
  rcases hc : s.conn with _ | c
  · left
    simp [MyRabbit.closeRabbit, destroyConn, hc, Resources.misuse]
  rcases h with h | ⟨d, hd, hne⟩
  · left
    have hmis := misused_useConn (misused_useConn h)
    simp [MyRabbit.closeRabbit, destroyConn, hc, Resources.release, hmis]
  · right
    have hcd : d ≠ c := fun heq => hne (by rw [hc, heq])
    refine ⟨d, ?_, by simpa [MyRabbit.closeRabbit, destroyConn, hc] using hcd.symm⟩
    simpa [MyRabbit.closeRabbit, destroyConn, hc, List.mem_erase_of_ne hcd] using hd

/-- An attempt leaves behind what existed before it. -/
theorem lost_openConnection_of_mem (hc : c ∈ s.conns.live)
    (he : ∀ c ∈ e.newConnection, c ∉ s.conns.live) : (s.openConnection e).1.Lost := by
  rcases openConnection_cases s e with ⟨-, hmis⟩ | ⟨d, hn, -, hs⟩
  · exact .inl hmis
  · rw [hs]
    refine .inr ⟨c, List.mem_cons_of_mem _ hc, fun heq => he d hn ?_⟩
    obtain rfl := Option.some.inj heq
    exact hc

theorem Lost.openConnection (h : s.Lost) (he : ∀ c ∈ e.newConnection, c ∉ s.conns.live) :
    (s.openConnection e).1.Lost := by
  rcases h with h | ⟨c, hc, _⟩
  · rcases openConnection_cases s e with ⟨-, hmis⟩ | ⟨c, -, -, hs⟩
    · exact .inl hmis
    · rw [hs]
      exact .inl h
  · exact lost_openConnection_of_mem hc he

theorem reconnectRabbit_eq : s.reconnectRabbit e = s.destruct.openConnection e := rfl

theorem Lost.destruct (h : s.Lost) : s.destruct.Lost := by
  rw [MyRabbit.destruct]
  split
  · exact h.closeRabbit
  · exact h

theorem Lost.handle (h : s.Lost) {call : Call} (he : call.Enabled s) : (call.handle s).Lost := by
  rcases call with e | e | _
  · exact h.openConnection he
  · exact h.destruct.openConnection he
  · exact h.closeRabbit

theorem Lost.not_balanced (h : s.Lost) : ¬ s.conns.Balanced := by
  rintro ⟨hlive, hmis⟩
  rcases h with h | ⟨c, hc, _⟩
  · simp [hmis] at h
  · simp [hlive] at hc

/-- What the state is at each phase. -/
def At : Phase → MyRabbit → Prop
  | .idle, s => s.conns.Balanced ∧ s.isConnected ≠ 1
  | .failed, s => (∃ c, s.conn = some c ∧ s.conns = ⟨[c], false⟩) ∧ s.isConnected ≠ 1
  | .connected, s => (∃ c, s.conn = some c ∧ s.conns = ⟨[c], false⟩) ∧ s.isConnected = 1

theorem balanced_closeRabbit (h : ∃ c, s.conn = some c ∧ s.conns = ⟨[c], false⟩) :
    s.closeRabbit.conns.Balanced ∧ s.closeRabbit.isConnected ≠ 1 := by
  obtain ⟨c, hc, hconns⟩ := h
  rw [closeRabbit_of_mem hc (by simp [hconns]), hconns]
  exact ⟨⟨by simp, by simp [Resources.release]⟩, by simp⟩

/-- An attempt that finds nothing open. -/
theorem at_openConnection (h : s.conns.Balanced) (hs : s.isConnected ≠ 1) :
    match Phase.ofAttempt e with
    | some q => At q (s.openConnection e).1
    | none => (s.openConnection e).1.Lost := by
  rcases openConnection_cases s e with ⟨hq, hmis⟩ | ⟨c, -, hq, hopen⟩
  · rw [hq]
    exact .inl hmis
  · have hconns : s.conns.acquire c = ⟨[c], false⟩ := by
      rw [Resources.acquire, h.live_eq, h.not_misused]
    rw [hq, hopen, hconns]
    by_cases hok : e.Succeeds <;> simp [hok, At, hs]

/-- Nothing is open once a connected object has been closed. -/
theorem At.destruct {p : Phase} (h : At p s) (hp : p ≠ .failed) : At .idle s.destruct := by
  rcases p with _ | _ | _
  · rwa [MyRabbit.destruct, if_neg h.2]
  · exact absurd rfl hp
  · rw [MyRabbit.destruct, if_pos h.2]
    exact balanced_closeRabbit h.1

theorem At.handle {p : Phase} (h : At p s) {call : Call} (he : call.Enabled s) :
    match Phase.next p call with
    | some q => At q (call.handle s)
    | none => (call.handle s).Lost := by
  rcases p with _ | _ | _ <;> rcases call with e | e | _
  -- nothing is open
  · exact at_openConnection h.1 h.2
  · exact at_openConnection (h.destruct (by decide)).1 (h.destruct (by decide)).2
  · left
    rcases hc : s.conn with _ | c
    · simp [Call.handle, closeRabbit, destroyConn, hc, Resources.misuse]
    · simp [Call.handle, closeRabbit, destroyConn, hc, Resources.release, h.1.live_eq]
  -- an object is left over
  · obtain ⟨⟨c, _, hconns⟩, _⟩ := h
    exact lost_openConnection_of_mem (c := c) (by simp [hconns]) he
  · obtain ⟨⟨c, _, hconns⟩, hs⟩ := h
    have hd : s.destruct = s := if_neg hs
    rw [Call.Enabled, hd] at he
    simp only [Phase.next, Call.handle, reconnectRabbit_eq, hd]
    exact lost_openConnection_of_mem (c := c) (by simp [hconns]) he
  · exact balanced_closeRabbit h.1
  -- connected
  · obtain ⟨⟨c, _, hconns⟩, _⟩ := h
    exact lost_openConnection_of_mem (c := c) (by simp [hconns]) he
  · exact at_openConnection (h.destruct (by decide)).1 (h.destruct (by decide)).2
  · exact balanced_closeRabbit h.1

theorem Lost.foldl_handle {calls : List Call} (h : s.Lost)
    (hcalls : Follows Call.Enabled Call.handle s calls) : (calls.foldl Call.handle s).Lost := by
  induction calls generalizing s with
  | nil => exact h
  | cons call calls ih => exact ih (h.handle hcalls.1) hcalls.2

theorem At.balanced_iff {p : Phase} (h : At p s) {calls : List Call}
    (hcalls : Follows Call.Enabled Call.handle s calls) :
    (calls.foldl Call.handle s).destruct.conns.Balanced ↔ p.WellUsed calls := by
  induction calls generalizing p s with
  | nil =>
    rw [List.foldl_nil, Phase.WellUsed]
    by_cases hp : p = .failed
    · subst hp
      obtain ⟨⟨c, _, hconns⟩, hs⟩ := h
      rw [MyRabbit.destruct, if_neg hs]
      exact iff_of_false (fun hb => by simpa [hconns] using hb.live_eq) (fun hp => hp rfl)
    · exact iff_of_true (h.destruct hp).1 hp
  | cons call calls ih =>
    have hstep := h.handle hcalls.1
    rw [List.foldl_cons, Phase.WellUsed]
    cases hn : p.next call with
    | some q => exact ih (by simpa [hn] using hstep) hcalls.2
    | none =>
      have hlost : (call.handle s).Lost := by simpa [hn] using hstep
      exact iff_of_false (hlost.foldl_handle hcalls.2).destruct.not_balanced id

instance : ∀ s call, Decidable (Call.Enabled s call)
  | s, .connect e => inferInstanceAs (Decidable (∀ c ∈ e.newConnection, c ∉ s.conns.live))
  | s, .reconnect e =>
    inferInstanceAs (Decidable (∀ c ∈ e.newConnection, c ∉ s.destruct.conns.live))
  | _, .close => .isTrue trivial

/-- A broker that refuses the login, an attempt that works, and the end of it. -/
def refusedThenConnected : List Call :=
  [.connect ⟨some 1, true, .serverException, .normal⟩, .close,
    .reconnect ⟨some 1, true, .normal, .normal⟩]

end MyRabbit

end Vs17.Rabbit
