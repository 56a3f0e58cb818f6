import Mathlib.Data.Int.Notation
import Mathlib.Tactic.SplitIfs
import Vs17.Library.Text
import Vs17.Library.Words

/-! # Sending and receiving through `MyRabbit`

`sendString` publishes in confirm mode and looks at one frame of the answer. `getString`
waits for a delivery and appends the fragments of its body to the caller's buffer as they
come.
-/

namespace Vs17.Rabbit

open Words Text

/-- A method frame, by `method.id`, with what is read of it. -/
inductive Method
  | basicAck (deliveryTag : ℕ) (multiple : Bool)
  | basicNack (deliveryTag : ℕ) (multiple requeue : Bool)
  | basicReturn (replyCode : ℕ) (replyText : Bytes)
  | basicDeliver (deliveryTag : ℕ)
  | channelClose
  | connectionClose
  | other (id : ℕ)
  deriving DecidableEq, Repr

inductive Frame
  | method (m : Method)
  | header (bodySize : ℕ)
  | body (fragment : Bytes)
  | other (frameType : ℕ)
  deriving DecidableEq, Repr

section Sending

/-- What `sendString` meets: the number of its message among those published on the channel in
confirm mode, the status of `amqp_basic_publish`, the status of `amqp_simple_wait_frame` and its
frame, and the message `amqp_read_message` reads, if its reply is a normal one. -/
structure Publishing where
  number : ℕ
  publish : ℤ
  waitFrame : ℤ
  frame : Frame
  readMessage : Option Bytes
  deriving DecidableEq, Repr

/-- How a call ends. A text that does not fit its buffer ends the program. -/
inductive SendResult
  | returns (r : ℤ)
  | terminates
  deriving DecidableEq, Repr

/-- The size of `logmsg` and of `str`. -/
def logSize : ℕ := 1024

/-- The arm for a message that comes back: the reply text and the message are copied to `str`
and from there to `logmsg`. -/
def logReturned (replyCode : ℕ) (replyText : Bytes) (readMessage : Option Bytes) : SendResult :=
  let written := ("Return.reply_code=" ++ toString replyCode ++ "\n").length
  let withText := written + ", Return.reply_text=".length + (cstr replyText).length + 1
  if logSize ≤ replyText.length ∨ logSize ≤ withText then .terminates
  else
    match readMessage with
    | none => .returns 0
    | some message =>
      let withMessage := withText + ", Return.message=".length + (cstr message).length + 1
      if logSize ≤ message.length ∨ logSize ≤ withMessage then .terminates else .returns 0

/-- `sendString`. The status of `amqp_basic_publish` is logged if it is an error, and that is
all; so is what an acknowledgement or a rejection says. -/
def sendString (e : Publishing) : SendResult :=
  if e.waitFrame ≠ 0 then .returns (-1)
  else
    match e.frame with
    | .method (.basicAck _ _) => .returns 0
    | .method (.basicNack _ _ _) => .returns 0
    | .method (.basicReturn replyCode replyText) => logReturned replyCode replyText e.readMessage
    | .method .channelClose => .returns 0
    | .method .connectionClose => .returns 0
    | .method _ => .returns 0
    | _ => .returns 0

/-- The frame acknowledges the message of this number: by its tag, or with all messages up to
the tag, where 0 stands for all there are. -/
def Frame.Acks (number : ℕ) : Frame → Prop
  | .method (.basicAck deliveryTag multiple) =>
    deliveryTag = number ∨ multiple = true ∧ (deliveryTag = 0 ∨ number ≤ deliveryTag)
  | _ => False

instance (number : ℕ) : ∀ f : Frame, Decidable (f.Acks number)
  | .method (.basicAck _ _) => inferInstanceAs (Decidable (_ ∨ _))
  | .method (.basicNack _ _ _) | .method (.basicReturn _ _) | .method (.basicDeliver _)
  | .method .channelClose | .method .connectionClose | .method (.other _)
  | .header _ | .body _ | .other _ => .isFalse id

/-- The message has been published and acknowledged. -/
def Publishing.Acknowledged (e : Publishing) : Prop :=
  0 ≤ e.publish ∧ e.waitFrame = 0 ∧ e.frame.Acks e.number

instance (e : Publishing) : Decidable e.Acknowledged :=
  inferInstanceAs (Decidable (_ ∧ _ ∧ _))

theorem Frame.Acks.exists_eq {number : ℕ} {f : Frame} (h : f.Acks number) :
    ∃ deliveryTag multiple, f = .method (.basicAck deliveryTag multiple) := by
  rcases f with (_ | _ | _ | _ | _ | _ | _) | _ | _ | _
  case method.basicAck deliveryTag multiple => exact ⟨deliveryTag, multiple, rfl⟩
  all_goals exact h.elim

theorem eq_zero_of_logReturned {replyCode : ℕ} {replyText : Bytes} {readMessage : Option Bytes}
    {r : ℤ} (h : logReturned replyCode replyText readMessage = .returns r) : r = 0 := by
  rcases readMessage with _ | message
  all_goals
    simp only [logReturned] at h
    split_ifs at h
    exact (SendResult.returns.inj h).symm

/-- When a frame has come, a call that returns returns 0. -/
theorem eq_zero_of_sendString {e : Publishing} {r : ℤ} (hwait : e.waitFrame = 0)
    (h : sendString e = .returns r) : r = 0 := by
  rw [sendString, if_neg (by simp [hwait])] at h
  rcases hf : e.frame with m | _ | _ | _
  · rcases m with _ | _ | _ | _ | _ | _ | _
    case basicReturn => exact eq_zero_of_logReturned (by simpa [hf] using h)
    all_goals simpa [hf, eq_comm] using h
  all_goals simpa [hf, eq_comm] using h

/-- `sendString` tells whether the message was published and acknowledged exactly when
waiting for the answer failed, or it was. -/
theorem sendString_truthful_iff (e : Publishing) :
    (∃ r, sendString e = .returns r ∧ (r = 0 ↔ e.Acknowledged)) ↔
      e.waitFrame ≠ 0 ∨ e.Acknowledged := by
  constructor
  · rintro ⟨r, hr, htruth⟩
    by_cases hwait : e.waitFrame = 0
    · exact .inr (htruth.mp (eq_zero_of_sendString hwait hr))
    · exact .inl hwait
  · rintro (hwait | hack)
    · exact ⟨-1, by rw [sendString, if_pos hwait], by simp [Publishing.Acknowledged, hwait]⟩
    · refine ⟨0, ?_, by simp [hack]⟩
      obtain ⟨deliveryTag, multiple, hf⟩ := hack.2.2.exists_eq
      rw [sendString, if_neg (by simp [hack.2.1]), hf]

/-- The second message is rejected; its publication fails while the first one is confirmed; it
is published and the frame read still confirms the first one. -/
theorem sendString_not_truthful :
    (sendString ⟨2, 0, 0, .method (.basicNack 2 false false), none⟩ = .returns 0 ∧
      ¬ Publishing.Acknowledged ⟨2, 0, 0, .method (.basicNack 2 false false), none⟩) ∧
    (sendString ⟨2, -1, 0, .method (.basicAck 1 false), none⟩ = .returns 0 ∧
      ¬ Publishing.Acknowledged ⟨2, -1, 0, .method (.basicAck 1 false), none⟩) ∧
    sendString ⟨2, 0, 0, .method (.basicAck 1 false), none⟩ = .returns 0 ∧
      ¬ Publishing.Acknowledged ⟨2, 0, 0, .method (.basicAck 1 false), none⟩ := by
  decide

example :
    sendString ⟨1, 0, 0, .method (.basicReturn 312 [78, 79]), some [104, 105]⟩ = .returns 0 := by
  decide

end Sending

section Receiving

/-- The caller's buffer, with what it holds, and the argument `len`. -/
structure Caller where
  buf : Bytes
  len : Int32
  deriving DecidableEq

namespace Caller

/-- `memcpy_s(buf + len, …); len += …`, unless that writes outside the buffer. -/
def append (s : Caller) (fragment : Bytes) : Option Caller :=
  if 0 ≤ s.len.toInt ∧ s.len.toInt + fragment.length ≤ s.buf.length then
    some ⟨blit s.len.toInt.toNat fragment s.buf, .ofInt (s.len.toInt + fragment.length)⟩
  else none

/-- `buf[len] = 0`, unless that writes outside the buffer. -/
def terminate (s : Caller) : Option Caller :=
  if 0 ≤ s.len.toInt ∧ s.len.toInt < s.buf.length then
    some { s with buf := blit s.len.toInt.toNat [0] s.buf }
  else none

/-- The bytes before `len`. -/
def text (s : Caller) : Bytes := s.buf.take s.len.toInt.toNat

end Caller

/-- How the loop over the fragments ends: with so many bytes received, or not at all. -/
inductive BodyResult
  | ended (bodyReceived : ℕ) (s : Caller) (unread : List (Option Frame))
  | aborts
  | overruns
  | waits
  deriving DecidableEq

/-- The loop over the fragments of a body. The replies are what `amqp_simple_wait_frame`
delivers, a frame or an error. -/
def receiveBody (bodyTarget : ℕ) : ℕ → Caller → List (Option Frame) → BodyResult
  | bodyReceived, s, [] => if bodyReceived < bodyTarget then .waits else .ended bodyReceived s []
  | bodyReceived, s, reply :: replies =>
    if bodyReceived < bodyTarget then
      match reply with
      | none => .ended bodyReceived s replies
      | some (.body fragment) =>
        -- the assertion
        if bodyReceived + fragment.length ≤ bodyTarget then
          match s.append fragment with
          | some s => receiveBody bodyTarget (bodyReceived + fragment.length) s replies
          | none => .overruns
        else .aborts
      | some _ => .aborts
    else .ended bodyReceived s (reply :: replies)

/-- How a call ends: with a result, the caller's data, the deliveries acknowledged and the
replies it has not asked for; or not at all. -/
inductive GetResult
  | returns (r : ℤ) (s : Caller) (acks : List ℕ) (unread : List (Option Frame))
  | aborts
  | overruns
  | waits
  deriving DecidableEq

/-- What follows a `deliver` method. -/
def receiveMessage (deliveryTag : ℕ) (s : Caller) : List (Option Frame) → GetResult
  | [] => .waits
  | none :: replies => .returns 0 s [] replies
  | some (.header bodyTarget) :: replies =>
    match receiveBody bodyTarget 0 s replies with
    | .ended bodyReceived s replies =>
      match s.terminate with
      | some s =>
        if bodyReceived ≠ bodyTarget then .returns 0 s [] replies
        else .returns 0 s [deliveryTag] replies
      | none => .overruns
    | .aborts => .aborts
    | .overruns => .overruns
    | .waits => .waits
  | some _ :: _ => .aborts

/-- `getString`. One message is enough to leave its loop. -/
def getString (s : Caller) : List (Option Frame) → GetResult
  | [] => .waits
  | none :: replies => .returns 0 s [] replies
  | some (.method (.basicDeliver deliveryTag)) :: replies => receiveMessage deliveryTag s replies
  | some _ :: replies => getString s replies

/-- The frames of a body. -/
def fragments (bodies : List Bytes) : List (Option Frame) := bodies.map fun b => some (.body b)

/-- The frames of a message, whose header announces the length of its body. -/
def delivery (deliveryTag : ℕ) (bodies : List Bytes) : List (Option Frame) :=
  some (.method (.basicDeliver deliveryTag)) :: some (.header bodies.flatten.length) ::
    fragments bodies

/-- The call has come to an end, and either the frames it has read end with a message that it
has acknowledged once and put into the buffer, or it reports an error and has changed and
acknowledged nothing. -/
def AllOrNothing (s : Caller) (replies : List (Option Frame)) : GetResult → Prop
  | .returns r t acks unread =>
    (r = 0 ∧ ∃ before deliveryTag bodies,
      replies = before ++ delivery deliveryTag bodies ++ unread ∧
      acks = [deliveryTag] ∧ t.len.toInt = bodies.flatten.length ∧ t.text = bodies.flatten) ∨
    (r ≠ 0 ∧ acks = [] ∧ t.len = s.len ∧ t.text = s.text)
  | _ => False

/-- Frames that are no deliveries, a whole message, an empty buffer with room for its body and
a zero byte. -/
def Deliverable (s : Caller) (replies : List (Option Frame)) : Prop :=
  ∃ (other : List Frame) (deliveryTag : ℕ) (bodies : List Bytes) (rest : List (Option Frame)),
    replies = other.map some ++ delivery deliveryTag bodies ++ rest ∧
    (∀ f ∈ other, ∀ tag, f ≠ .method (.basicDeliver tag)) ∧
    s.len = 0 ∧ bodies.flatten.length < s.buf.length ∧ bodies.flatten.length < 2 ^ 31

variable {s t : Caller} {bodyTarget bodyReceived : ℕ} {replies rest : List (Option Frame)}

theorem Caller.append_some {fragment : Bytes} (h : s.append fragment = some t) :
    t.buf.length = s.buf.length ∧
      t.len.toInt = (s.len.toInt + fragment.length).bmod (2 ^ 32) := by
  rw [append, Option.ite_none_right_eq_some] at h
  obtain ⟨_, rfl⟩ := h.imp_right Option.some.inj
  exact ⟨length_blit .., Int32.toInt_ofInt⟩

/-- With room for the fragment and its length, the text grows by it. -/
theorem Caller.append_of_fits (fragment : Bytes) (h₀ : 0 ≤ s.len.toInt)
    (hbuf : s.len.toInt + fragment.length ≤ s.buf.length)
    (hint : s.len.toInt + fragment.length < 2 ^ 31) :
    ∃ t, s.append fragment = some t ∧ t.buf.length = s.buf.length ∧
      t.len.toInt = s.len.toInt + fragment.length ∧ t.text = s.text ++ fragment := by
  refine ⟨_, if_pos ⟨h₀, hbuf⟩, length_blit .., Int32.toInt_ofInt_of_le (by omega) hint, ?_⟩
  rw [text, Int32.toInt_ofInt_of_le (by omega) hint]
  have hnat : (s.len.toInt + fragment.length).toNat = s.len.toInt.toNat + fragment.length := by
    omega
  rw [hnat, take_blit (by omega), text]

theorem Caller.terminate_some (h : s.terminate = some t) :
    s.len.toInt < s.buf.length ∧ t.len = s.len ∧ t.text = s.text := by
  rw [terminate, Option.ite_none_right_eq_some] at h
  obtain ⟨⟨_, hlt⟩, rfl⟩ := h.imp_right Option.some.inj
  exact ⟨hlt, rfl, take_blit_of_le le_rfl⟩

/-- Nothing is read when nothing is missing. -/
theorem receiveBody_done (replies : List (Option Frame)) :
    receiveBody bodyTarget bodyTarget s replies = .ended bodyTarget s replies := by
  rcases replies with _ | ⟨reply, replies⟩
  · exact if_neg (lt_irrefl _)
  · rw [receiveBody.eq_def]
    exact if_neg (lt_irrefl _)

/-- A body that has been received whole is the fragments read, one after another. -/
theorem receiveBody_ended (h : receiveBody bodyTarget bodyReceived s replies =
      .ended bodyTarget t rest) (hle : bodyReceived ≤ bodyTarget) : ∃ bodies,
      replies = fragments bodies ++ rest ∧ bodyReceived + bodies.flatten.length = bodyTarget ∧
      t.buf.length = s.buf.length ∧
      t.len.toInt = (s.len.toInt + bodies.flatten.length).bmod (2 ^ 32) := by
  induction replies generalizing bodyReceived s with
  | nil =>
    rw [receiveBody] at h
    split at h
    · cases h
    · cases h
      exact ⟨[], rfl, rfl, rfl, by simp⟩
  | cons reply replies ih =>
    rcases hle.lt_or_eq with hlt | rfl
    · rw [receiveBody.eq_def] at h
      simp only [hlt, if_true] at h
      rcases reply with _ | m | n | fragment | n
      · cases h
        exact absurd hlt (lt_irrefl _)
      · cases h
      · cases h
      · dsimp only at h
        split at h
        · rename_i hfit
          cases ha : s.append fragment with
          | none => simp [ha] at h
          | some u =>
            rw [ha] at h
            obtain ⟨hbuf, hlen⟩ := Caller.append_some ha
            obtain ⟨bodies, rfl, hsum, hbuf', hlen'⟩ := ih h hfit
            refine ⟨fragment :: bodies, rfl, ?_, hbuf'.trans hbuf, ?_⟩
            · rw [List.flatten_cons, List.length_append, ← Nat.add_assoc, hsum]
            · rw [hlen', hlen, Int.bmod_add_bmod, List.flatten_cons, List.length_append,
                Nat.cast_add, Int.add_assoc]
        · cases h
      · cases h
    · rw [receiveBody_done] at h
      cases h
      exact ⟨[], rfl, rfl, rfl, by simp⟩

/-- Fragments that add up to what is missing are appended one after another, but for empty
ones at the end. -/
theorem receiveBody_of_fits (bodyReceived : ℕ) (bodies : List Bytes)
    (rest : List (Option Frame)) (h₀ : 0 ≤ s.len.toInt)
    (hsum : bodyReceived + bodies.flatten.length = bodyTarget)
    (hbuf : s.len.toInt + bodies.flatten.length ≤ s.buf.length)
    (hint : s.len.toInt + bodies.flatten.length < 2 ^ 31) : ∃ read unread t,
      bodies = read ++ unread ∧ read.flatten = bodies.flatten ∧
      receiveBody bodyTarget bodyReceived s (fragments bodies ++ rest) =
        .ended bodyTarget t (fragments unread ++ rest) ∧
      t.buf.length = s.buf.length ∧ t.len.toInt = s.len.toInt + bodies.flatten.length ∧
      t.text = s.text ++ bodies.flatten := by
  induction bodies generalizing bodyReceived s with
  | nil =>
    obtain rfl : bodyReceived = bodyTarget := hsum
    exact ⟨[], [], s, rfl, rfl, receiveBody_done _, rfl, by simp, by simp⟩
  | cons fragment bodies ih =>
    rw [List.flatten_cons, List.length_append] at hsum hbuf hint
    by_cases hlt : bodyReceived < bodyTarget
    · obtain ⟨u, hu, hulen, hulen', hutext⟩ :=
        Caller.append_of_fits fragment h₀ (by omega) (by omega)
      obtain ⟨read, unread, t, hsplit, hread, hrun, htbuf, htlen, httext⟩ :=
        ih (bodyReceived + fragment.length) (s := u) (by omega) (by omega) (by omega) (by omega)
      refine ⟨fragment :: read, unread, t, by rw [hsplit, List.cons_append],
        by rw [List.flatten_cons, List.flatten_cons, hread], ?_, htbuf.trans hulen, ?_, ?_⟩
      · rw [fragments, List.map_cons, List.cons_append, receiveBody.eq_def]
        simp only [hlt, if_true, hu, (by omega : bodyReceived + fragment.length ≤ bodyTarget)]
        exact hrun
      · rw [htlen, hulen', List.flatten_cons, List.length_append]
        omega
      · rw [httext, hutext, List.flatten_cons, List.append_assoc]
    · obtain rfl : bodyReceived = bodyTarget := by omega
      have hnil : fragment ++ bodies.flatten = [] := by
        rw [← List.length_eq_zero_iff, List.length_append]
        omega
      refine ⟨[], fragment :: bodies, s, rfl, ?_, receiveBody_done _, rfl, ?_, ?_⟩ <;>
        simp [List.flatten_cons, hnil]

theorem receiveMessage_returns {r : ℤ} {acks : List ℕ} {deliveryTag : ℕ}
    (h : receiveMessage deliveryTag s replies = .returns r t acks rest) :
    r = 0 ∧ (acks = [] ∨ ∃ bodies,
      replies = some (.header bodies.flatten.length) :: fragments bodies ++ rest ∧
      acks = [deliveryTag] ∧ t.len.toInt < s.buf.length ∧
      t.len.toInt = (s.len.toInt + bodies.flatten.length).bmod (2 ^ 32)) := by
  rcases replies with _ | ⟨_ | m | bodyTarget | fragment | n, replies⟩
  case cons.some.header =>
    rw [receiveMessage] at h
    cases hbody : receiveBody bodyTarget 0 s replies with
    | ended bodyReceived u unread =>
      cases hterm : u.terminate with
      | none => simp [hbody, hterm] at h
      | some v =>
        simp only [hbody, hterm] at h
        split at h
        · cases h
          exact ⟨rfl, .inl rfl⟩
        · rename_i hwhole
          cases h
          obtain rfl := not_not.mp hwhole
          obtain ⟨bodies, rfl, hsum, hbuf, hlen⟩ := receiveBody_ended hbody (Nat.zero_le _)
          obtain ⟨hlt, hvlen, _⟩ := Caller.terminate_some hterm
          rw [Nat.zero_add] at hsum
          refine ⟨rfl, .inr ⟨bodies, by rw [hsum]; rfl, rfl, ?_, by rw [hvlen, hlen]⟩⟩
          rwa [hvlen, ← hbuf]
    | aborts => simp [hbody] at h
    | overruns => simp [hbody] at h
    | waits => simp [hbody] at h
  case cons.none =>
    cases h
    exact ⟨rfl, .inl rfl⟩
  all_goals cases h

theorem getString_of_not_deliver {f : Frame} (hf : ∀ tag, f ≠ .method (.basicDeliver tag)) :
    getString s (some f :: replies) = getString s replies := by
  rcases f with m | _ | _ | _
  · rcases m with _ | _ | _ | tag | _ | _ | _
    case basicDeliver => exact absurd rfl (hf tag)
    all_goals rfl
  all_goals rfl

/-- A call that comes back with a delivery acknowledged has read other frames and a message,
and has appended its body. -/
theorem getString_returns {r : ℤ} {acks : List ℕ}
    (h : getString s replies = .returns r t acks rest) :
    r = 0 ∧ (acks = [] ∨ ∃ (other : List Frame) (deliveryTag : ℕ) (bodies : List Bytes),
      replies = other.map some ++ delivery deliveryTag bodies ++ rest ∧
      (∀ f ∈ other, ∀ tag, f ≠ .method (.basicDeliver tag)) ∧ acks = [deliveryTag] ∧
      t.len.toInt < s.buf.length ∧
      t.len.toInt = (s.len.toInt + bodies.flatten.length).bmod (2 ^ 32)) := by
  induction replies with
  | nil => cases h
  | cons reply replies ih =>
    rcases reply with _ | f
    · cases h
      exact ⟨rfl, .inl rfl⟩
    by_cases hf : ∃ tag, f = .method (.basicDeliver tag)
    · obtain ⟨tag, rfl⟩ := hf
      obtain ⟨hr, hacks | ⟨bodies, rfl, hacks⟩⟩ := receiveMessage_returns h
      · exact ⟨hr, .inl hacks⟩
      · exact ⟨hr, .inr ⟨[], tag, bodies, rfl, by simp, hacks⟩⟩
    · rw [not_exists] at hf
      rw [getString_of_not_deliver hf] at h
      obtain ⟨hr, hacks | ⟨other, tag, bodies, rfl, hother, hacks⟩⟩ := ih h
      · exact ⟨hr, .inl hacks⟩
      · have hall := List.forall_mem_cons.mpr ⟨hf, hother⟩
        exact ⟨hr, .inr ⟨f :: other, tag, bodies, rfl, hall, hacks⟩⟩

theorem getString_skip {other : List Frame}
    (hother : ∀ f ∈ other, ∀ tag, f ≠ .method (.basicDeliver tag)) :
    getString s (other.map some ++ replies) = getString s replies := by
  induction other with
  | nil => rfl
  | cons f other ih =>
    rw [List.map_cons, List.cons_append, getString_of_not_deliver (hother f (by simp))]
    exact ih fun g hg => hother g (by simp [hg])

/-- Frames that end with a message and hold no other delivery before it end with one message
only. -/
theorem delivery_unique {other : List Frame} {before : List (Option Frame)} {tag tag' : ℕ}
    {bodies bodies' : List Bytes} (hother : ∀ f ∈ other, ∀ tag, f ≠ .method (.basicDeliver tag))
    (h : other.map some ++ delivery tag' bodies' = before ++ delivery tag bodies) :
    delivery tag' bodies' = delivery tag bodies := by
  induction other generalizing before with
  | nil =>
    rcases before with _ | ⟨x, before⟩
    · exact h
    · have htail := List.tail_eq_of_cons_eq h
      have hmem : some (.method (.basicDeliver tag)) ∈
          some (.header bodies'.flatten.length) :: fragments bodies' := by
        rw [htail]
        simp [delivery]
      simp [fragments] at hmem
  | cons f other ih =>
    rcases before with _ | ⟨x, before⟩
    · have hhead := List.head_eq_of_cons_eq h
      exact absurd (Option.some.inj hhead) (hother f (by simp) tag)
    · exact ih (fun g hg => hother g (by simp [hg])) (List.tail_eq_of_cons_eq h)

/-- A length that comes out as that of the body alone was 0. -/
theorem eq_zero_of_bmod {x y : Int32} {n : ℕ} (hy : y.toInt = n)
    (h : y.toInt = (x.toInt + n).bmod (2 ^ 32)) : x = 0 := by
  have hn : (x.toInt + n).bmod (2 ^ 32) = (0 + (n : ℤ)).bmod (2 ^ 32) := by
    rw [← h, Int.zero_add, ← hy]
    simp
  have hx := (Int.bmod_add_cancel_right _).mp hn
  apply Int32.toInt.inj
  simpa using hx

/-- A call that is all or nothing was given a whole message, an empty text and room enough. -/
theorem deliverable_of_allOrNothing (h : AllOrNothing s replies (getString s replies)) :
    Deliverable s replies := by
  cases hres : getString s replies with
  | returns r t acks unread =>
    rw [hres] at h
    obtain ⟨rfl, hshape⟩ := getString_returns hres
    rcases h with ⟨_, before, tag, bodies, hreplies, rfl, hlen, _⟩ | ⟨hr, _⟩
    · obtain hacks | ⟨other, tag', bodies', rfl, hother, _, hlt, hlen'⟩ := hshape
      · cases hacks
      have hdel := delivery_unique hother (List.append_cancel_right hreplies)
      have hsize : bodies'.flatten.length = bodies.flatten.length := by
        simp only [delivery, List.cons.injEq, Option.some.injEq, Frame.header.injEq] at hdel
        exact hdel.2.1
      have hmax := t.len.toInt_lt
      rw [hsize] at hlen'
      exact ⟨other, tag', bodies', unread, rfl, hother, eq_zero_of_bmod hlen hlen', by omega,
        by omega⟩
    · exact absurd rfl hr
  | aborts => simp [hres, AllOrNothing] at h
  | overruns => simp [hres, AllOrNothing] at h
  | waits => simp [hres, AllOrNothing] at h

/-- A whole message goes to an empty buffer with room enough. -/
theorem allOrNothing_of_deliverable (h : Deliverable s replies) :
    AllOrNothing s replies (getString s replies) := by
  obtain ⟨other, tag, bodies, rest, rfl, hother, hlen, hbuf, hint⟩ := h
  have hlen₀ : s.len.toInt = 0 := by rw [hlen]; rfl
  obtain ⟨read, unread, t, hsplit, hread, hrun, htbuf, htlen, httext⟩ :=
    receiveBody_of_fits 0 bodies rest (s := s) (by omega) (Nat.zero_add _) (by omega) (by omega)
  have hterm : t.terminate = some { t with buf := blit t.len.toInt.toNat [0] t.buf } :=
    if_pos (by omega)
  have hget : getString s (other.map some ++ delivery tag bodies ++ rest) =
      .returns 0 { t with buf := blit t.len.toInt.toNat [0] t.buf } [tag]
        (fragments unread ++ rest) := by
    rw [List.append_assoc, getString_skip hother]
    simp only [delivery, List.cons_append, getString, receiveMessage, hrun, hterm]
    simp
  have hreplies :
      delivery tag bodies ++ rest = delivery tag read ++ (fragments unread ++ rest) := by
    rw [delivery, delivery, hread, hsplit]
    simp [fragments]
  have hempty : s.text = [] := by rw [Caller.text, hlen₀]; rfl
  rw [hget]
  refine .inl ⟨rfl, other.map some, tag, read, ?_, rfl, ?_, ?_⟩
  · rw [List.append_assoc, hreplies, List.append_assoc]
  · rw [hread, htlen, hlen₀, Int.zero_add]
  · rw [(Caller.terminate_some hterm).2.2, httext, hempty, hread, List.nil_append]

/-- `getString` is all or nothing exactly when it is given a whole message behind frames that
are none, and starts with an empty text and room enough. -/
theorem getString_allOrNothing_iff (s : Caller) (replies : List (Option Frame)) :
    AllOrNothing s replies (getString s replies) ↔ Deliverable s replies := by
  constructor
  · exact deliverable_of_allOrNothing
  · exact allOrNothing_of_deliverable

example : getString ⟨List.replicate 8 0, 0⟩
    (some (.other 8) :: delivery 1 [[104, 101], [108, 108, 111]]) =
      .returns 0 ⟨[104, 101, 108, 108, 111, 0, 0, 0], 5⟩ [1] [] := by
  decide

/-- The connection fails after the first fragment of two. -/
def cutOff : List (Option Frame) :=
  [some (.method (.basicDeliver 1)), some (.header 5), some (.body [104, 101]), none]

/-- The call returns 0, the fragment is in the buffer, and nothing is acknowledged. -/
theorem getString_cutOff :
    getString ⟨List.replicate 8 0, 0⟩ cutOff =
      .returns 0 ⟨[104, 101, 0, 0, 0, 0, 0, 0], 2⟩ [] [] ∧
    ¬ AllOrNothing ⟨List.replicate 8 0, 0⟩ cutOff (getString ⟨List.replicate 8 0, 0⟩ cutOff) := by
  have hget : getString ⟨List.replicate 8 0, 0⟩ cutOff =
      .returns 0 ⟨[104, 101, 0, 0, 0, 0, 0, 0], 2⟩ [] [] := by decide
  rw [hget]
  simp [AllOrNothing]

end Receiving

end Vs17.Rabbit
