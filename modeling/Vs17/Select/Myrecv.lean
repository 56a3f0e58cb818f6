import Vs17.Library.Runs
import Vs17.Library.Words

/-! # Reading messages off a connection

`myrecv` reads a header of eight bytes and then as many bytes as its length field says.
The socket does not block: either `recv` may return fewer bytes than it was asked for, or
none yet. What has been read of a message does not outlive a pass of the loop. Both
`myrecv` and `logMsg`, which it hands the messages to, construct a `Mylog` of their own; where
the thread handle that all `Mylog` objects share is joinable, this ends the process.
-/

namespace Vs17.Select

open Runs Words

/-- `MSGHEAD_LENGTH` -/
def msgheadLength : ℕ := 8

/-- `MAXLENGTH` -/
def maxLength : ℕ := 1024 * 64

def eagain : ℕ := 11

def ebadf : ℕ := 9

/-- A `MSGBODY`, with those bytes of `msg` that `length` counts. -/
structure MsgBody where
  type : ℤ
  length : ℤ
  msg : Bytes
  deriving DecidableEq, Repr

namespace MsgBody

/-- The bytes of `type` and `length`. -/
def header (m : MsgBody) : Bytes := toLE 4 (ofInt 4 m.type) ++ toLE 4 (ofInt 4 m.length)

/-- What a client sends for the message. -/
def encode (m : MsgBody) : Bytes := m.header ++ m.msg

/-- A message with a body that is not empty, has the announced length and fits. -/
structure Sendable (m : MsgBody) : Prop where
  type_range : -2 ^ 31 ≤ m.type ∧ m.type < 2 ^ 31
  length_eq : m.length = m.msg.length
  ne_nil : m.msg ≠ []
  fits : m.msg.length ≤ maxLength

end MsgBody

def encodeAll (msgs : List MsgBody) : Bytes := msgs.flatMap MsgBody.encode

/-- An `int` of `recvMsg`. -/
def intAt (off : ℕ) (head : Bytes) : ℤ := toInt 4 (load 4 off head)

def typeField (head : Bytes) : ℤ := intAt 0 head

def lengthField (head : Bytes) : ℤ := intAt 4 head

/-- How many bytes of the body `recv` is asked for: the `int` becomes a `size_t`. -/
def requested (head : Bytes) : ℕ := ofInt 8 (lengthField head)

/-- Memory that was cleared before these bytes were received into it. -/
def padded (n : ℕ) (got : Bytes) : Bytes := got ++ List.replicate (n - got.length) 0

/-- `recvMsg` as it is handed to `logMsg`. -/
def recvMsg (head got : Bytes) : MsgBody where
  type := typeField head
  length := lengthField head
  msg := (padded maxLength got).take (lengthField head).toNat

/-- What `recv` returns: a count, which is zero when the peer has closed, or -1. -/
inductive Recv
  | bytes (count : ℕ)
  | fails (err : ℕ)
  deriving DecidableEq, Repr

/-- What `recv` may return when it is asked for so many bytes of what is still unread. -/
def Recv.Possible (asked : ℕ) (stream : Bytes) : Recv → Prop
  | .bytes count => count ≤ asked ∧ count ≤ stream.length ∧ (count = 0 → stream = [])
  | .fails _ => True

/-- Where the server is with the connection. -/
inductive Place
  | outside -- not in `myrecv`
  | head
  | body
  | closed
  | overrun -- more was stored into `recvMsg` than it holds
  | terminated -- a `Mylog` could not be constructed
  deriving DecidableEq, Repr

/-- What the client has sent and the server not yet read, the header read in this pass of the
loop, and the messages handed on. -/
structure Receiver where
  stream : Bytes
  place : Place
  head : Bytes
  delivered : List MsgBody
  deriving DecidableEq

namespace Receiver

def start (stream : Bytes) : Receiver where
  stream := stream
  place := .outside
  head := padded msgheadLength []
  delivered := []

/-- `select` finds the socket readable and `myrecv` is called, or it receives. A call of
`myrecv`, or of `logMsg` behind a body, finds that its `Mylog` can be constructed or not. -/
inductive Event
  | ready (constructs : Bool)
  | head (r : Recv)
  | body (r : Recv) (constructs : Bool)
  deriving DecidableEq, Repr

def Pending (s : Receiver) : Event → Prop
  | .ready _ => s.place = .outside
  | .head r => s.place = .head ∧ r.Possible msgheadLength s.stream
  | .body r _ => s.place = .body ∧ r.Possible (requested s.head) s.stream

/-- The header is received. Any error but `EBADF` leaves `myrecv` for the next `select`. -/
def recvHead (s : Receiver) : Recv → Receiver
  | .fails err =>
    { s with head := padded msgheadLength [], place := if err = ebadf then .closed else .outside }
  | .bytes 0 => { s with head := padded msgheadLength [], place := .closed }
  | .bytes count =>
    let head := padded msgheadLength (s.stream.take count)
    { s with
      stream := s.stream.drop count
      head := head
      place := if lengthField head ≠ 0 then .body else .head }

/-- The body is received. Any error but `EBADF` goes on with the next header. -/
def recvBody (s : Receiver) (constructs : Bool) : Recv → Receiver
  | .fails err => { s with place := if err = ebadf then .closed else .head }
  | .bytes 0 => { s with place := .closed }
  | .bytes count =>
    if maxLength < count then { s with stream := s.stream.drop count, place := .overrun }
    else if constructs = false then { s with stream := s.stream.drop count, place := .terminated }
    else
      { s with
        stream := s.stream.drop count
        place := .head
        delivered := s.delivered ++ [recvMsg s.head (s.stream.take count)] }

def handle (s : Receiver) : Event → Receiver
  | .ready constructs => { s with place := if constructs then .head else .terminated }
  | .head r => s.recvHead r
  | .body r constructs => s.recvBody constructs r

def Step (s : Receiver) (e : Event) (t : Receiver) : Prop := s.Pending e ∧ t = s.handle e

/-- The unread bytes are those of the rest of the messages, of which the first may have had
its header read. They are still read, unless the process has ended. -/
def Unread (s : Receiver) (rest : List MsgBody) : Prop :=
  match s.place with
  | .body => ∃ m later, rest = m :: later ∧ s.head = m.header ∧ s.stream = m.msg ++ encodeAll later
  | .overrun | .terminated => False
  | _ => s.stream = encodeAll rest

/-- The messages handed on are the first of those sent, and those not handed on are still to
be read. -/
def HandsOn (msgs : List MsgBody) (s : Receiver) : Prop :=
  ∃ rest, msgs = s.delivered ++ rest ∧ Unread s rest

/-- What has been handed on begins the list of the messages sent, and is all of it when
nothing is left to be read or nothing can be read any more. -/
def Exact (msgs : List MsgBody) (s : Receiver) : Prop :=
  s.delivered <+: msgs ∧
    (s.stream = [] ∧ s.place ≠ .body ∨ s.place = .terminated → s.delivered = msgs)

/-- `recv` is not asked for more than the message has room for. -/
def FitsMessage (s : Receiver) : Prop := s.place = .body → requested s.head ≤ maxLength

/-- Each `Mylog` is constructed, and `recv` returns all it was asked for, or nothing at all
before a header. -/
def WholeReads (s : Receiver) : Event → Prop
  | .ready constructs => constructs = true
  | .head (.fails _) => True
  | .head (.bytes count) => count = 0 ∨ count = msgheadLength
  | .body (.bytes count) constructs => count = requested s.head ∧ constructs = true
  | .body (.fails _) _ => False

/-- The length field of each header that is received is in range. -/
def LengthInRange (s : Receiver) : Event → Prop
  | .head (.bytes count) =>
    let length := lengthField (padded msgheadLength (s.stream.take count))
    0 < count → 0 ≤ length ∧ length ≤ maxLength
  | _ => True

end Receiver

section Fields

variable {m : MsgBody} {got : Bytes}

theorem padded_eq_self {n : ℕ} (h : got.length = n) : padded n got = got := by
  rw [padded, h, Nat.sub_self, List.replicate_zero, List.append_nil]

theorem encodeAll_cons (m : MsgBody) (msgs : List MsgBody) :
    encodeAll (m :: msgs) = m.header ++ (m.msg ++ encodeAll msgs) := by
  rw [encodeAll, List.flatMap_cons, MsgBody.encode, List.append_assoc]
  rfl

@[simp] theorem MsgBody.length_header (m : MsgBody) : m.header.length = msgheadLength := by
  simp [header, msgheadLength]

theorem lengthField_range (head : Bytes) :
    -2 ^ 31 ≤ lengthField head ∧ lengthField head < 2 ^ 31 := by
  have hle := Int.le_bmod (x := load 4 4 head) (m := 256 ^ 4) (by norm_num)
  have hlt := Int.bmod_lt (x := load 4 4 head) (m := 256 ^ 4) (by norm_num)
  simp only [lengthField, intAt, toInt]
  omega

/-- A negative length asks for more than any message has room for. -/
theorem requested_le_iff (head : Bytes) :
    requested head ≤ maxLength ↔ 0 ≤ lengthField head ∧ lengthField head ≤ maxLength := by
  obtain ⟨hle, hlt⟩ := lengthField_range head
  rw [requested, ofInt, maxLength]
  omega

/-- An `int` that was stored as four bytes. -/
theorem toInt_stored {z : ℤ} (hle : -2 ^ 31 ≤ z) (hlt : z < 2 ^ 31) :
    toInt 4 (ofLE (toLE 4 (ofInt 4 z))) = z := by
  rw [ofLE_toLE, Nat.mod_eq_of_lt (ofInt_lt ..)]
  apply toInt_ofInt
  · norm_num
    omega
  · norm_num
    omega

namespace MsgBody.Sendable

theorem typeField_header (h : Sendable m) : typeField m.header = m.type := by
  obtain ⟨hle, hlt⟩ := h.type_range
  rw [typeField, intAt, header, load_append (by simp), load, List.drop_zero,
    List.take_of_length_le (by simp)]
  exact toInt_stored hle hlt

theorem lengthField_header (h : Sendable m) : lengthField m.header = m.length := by
  have heq := h.length_eq
  have hfits := h.fits
  rw [maxLength] at hfits
  rw [lengthField, intAt, header, load, List.drop_left' (by simp),
    List.take_of_length_le (by simp)]
  exact toInt_stored (by omega) (by omega)

theorem requested_header (h : Sendable m) : requested m.header = m.msg.length := by
  have hfits := h.fits
  rw [maxLength] at hfits
  rw [requested, h.lengthField_header, h.length_eq, ofInt]
  omega

theorem lengthField_ne_zero (h : Sendable m) : lengthField m.header ≠ 0 := by
  have hpos := List.length_pos_iff.mpr h.ne_nil
  rw [h.lengthField_header, h.length_eq]
  omega

/-- The header and the whole body are the message. -/
theorem recvMsg_header (h : Sendable m) : recvMsg m.header m.msg = m := by
  have htake : (padded maxLength m.msg).take m.msg.length = m.msg := List.take_left
  rw [recvMsg, h.typeField_header, h.lengthField_header, h.length_eq, Int.toNat_natCast, htake,
    ← h.length_eq]

end MsgBody.Sendable

end Fields

namespace Receiver

variable {s t : Receiver} {e : Event} {r : Recv} {msgs rest later : List MsgBody} {m : MsgBody}
  {count : ℕ} {stream : Bytes} {tr : List (Receiver × Event)}

theorem handsOn_iff (hmsgs : msgs = s.delivered ++ rest) : HandsOn msgs s ↔ Unread s rest := by
  constructor
  · rintro ⟨rest', heq, hunread⟩
    rwa [List.append_cancel_left (hmsgs.symm.trans heq)]
  · intro hunread
    exact ⟨rest, hmsgs, hunread⟩

theorem unread_body (h : s.place = .body) :
    Unread s rest ↔
      ∃ m later, rest = m :: later ∧ s.head = m.header ∧ s.stream = m.msg ++ encodeAll later := by
  rw [Unread, h]

theorem unread_of_ne (hbody : s.place ≠ .body) (hoverrun : s.place ≠ .overrun)
    (hterminated : s.place ≠ .terminated) : Unread s rest ↔ s.stream = encodeAll rest := by
  unfold Unread
  split
  · contradiction
  · contradiction
  · contradiction
  · rfl

theorem recvHead_bytes (hcount : count ≠ 0) : s.recvHead (.bytes count) =
    { s with
      stream := s.stream.drop count
      head := padded msgheadLength (s.stream.take count)
      place := if lengthField (padded msgheadLength (s.stream.take count)) ≠ 0 then .body
        else .head } := by
  cases count with
  | zero => contradiction
  | succ n => rfl

theorem recvBody_bytes (hcount : count ≠ 0) (hfits : count ≤ maxLength) :
    s.recvBody true (.bytes count) =
      { s with
        stream := s.stream.drop count
        place := .head
        delivered := s.delivered ++ [recvMsg s.head (s.stream.take count)] } := by
  cases count with
  | zero => contradiction
  | succ n => exact if_neg (Nat.not_lt.mpr hfits)

/-- Where its `Mylog` cannot be constructed, `logMsg` ends the process. -/
theorem place_recvBody_false (hcount : count ≠ 0) (hfits : count ≤ maxLength) :
    (s.recvBody false (.bytes count)).place = .terminated := by
  cases count with
  | zero => contradiction
  | succ n => simp only [recvBody, if_neg (Nat.not_lt.mpr hfits), if_true]

theorem place_recvHead_fails (s : Receiver) (err : ℕ) :
    (s.recvHead (.fails err)).place = .closed ∨ (s.recvHead (.fails err)).place = .outside := by
  simp only [recvHead]
  split
  · exact .inl rfl
  · exact .inr rfl

theorem place_recvBody_fails (s : Receiver) (constructs : Bool) (err : ℕ) :
    (s.recvBody constructs (.fails err)).place = .closed ∨
      (s.recvBody constructs (.fails err)).place = .head := by
  simp only [recvBody]
  split
  · exact .inl rfl
  · exact .inr rfl

theorem place_recvBody_ne (s : Receiver) (constructs : Bool) (r : Recv) :
    (s.recvBody constructs r).place ≠ .body := by
  cases r with
  | fails err =>
    rcases place_recvBody_fails s constructs err with hplace | hplace
    · simp [hplace]
    · simp [hplace]
  | bytes count =>
    cases count with
    | zero => simp [recvBody]
    | succ n =>
      simp only [recvBody]
      split_ifs
      · simp
      · simp
      · simp

theorem unread_recvHead_fails (hplace : s.place = .head) (err : ℕ) :
    Unread (s.recvHead (.fails err)) rest ↔ Unread s rest := by
  have hafter : Unread (s.recvHead (.fails err)) rest ↔
      (s.recvHead (.fails err)).stream = encodeAll rest := by
    rcases place_recvHead_fails s err with h | h
    · exact unread_of_ne (by simp [h]) (by simp [h]) (by simp [h])
    · exact unread_of_ne (by simp [h]) (by simp [h]) (by simp [h])
  rw [hafter, unread_of_ne (by simp [hplace]) (by simp [hplace]) (by simp [hplace])]
  rfl

/-- When a body cannot be received, its header is lost. -/
theorem not_unread_recvBody_fails (hstream : s.stream = m.msg ++ encodeAll later)
    (constructs : Bool) (err : ℕ) :
    ¬ Unread (s.recvBody constructs (.fails err)) (m :: later) := by
  have hafter : Unread (s.recvBody constructs (.fails err)) (m :: later) ↔
      s.stream = encodeAll (m :: later) := by
    rcases place_recvBody_fails s constructs err with h | h
    · exact unread_of_ne (by simp [h]) (by simp [h]) (by simp [h])
    · exact unread_of_ne (by simp [h]) (by simp [h]) (by simp [h])
  rw [hafter]
  intro heq
  have hlength := congrArg List.length (hstream.symm.trans heq)
  simp only [encodeAll_cons, List.length_append, m.length_header, msgheadLength] at hlength
  omega

/-- A header is received in step with the client exactly when all of it is received. -/
theorem unread_recvHead (hm : m.Sendable) (hstream : s.stream = encodeAll (m :: later))
    (hcount : count ≠ 0) (hle : count ≤ msgheadLength) :
    Unread (s.recvHead (.bytes count)) (m :: later) ↔ count = msgheadLength := by
  rw [encodeAll_cons] at hstream
  have hlength : s.stream.length = msgheadLength + (m.msg ++ encodeAll later).length := by
    rw [hstream, List.length_append, m.length_header]
  rw [recvHead_bytes hcount]
  constructor
  · by_cases hfield : lengthField (padded msgheadLength (s.stream.take count)) ≠ 0
    · rw [if_pos hfield, unread_body rfl]
      rintro ⟨m', later', heq, -, hrest⟩
      cases heq
      have hdrop := congrArg List.length hrest
      simp only [List.length_drop] at hdrop
      omega
    · -- no body is read, and the next header is read from within this one
      rw [if_neg hfield, unread_of_ne (by simp) (by simp) (by simp), encodeAll_cons]
      intro hrest
      have hdrop := congrArg List.length hrest
      rw [List.length_drop, List.length_append, m.length_header] at hdrop
      omega
  · rintro rfl
    have htake : s.stream.take msgheadLength = m.header := by
      rw [hstream, List.take_left' m.length_header]
    have hpad : padded msgheadLength m.header = m.header := padded_eq_self m.length_header
    rw [htake, hpad, if_pos hm.lengthField_ne_zero, unread_body rfl]
    refine ⟨m, later, rfl, rfl, ?_⟩
    rw [hstream]
    exact List.drop_left' m.length_header

/-- A body is received in step with the client exactly when all of it is received and
`logMsg` gets its `Mylog`. -/
theorem handsOn_recvBody (hm : m.Sendable) (hmsgs : msgs = s.delivered ++ m :: later)
    (hhead : s.head = m.header) (hstream : s.stream = m.msg ++ encodeAll later)
    (hle : count ≤ requested s.head) (hcount : count ≠ 0) (constructs : Bool) :
    HandsOn msgs (s.recvBody constructs (.bytes count)) ↔
      count = requested s.head ∧ constructs = true := by
  have hfits := hm.fits
  rw [hhead, hm.requested_header] at hle ⊢
  cases constructs with
  | false =>
    refine iff_of_false ?_ (by simp)
    rintro ⟨rest, -, hunread⟩
    rwa [Unread, place_recvBody_false hcount (by omega)] at hunread
  | true =>
    rw [recvBody_bytes hcount (by omega), and_iff_left rfl]
    constructor
    · rintro ⟨rest, heq, hunread⟩
      rw [hmsgs, List.append_assoc] at heq
      obtain ⟨-, rfl⟩ := List.cons.inj (List.append_cancel_left heq)
      rw [unread_of_ne (by simp) (by simp) (by simp)] at hunread
      have hdrop := congrArg List.length hunread
      rw [List.length_drop, hstream, List.length_append] at hdrop
      omega
    · rintro rfl
      have htake : s.stream.take m.msg.length = m.msg := by rw [hstream, List.take_left]
      refine ⟨later, ?_, (unread_of_ne (by simp) (by simp) (by simp)).mpr ?_⟩
      · rw [htake, hhead, hm.recvMsg_header, List.append_assoc, hmsgs]
        rfl
      · rw [hstream]
        exact List.drop_left

/-- A step keeps in step with the client exactly when it reads all it asks for. -/
theorem handsOn_step_iff (hsend : ∀ m ∈ msgs, m.Sendable) (hs : HandsOn msgs s)
    (h : Step s e t) : HandsOn msgs t ↔ WholeReads s e := by
  obtain ⟨hp, rfl⟩ := h
  obtain ⟨rest, hmsgs, hunread⟩ := hs
  cases e with
  | ready constructs =>
    have hplace : s.place = .outside := hp
    rw [unread_of_ne (by simp [hplace]) (by simp [hplace]) (by simp [hplace])] at hunread
    cases constructs with
    | true => exact iff_of_true ⟨rest, hmsgs, hunread⟩ rfl
    | false => exact iff_of_false (fun ⟨_, _, hunread⟩ => hunread) Bool.false_ne_true
  | head r =>
    obtain ⟨hplace, hr⟩ := hp
    cases r with
    | fails err =>
      exact iff_of_true ⟨rest, hmsgs, (unread_recvHead_fails hplace err).mpr hunread⟩ trivial
    | bytes count =>
      rw [unread_of_ne (by simp [hplace]) (by simp [hplace]) (by simp [hplace])] at hunread
      obtain ⟨hle, hlen, -⟩ := hr
      by_cases hcount : count = 0
      · subst hcount
        exact iff_of_true ⟨rest, hmsgs, hunread⟩ (.inl rfl)
      · -- the bytes received belong to a message
        obtain ⟨m, later, rfl⟩ : ∃ m later, rest = m :: later := by
          apply List.exists_cons_of_ne_nil
          rintro rfl
          rw [hunread] at hlen
          exact hcount (Nat.le_zero.mp hlen)
        have hm : m.Sendable := hsend m (by simp [hmsgs])
        have hkept : msgs = (s.recvHead (.bytes count)).delivered ++ m :: later := by
          rw [recvHead_bytes hcount]
          exact hmsgs
        rw [handle, handsOn_iff hkept, unread_recvHead hm hunread hcount hle]
        exact (or_iff_right hcount).symm
  | body r constructs =>
    obtain ⟨hplace, hr⟩ := hp
    rw [unread_body hplace] at hunread
    obtain ⟨m, later, rfl, hhead, hstream⟩ := hunread
    have hm : m.Sendable := hsend m (by simp [hmsgs])
    cases r with
    | fails err =>
      apply iff_of_false _ id
      rw [handle, handsOn_iff (s := s.recvBody constructs (.fails err)) hmsgs]
      exact not_unread_recvBody_fails hstream constructs err
    | bytes count =>
      obtain ⟨hle, -, hzero⟩ := hr
      refine handsOn_recvBody hm hmsgs hhead hstream hle (fun hcount => ?_) constructs
      rw [hzero hcount] at hstream
      exact hm.ne_nil (List.append_eq_nil_iff.mp hstream.symm).1

theorem HandsOn.exact (hs : HandsOn msgs s) : Exact msgs s := by
  obtain ⟨rest, hmsgs, hunread⟩ := hs
  constructor
  · exact ⟨rest, hmsgs.symm⟩
  · have hoverrun : s.place ≠ .overrun := fun hplace => by rwa [Unread, hplace] at hunread
    have hterminated : s.place ≠ .terminated := fun hplace => by rwa [Unread, hplace] at hunread
    rintro (⟨hnil, hbody⟩ | hplace)
    rotate_left
    · exact absurd hplace hterminated
    rw [unread_of_ne hbody hoverrun hterminated, hnil] at hunread
    cases rest with
    | nil => rw [hmsgs, List.append_nil]
    | cons m later =>
      have hlength := congrArg List.length hunread
      rw [encodeAll_cons, List.length_append, m.length_header, msgheadLength] at hlength
      simp only [List.length_nil] at hlength
      omega

/-- A header that is received asks for what fits exactly when its length is in range. -/
theorem fitsMessage_step_iff (h : Step s e t) : FitsMessage t ↔ LengthInRange s e := by
  obtain ⟨hp, rfl⟩ := h
  cases e with
  | ready constructs =>
    refine iff_of_true (fun hbody => ?_) trivial
    cases constructs <;> cases hbody
  | head r =>
    cases r with
    | fails err =>
      refine iff_of_true (fun hbody => ?_) trivial
      rcases place_recvHead_fails s err with h | h
      · exact absurd (h.symm.trans hbody) (by decide)
      · exact absurd (h.symm.trans hbody) (by decide)
    | bytes count =>
      by_cases hcount : count = 0
      · subst hcount
        exact iff_of_true (by rintro ⟨⟩) (absurd · (Nat.lt_irrefl 0))
      · rw [handle, recvHead_bytes hcount, FitsMessage, LengthInRange,
          forall_prop_of_true (Nat.pos_of_ne_zero hcount), ← requested_le_iff]
        by_cases hfield : lengthField (padded msgheadLength (s.stream.take count)) = 0
        · rw [if_neg (not_not_intro hfield), requested, hfield]
          exact iff_of_true (by rintro ⟨⟩) (Nat.zero_le _)
        · rw [if_pos hfield]
          exact forall_prop_of_true rfl
  | body r constructs => exact iff_of_true (absurd · (place_recvBody_ne s constructs r)) trivial

/-- On any stream `recv` is asked for what fits into a message exactly when the length field
of each header is in range. On the stream of a list of messages, `myrecv` stays in step with
the client exactly when each `Mylog` is constructed and each `recv` returns all it was asked
for, and then hands on exactly these messages in order. -/
theorem run_framing_iff (h : Run Step (start stream) tr s) :
    (Throughout FitsMessage tr s ↔ AllSteps LengthInRange tr) ∧
    ∀ msgs, (∀ m ∈ msgs, m.Sendable) → stream = encodeAll msgs →
      (Throughout (HandsOn msgs) tr s ↔ AllSteps WholeReads tr) ∧
      (AllSteps WholeReads tr → Throughout (Exact msgs) tr s) := by
  constructor
  · exact h.throughout_iff (I := fun _ => True) trivial (fun _ _ _ _ _ => trivial)
      (by rintro ⟨⟩) fun _ _ _ _ _ => fitsMessage_step_iff
  · rintro msgs hsend rfl
    have hiff : Throughout (HandsOn msgs) tr s ↔ AllSteps WholeReads tr :=
      h.throughout_iff (I := fun _ => True) trivial (fun _ _ _ _ _ => trivial) ⟨msgs, rfl, rfl⟩
        fun _ _ _ _ => handsOn_step_iff hsend
    exact ⟨hiff, fun hwhole => (hiff.mpr hwhole).imp fun _ => HandsOn.exact⟩

instance (asked : ℕ) (stream : Bytes) : ∀ r : Recv, Decidable (r.Possible asked stream)
  | .bytes count => inferInstanceAs (Decidable (count ≤ asked ∧ count ≤ stream.length ∧ _))
  | .fails _ => .isTrue trivial

instance : ∀ s e, Decidable (Pending s e)
  | _, .ready _ => inferInstanceAs (Decidable (_ = _))
  | _, .head _ | _, .body _ _ => inferInstanceAs (Decidable (_ = _ ∧ _))

instance : ∀ s e, Decidable (WholeReads s e)
  | _, .ready _ => inferInstanceAs (Decidable (_ = _))
  | _, .head (.fails _) => .isTrue trivial
  | _, .head (.bytes _) => inferInstanceAs (Decidable (_ = _ ∨ _ = _))
  | _, .body (.bytes _) _ => inferInstanceAs (Decidable (_ = _ ∧ _ = _))
  | _, .body (.fails _) _ => .isFalse id

instance : ∀ s e, Decidable (LengthInRange s e)
  | _, .head (.bytes _) => inferInstanceAs (Decidable (_ < _ → _ ≤ _ ∧ _ ≤ _))
  | _, .ready _ | _, .head (.fails _) | _, .body _ _ => .isTrue trivial

theorem run_of_events (stream : Bytes) (es : List Event)
    (h : Follows Pending handle (start stream) es) :
    Run Step (start stream) (steps handle (start stream) es) (es.foldl handle (start stream)) :=
  Run.start.follow (fun _ _ hp => ⟨hp, rfl⟩) h

/-- A message of type 1 with the body "hi". -/
def hi : MsgBody where
  type := 1
  length := 2
  msg := [104, 105]

theorem sendable_hi : hi.Sendable where
  type_range := by decide
  length_eq := rfl
  ne_nil := List.cons_ne_nil _ _
  fits := by decide

/-- The message arrives in two pieces, and none of it has arrived when the server looks first. -/
def wholeReads : List Event :=
  [.ready true, .head (.fails eagain), .ready true, .head (.bytes 8), .body (.bytes 2) true,
    .head (.fails eagain)]

theorem run_framing_wholeReads :
    Throughout FitsMessage (steps handle (start hi.encode) wholeReads)
        (wholeReads.foldl handle (start hi.encode)) ∧
      Throughout (Exact [hi]) (steps handle (start hi.encode) wholeReads)
        (wholeReads.foldl handle (start hi.encode)) := by
  obtain ⟨hfits, hmsgs⟩ := run_framing_iff (run_of_events hi.encode wholeReads (by decide))
  constructor
  · exact hfits.mpr (by decide)
  · exact (hmsgs [hi] (List.forall_mem_singleton.mpr sendable_hi) rfl).2 (by decide)

/-- The body has not arrived yet when its header is read. -/
def againAfterHeader : List Event :=
  [.ready true, .head (.bytes 8), .body (.fails eagain) true, .head (.bytes 2),
    .head (.fails eagain)]

/-- The header of a message of type 1 with the length -1. -/
def negativeLength : Bytes := toLE 4 1 ++ toLE 4 (ofInt 4 (-1))

/-- The process ends when `myrecv` is called. If it went on, the header would be forgotten when
the body is not there yet, and the body taken for the next header; a negative length asks for
nearly 2 ^ 64 bytes. -/
theorem not_exact_againAfterHeader :
    (∃ tr s, Run Step (start (encodeAll [hi])) tr s ∧ s.place = .terminated ∧
      s.delivered = [] ∧ ¬ Exact [hi] s) ∧
    (∃ tr s, Run Step (start (encodeAll [hi])) tr s ∧ s.stream = [] ∧ s.place = .outside ∧
      s.delivered = [] ∧ ¬ Exact [hi] s) ∧
    ∃ tr s, Run Step (start negativeLength) tr s ∧ s.place = .body ∧
      requested s.head = 2 ^ 64 - 1 ∧ ¬ FitsMessage s := by
  refine ⟨?_, ?_, ?_⟩
  · refine ⟨_, _, run_of_events hi.encode [.ready false] (by decide), by decide, by decide, ?_⟩
    rintro ⟨-, hall⟩
    exact absurd (hall (.inr (by decide))) (by decide)
  · refine ⟨_, _, run_of_events hi.encode againAfterHeader (by decide), by decide, by decide,
      by decide, ?_⟩
    rintro ⟨-, hall⟩
    exact absurd (hall (.inl ⟨by decide, by decide⟩)) (by decide)
  · refine ⟨_, _, run_of_events negativeLength [.ready true, .head (.bytes 8)] (by decide),
      by decide, by decide, ?_⟩
    intro hfits
    exact absurd (hfits (by decide)) (by decide)

end Receiver

end Vs17.Select
