import Vs17.Asio.MsgProcess
import Vs17.Asio.Streams

/-! # The layout of replies

A well laid out reply repeats the request's fields, carries its text right behind
the `Overload` and the management header, and is one frame for the cutter of the same
processor. No reply is: the text starts four bytes early, over the end of the header,
and a device reply announces more than the device cutter finds behind it.
-/

namespace Vs17.Asio

open Framing Words

namespace Processor

/-- The header fields a reply repeats from its request. -/
def echoed : Processor → List Field
  | conferenceDistributor =>
    [ConferenceMngHead.cmd, ConferenceMngHead.id, ConferenceMngHead.total,
      ConferenceMngHead.index]
  | _ =>
    [DeviceMngHead.taskNo, DeviceMngHead.deviceNo, DeviceMngHead.cmdType, DeviceMngHead.cmd]

/-- The command a handler finds in a request. -/
def cmd (p : Processor) (msg : Bytes) : ℕ :=
  match p with
  | conferenceDistributor => ntohs (ConferenceMngHead.cmd.get Overload.sizeof msg)
  | _ => ntohl (DeviceMngHead.cmd.get Overload.sizeof msg)

/-- The text length in the management header, in the width and byte order in which it
is decoded: `ConferenceDistributor` decodes it with `ntohs`, and the device clients
encode it with `htonl`. -/
def textLen (p : Processor) (b : Bytes) : ℕ :=
  match p with
  | conferenceDistributor => ntohs (ConferenceMngHead.len.get Overload.sizeof b)
  | _ => ntohl (DeviceMngHead.len.get Overload.sizeof b)

/-- The size of a reply with this text. -/
def replySize (p : Processor) (r : Bytes) : ℕ :=
  match p with
  | conferenceDistributor => ConferenceMngHead.sizeof + r.length
  | _ => DeviceMngHead.sizeof + r.length + 4

end Processor

/-- A request the processor answers: both headers are there, and the tag is its own. -/
structure Request (p : Processor) (msg : Bytes) : Prop where
  length_ge : Overload.sizeof + p.headSize ≤ msg.length
  tag_eq : ntohs (Overload.tag.get 0 msg) = p.tag

/-- The documented layout of a reply to a request, with this text. -/
structure LaidOut (p : Processor) (msg r reply : Bytes) : Prop where
  tag : ntohs (Overload.tag.get 0 reply) = ntohs (Overload.tag.get 0 msg)
  echoed : ∀ f ∈ p.echoed, bswap f.size (f.get Overload.sizeof reply) =
    bswap f.size (f.get Overload.sizeof msg)
  text : (reply.drop (Overload.sizeof + p.headSize)).take r.length = r
  oneFrame : msgGet p.cutter reply [] = some (.returns reply.length [reply])
  textLen : p.textLen reply = r.length

section

variable {tag taskNo deviceNo cmdType cmd id total index : ℕ} {r : Bytes}

theorem length_deviceReply (h : DeviceMngHead.sizeof + r.length + 4 ≤ writeBufferSize) :
    (deviceReply tag taskNo deviceNo cmdType cmd r).length =
      DeviceMngHead.sizeof + r.length + 4 := by
  simp only [deviceReply, List.length_take, length_blit, Field.length_set,
    List.length_replicate, Nat.min_eq_left h]

theorem le_length_deviceReply (h : r.length ≤ 514) :
    28 ≤ (deviceReply tag taskNo deviceNo cmdType cmd r).length := by
  have hfit : DeviceMngHead.sizeof + r.length + 4 ≤ writeBufferSize := by
    simp only [DeviceMngHead.sizeof, writeBufferSize]
    omega
  rw [length_deviceReply hfit]
  simp only [DeviceMngHead.sizeof]
  omega

theorem length_conferenceReply (h : ConferenceMngHead.sizeof + r.length ≤ writeBufferSize) :
    (conferenceReply tag cmd id total index r).length =
      ConferenceMngHead.sizeof + r.length := by
  simp only [conferenceReply, List.length_take, length_blit, Field.length_set,
    List.length_replicate, Nat.min_eq_left h]

theorem announced_deviceReply :
    announced (deviceReply tag taskNo deviceNo cmdType cmd r) =
      (DeviceMngHead.sizeof + r.length + 4) % 65536 := by
  rw [announced, deviceReply, Field.get_take (by simp [Overload.len, DeviceMngHead.sizeof]),
    Field.get_blit_of_le (by exact Nat.le_add_right_of_le (by decide)),
    Field.get_blit_of_le (by decide), Field.get_set_of_disjoint (by decide),
    Field.get_set_self (by simp only [Field.length_set, List.length_replicate]; decide)]
  exact ntohs_htons_mod _

/-- A device reply announces its whole size, which the device cutter takes for the
size of what follows the header. -/
theorem deviceReply_not_oneFrame (hr : r ≠ [])
    (h : DeviceMngHead.sizeof + r.length + 4 ≤ writeBufferSize) :
    let reply := deviceReply tag taskNo deviceNo cmdType cmd r
    msgGet deviceCutter reply [] ≠ some (.returns reply.length [reply]) := by
  intro reply hget
  obtain ⟨fs, rest, hsplit, hfs, -⟩ := msgGet_returns_iff.mp hget
  obtain rfl : [reply] = fs := by simpa using hfs
  obtain ⟨-, -, hlen⟩ := cut_eq_some.mp hsplit.head_length
  have hpos : 0 < r.length := List.length_pos_iff.mpr hr
  simp only [reply, announced_deviceReply, length_deviceReply h, deviceCutter] at hlen
  simp only [DeviceMngHead.sizeof, writeBufferSize] at hlen h
  omega

/-- A conference reply ends before a text behind the full header would. -/
theorem conferenceReply_not_text (hr : r ≠ [])
    (h : ConferenceMngHead.sizeof + r.length ≤ writeBufferSize) :
    ((conferenceReply tag cmd id total index r).drop
      (Overload.sizeof + ConferenceMngHead.sizeof)).take r.length ≠ r := by
  intro htext
  have hlen := congrArg List.length htext
  have hpos : 0 < r.length := List.length_pos_iff.mpr hr
  simp only [List.length_take, List.length_drop, length_conferenceReply h,
    Overload.sizeof, ConferenceMngHead.sizeof] at hlen
  omega

end

/-- Every request with a text for its command is answered, and no answer is laid out
as documented. -/
theorem reply_not_laidOut {p : Processor} {response : ℕ → Bytes} {msg : Bytes}
    (hreq : Request p msg) (hr : response (p.cmd msg) ≠ [])
    (hfit : p.replySize (response (p.cmd msg)) ≤ writeBufferSize) :
    ∃ reply, p.msgProcessWith response msg = .ok (some reply) ∧
      ¬ LaidOut p msg (response (p.cmd msg)) reply := by
  obtain ⟨hlen, htag⟩ := hreq
  cases p with
  | conferenceDistributor =>
    exact ⟨_, conferenceMsgProcess_answers hlen htag hr,
      fun h => conferenceReply_not_text hr hfit h.text⟩
  | _ =>
    exact ⟨_, deviceMsgProcess_answers hlen htag hr,
      fun h => deviceReply_not_oneFrame hr hfit h.oneFrame⟩

theorem replySize_response_le (p : Processor) (cmd : ℕ) :
    p.replySize (p.response cmd) ≤ writeBufferSize := by
  have hle := p.length_response_le cmd
  cases p <;> simp only [Processor.replySize, DeviceMngHead.sizeof, ConferenceMngHead.sizeof,
    writeBufferSize] <;> omega

/-- A device request for command 102, without a text. -/
def deviceRequest : Bytes :=
  [0x60, 0x20, 0, 28, 0xff, 0xff, 0xff, 0xff, 0, 0, 0, 1, 0, 0, 0, 41, 0, 2, 0, 0, 0, 102, 0, 0,
    0, 0, 0, 0, 0xee, 0xee, 0xee, 0xee]

theorem reply_not_laidOut_deviceRequest : ∃ reply,
    Processor.deviceManager.msgProcess deviceRequest = .ok (some reply) ∧
      ¬ LaidOut .deviceManager deviceRequest (Processor.deviceManager.response 102) reply := by
  have hreq : Request .deviceManager deviceRequest := ⟨by decide, by decide⟩
  have hcmd : Processor.deviceManager.cmd deviceRequest = 102 := by decide
  have hne : Processor.deviceManager.response 102 ≠ [] := by decide +kernel
  have hreply := @reply_not_laidOut _ Processor.deviceManager.response _ hreq
    (by rw [hcmd]; exact hne) (replySize_response_le _ _)
  rwa [hcmd] at hreply

/-- The reply of `ConferenceDistributor` to command 0x0600 ends where a text behind the
full header would still have four bytes to come. -/
theorem emptyRequest_not_laidOut : ∃ reply,
    Processor.conferenceDistributor.msgProcess emptyRequest.bytes = .ok (some reply) ∧
      ¬ LaidOut .conferenceDistributor emptyRequest.bytes
        (Processor.conferenceDistributor.response 0x0600) reply := by
  have htag : ntohs (Overload.tag.get 0 emptyRequest.bytes) = 0x6012 := by decide
  have hcmd : ntohs (ConferenceMngHead.cmd.get Overload.sizeof emptyRequest.bytes) = 0x0600 := by
    decide
  have hne : Processor.conferenceDistributor.response 0x0600 ≠ [] := by decide +kernel
  have hanswer := @conferenceMsgProcess_answers _ Processor.conferenceDistributor.response _
    emptyRequest.length_ge htag (by rw [hcmd]; exact hne)
  rw [hcmd] at hanswer
  refine ⟨_, hanswer, fun h => ?_⟩
  exact conferenceReply_not_text hne (replySize_response_le .conferenceDistributor 0x0600) h.text

end Vs17.Asio
