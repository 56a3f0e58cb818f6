import Vs17.Library.CString
import Vs17.Library.Fields

/-! # Answering ARP requests

What the tap device delivers is read into a buffer of 65536 bytes. When the frame is taken for an
ARP packet, what lies behind its Ethernet header is copied to a packet of 28 bytes, and a request is
turned into the reply to it.
-/

namespace Vs17.Net

open CString Words

/-- A 16-bit number in network order, as it lies in memory. -/
def htons (x : ℕ) : Bytes := toLE 2 (bswap 2 x)

namespace Ethhdr

def dest : Field := ⟨0, 6⟩
def source : Field := ⟨6, 6⟩
def proto : Field := ⟨12, 2⟩

end Ethhdr

namespace OpenvpnArp

def arpCommand : Field := ⟨6, 2⟩
def macSrc : Field := ⟨8, 6⟩
def ipSrc : Field := ⟨14, 4⟩
def macDest : Field := ⟨18, 6⟩
def ipDest : Field := ⟨24, 4⟩

end OpenvpnArp

open Ethhdr OpenvpnArp

def dstMAC : Bytes := [0x00, 0xff, 0x93, 0xb6, 0xf7, 0x50] ++ List.replicate 26 0

/-- The number of bytes that are copied to the packet: an `unsigned int`. -/
def copyLength (len : ℕ) : ℕ := (len + (2 ^ 32 - 14)) % 2 ^ 32

/-- The reply that is made out of a request. -/
def answer (pktArp : Bytes) : Bytes :=
  let pktArp := arpCommand.set (htons 0x0002) pktArp
  let pktArp := macDest.set (macSrc.get pktArp) pktArp
  let pktArp := macSrc.set (dstMAC.take 6) pktArp
  let tmp := ipDest.get pktArp
  let pktArp := ipDest.set (ipSrc.get pktArp) pktArp
  ipSrc.set tmp pktArp

/-- What is left in the buffer, what is written to the device, and the length of the frame. -/
structure Result where
  buffer : Bytes
  written : Option Bytes
  len : ℕ
  deriving DecidableEq

/-- One frame. The array `srcMAC` is what `sscanf` has read from the address of the device. -/
def myread (srcMAC buffer frame : Bytes) : Except Fault Result :=
  let buffer := blit 0 frame buffer
  let len := frame.length
  if proto.get buffer = htons 0x0806 ∧ len < 100 then do
    let pktArp ← copy ((buffer.drop 14).take (copyLength len)) (List.replicate 28 0)
    if arpCommand.get pktArp = htons 0x0001 then
      let buffer := source.set (dstMAC.take 6) (dest.set (srcMAC.take 6) buffer)
      let writeBuffer := blit 0 (buffer.take 14) (List.replicate 256 0)
      let writeBuffer := blit 14 (answer pktArp) writeBuffer
      return ⟨buffer, some (writeBuffer.take 42), len⟩
    else
      return ⟨buffer, none, len⟩
  else
    return ⟨buffer, none, len⟩

/-- A packet is the reply to a request. -/
structure IsReplyTo (request reply : Bytes) : Prop where
  command_eq : arpCommand.get reply = htons 0x0002
  macDest_eq : macDest.get reply = macSrc.get request
  ipDest_eq : ipDest.get reply = ipSrc.get request
  ipSrc_eq : ipSrc.get reply = ipDest.get request

/-- The frame is taken for an ARP packet. -/
def IsArp (buffer frame : Bytes) : Prop :=
  proto.get (blit 0 frame buffer) = htons 0x0806 ∧ frame.length < 100

/-- No fault, a length that does not wrap, and a reply for a whole request only. -/
structure Answers (srcMAC buffer frame : Bytes) : Prop where
  copyLength : IsArp buffer frame → 14 ≤ frame.length ∧ copyLength frame.length ≤ 28
  ok : ∃ r, myread srcMAC buffer frame = .ok r
  written : ∀ r w, myread srcMAC buffer frame = .ok r → r.written = some w →
    42 ≤ frame.length ∧ proto.get w = htons 0x0806 ∧ IsReplyTo (frame.drop 14) (w.drop 14)

variable {srcMAC buffer frame pktArp w : Bytes} {r : Result} {len : ℕ}

theorem length_answer : (answer pktArp).length = pktArp.length := by
  simp [answer]

theorem answer_isReplyTo (h : pktArp.length = 28) : IsReplyTo pktArp (answer pktArp) := by
  have hlen (f : Field) (hf : f.off + f.size ≤ 28) : f.off + f.size ≤ pktArp.length := h ▸ hf
  have hmac : (macSrc.get pktArp).length = macDest.size := Field.length_get (hlen _ (by decide))
  have hsrc : (ipSrc.get pktArp).length = ipDest.size := Field.length_get (hlen _ (by decide))
  have hdest : (ipDest.get pktArp).length = ipSrc.size := Field.length_get (hlen _ (by decide))
  constructor
  · simp (disch := decide) only [answer, Field.get_set_of_apart]
    exact Field.get_set (length_toLE ..) (hlen _ (by decide))
  · simp (disch := decide) only [answer, Field.get_set_of_apart]
    exact Field.get_set hmac (by simpa using hlen _ (by decide))
  · simp (disch := decide) only [answer, Field.get_set_of_apart]
    exact Field.get_set hsrc (by simpa using hlen _ (by decide))
  · simp (disch := decide) only [answer, Field.get_set_of_apart]
    exact Field.get_set hdest (by simpa using hlen _ (by decide))

/-- The packet that a frame of up to 42 bytes is copied to. -/
def packet (frame : Bytes) : Bytes :=
  frame.drop 14 ++ List.replicate (42 - frame.length) 0

/-- The frame that is written: the header with new addresses, and the reply. -/
def replyFrame (srcMAC buffer frame : Bytes) : Bytes :=
  (source.set (dstMAC.take 6) (dest.set (srcMAC.take 6) (blit 0 frame buffer))).take 14 ++
    answer (packet frame)

theorem length_packet (hlo : 14 ≤ frame.length) (hhi : frame.length ≤ 42) :
    (packet frame).length = 28 := by
  simp only [packet, List.length_append, List.length_drop, List.length_replicate]
  omega

/-- Zeros behind the bytes that there are do not complete a number. -/
theorem take_two_append {x y : UInt8} (hy : y ≠ 0) (l : Bytes) (n : ℕ) :
    (l ++ List.replicate n 0).take 2 = [x, y] ↔ l.take 2 = [x, y] := by
  match l, n with
  | [], 0 | [], 1 | [], n + 2 => simp [List.replicate_succ, hy.symm]
  | [z], 0 | [z], n + 1 => simp [List.replicate_succ, hy.symm]
  | z :: z' :: l, n => simp

theorem arpCommand_packet :
    arpCommand.get (packet frame) = htons 0x0001 ↔ (frame.drop 20).take 2 = htons 0x0001 := by
  rw [Field.get, packet, List.drop_append, List.drop_drop, List.drop_replicate]
  exact take_two_append (by decide) ..

theorem copyLength_le (hlen : len < 100) : copyLength len ≤ 28 ↔ 14 ≤ len ∧ len ≤ 42 := by
  rw [copyLength]
  omega

section Frame

variable (hbuf : buffer.length = 65536)
include hbuf

theorem blit_frame (hframe : frame.length ≤ 65536) :
    blit 0 frame buffer = frame ++ buffer.drop frame.length := by
  rw [blit_eq_append (by omega), List.take_zero, List.nil_append, zero_add]

theorem copy_frame (hlo : 14 ≤ frame.length) (hhi : frame.length ≤ 42) :
    copy (((blit 0 frame buffer).drop 14).take (copyLength frame.length)) (List.replicate 28 0) =
      .ok (packet frame) := by
  have hcopy : copyLength frame.length = (frame.drop 14).length := by
    rw [copyLength, List.length_drop]
    omega
  have hpart : ((blit 0 frame buffer).drop 14).take (copyLength frame.length) = frame.drop 14 := by
    rw [blit_frame hbuf (by omega), List.drop_append_of_le_length hlo, hcopy, List.take_left]
  have hfits : (frame.drop 14).length ≤ (List.replicate 28 (0 : UInt8)).length := by
    simp only [List.length_drop, List.length_replicate]
    omega
  rw [hpart, copy, if_pos hfits, blit_eq_append (by simpa using hfits), packet, zero_add,
    List.drop_replicate, List.take_zero, List.nil_append, List.length_drop,
    show 28 - (frame.length - 14) = 42 - frame.length by omega]

theorem copy_frame_overruns (hlen : frame.length < 100)
    (h : ¬ (14 ≤ frame.length ∧ frame.length ≤ 42)) :
    copy (((blit 0 frame buffer).drop 14).take (copyLength frame.length)) (List.replicate 28 0) =
      .error .overruns := by
  have hlong := mt (copyLength_le hlen).mp h
  rw [copy, if_neg]
  simp only [List.length_take, List.length_drop, length_blit, List.length_replicate]
  omega

theorem drop_replyFrame :
    (replyFrame srcMAC buffer frame).drop 14 = answer (packet frame) := by
  apply List.drop_left'
  simp [hbuf]

theorem proto_replyFrame :
    proto.get (replyFrame srcMAC buffer frame) = proto.get (blit 0 frame buffer) := by
  rw [replyFrame, Field.get_append (by simp [hbuf, proto]), Field.get_take (by decide),
    Field.get_set_of_apart (by decide), Field.get_set_of_apart (by decide)]

variable (srcMAC) in
/-- A frame that is taken for an ARP packet and fits in it is answered when it is a request. -/
theorem myread_of_isArp (h : IsArp buffer frame) (hlo : 14 ≤ frame.length)
    (hhi : frame.length ≤ 42) : ∃ b, myread srcMAC buffer frame = .ok ⟨b,
      if (frame.drop 20).take 2 = htons 0x0001 then some (replyFrame srcMAC buffer frame) else none,
      frame.length⟩ := by
  have hanswer : (answer (packet frame)).length = 28 := by
    rw [length_answer, length_packet hlo hhi]
  obtain ⟨hproto, hlen⟩ := h
  rw [myread, if_pos ⟨hproto, hlen⟩, copy_frame hbuf hlo hhi]
  by_cases hreq : (frame.drop 20).take 2 = htons 0x0001
  · refine ⟨source.set (dstMAC.take 6) (dest.set (srcMAC.take 6) (blit 0 frame buffer)), ?_⟩
    have hwrite {header : Bytes} (hheader : header.length = 14) :
        (blit 14 (answer (packet frame)) (blit 0 header (List.replicate 256 0))).take 42 =
          header ++ answer (packet frame) := by
      have hroom : (blit 14 (answer (packet frame)) (blit 0 header (List.replicate 256 0))).take
          (14 + (answer (packet frame)).length) =
            (blit 0 header (List.replicate 256 0)).take 14 ++ answer (packet frame) :=
        take_blit (by rw [hanswer, length_blit, List.length_replicate]; norm_num)
      have hfront : (blit 0 header (List.replicate 256 0)).take (0 + header.length) =
          (List.replicate 256 0).take 0 ++ header :=
        take_blit (by rw [hheader, List.length_replicate]; norm_num)
      rw [hanswer] at hroom
      rw [hheader, zero_add, List.take_zero, List.nil_append] at hfront
      rw [hroom, hfront]
    rw [if_pos hreq, replyFrame, ← hwrite (by simp [hbuf])]
    simp only [bind, Except.bind, arpCommand_packet, if_pos hreq]
    rfl
  · refine ⟨blit 0 frame buffer, ?_⟩
    rw [if_neg hreq]
    simp only [bind, Except.bind, arpCommand_packet, if_neg hreq]
    rfl

theorem myread_overruns (h : IsArp buffer frame)
    (hlen : ¬ (14 ≤ frame.length ∧ frame.length ≤ 42)) :
    myread srcMAC buffer frame = .error .overruns := by
  obtain ⟨hproto, hlt⟩ := h
  rw [myread, if_pos ⟨hproto, hlt⟩, copy_frame_overruns hbuf hlt hlen]
  rfl

end Frame

theorem myread_of_not_isArp (h : ¬ IsArp buffer frame) :
    myread srcMAC buffer frame = .ok ⟨blit 0 frame buffer, none, frame.length⟩ :=
  if_neg h

theorem answers_of_not_isArp (h : ¬ IsArp buffer frame) : Answers srcMAC buffer frame := by
  have hread : myread srcMAC buffer frame = _ := myread_of_not_isArp h
  refine ⟨fun harp => absurd harp h, ⟨_, hread⟩, fun r w hr hw => ?_⟩
  cases hr.symm.trans hread
  cases hw

theorem answers_of_isArp (hbuf : buffer.length = 65536) (h : IsArp buffer frame)
    (hlo : 14 ≤ frame.length) (hhi : frame.length ≤ 42)
    (hshort : frame.length < 42 → (frame.drop 20).take 2 ≠ htons 0x0001) :
    Answers srcMAC buffer frame := by
  obtain ⟨b, hread⟩ := myread_of_isArp srcMAC hbuf h hlo hhi
  refine ⟨fun _ => ⟨hlo, (copyLength_le h.2).mpr ⟨hlo, hhi⟩⟩, ⟨_, hread⟩, fun r w hr hw => ?_⟩
  cases hr.symm.trans hread
  by_cases hreq : (frame.drop 20).take 2 = htons 0x0001
  · have hlen : frame.length = 42 := by
      by_contra hne
      exact hshort (by omega) hreq
    have hpacket : packet frame = frame.drop 14 := by
      rw [packet, hlen, Nat.sub_self, List.replicate_zero, List.append_nil]
    rw [if_pos hreq] at hw
    cases hw
    rw [proto_replyFrame hbuf, drop_replyFrame hbuf, ← hpacket]
    exact ⟨hlen.ge, h.1, answer_isReplyTo (length_packet hlo hhi)⟩
  · rw [if_neg hreq] at hw
    cases hw

theorem Answers.length_le (hbuf : buffer.length = 65536) (h : Answers srcMAC buffer frame)
    (harp : IsArp buffer frame) : 14 ≤ frame.length ∧ frame.length ≤ 42 ∧
      (frame.length < 42 → (frame.drop 20).take 2 ≠ htons 0x0001) := by
  obtain ⟨hlo, hhi⟩ := (copyLength_le harp.2).mp (h.copyLength harp).2
  refine ⟨hlo, hhi, fun hlt hreq => ?_⟩
  obtain ⟨b, hread⟩ := myread_of_isArp srcMAC hbuf harp hlo hhi
  rw [if_pos hreq] at hread
  exact absurd (h.written _ _ hread rfl).1 (by omega)

/-- An Ethernet header of a broadcast from 02:00:00:00:00:01, and the first bytes of a request. -/
def requestHead : Bytes :=
  [255, 255, 255, 255, 255, 255, 2, 0, 0, 0, 0, 1, 8, 6, 0, 1, 8, 0, 6, 4, 0, 1]

/-- A request with a sender at 10.0.0.1 that asks for 10.0.0.2. -/
def request : Bytes :=
  requestHead ++ [2, 0, 0, 0, 0, 1, 10, 0, 0, 1, 0, 0, 0, 0, 0, 0, 10, 0, 0, 2]

theorem isArp_requestHead (hbuf : buffer.length = 65536) {rest : Bytes}
    (hlen : rest.length < 60) : IsArp buffer (requestHead ++ rest) := by
  have hlen' : (requestHead ++ rest).length = 22 + rest.length := List.length_append
  refine ⟨?_, by omega⟩
  rw [blit_frame hbuf (by omega), List.append_assoc, Field.get_append (by decide)]
  rfl

/-- A frame is dealt with as it should be, unless it is taken for an ARP packet and is longer than
a header and a packet, shorter than a header, or a request that is cut short. -/
theorem answers_iff (hbuf : buffer.length = 65536) : Answers srcMAC buffer frame ↔
    (IsArp buffer frame → 14 ≤ frame.length ∧ frame.length ≤ 42 ∧
      (frame.length < 42 → (frame.drop 20).take 2 ≠ htons 0x0001)) := by
  constructor
  · exact fun h => h.length_le hbuf
  · intro h
    by_cases harp : IsArp buffer frame
    · obtain ⟨hlo, hhi, hshort⟩ := h harp
      exact answers_of_isArp hbuf harp hlo hhi hshort
    · exact answers_of_not_isArp harp

/-- A request of 42 bytes is dealt with as it should be. -/
theorem answers_iff_request :
    Answers (List.replicate 32 0) (List.replicate 65536 0) request := by
  have hbuf : (List.replicate 65536 (0 : UInt8)).length = 65536 := List.length_replicate
  exact (answers_iff hbuf).mpr fun _ => by decide

/-- A request in a frame of 60 bytes, the smallest that an Ethernet sends, is copied over the end
of the packet. One that is cut to 22 bytes is replied to. -/
theorem not_answers_padded :
    let buffer : Bytes := List.replicate 65536 0
    myread (List.replicate 32 0) buffer (request ++ List.replicate 18 0) = .error .overruns ∧
      ¬ Answers (List.replicate 32 0) buffer (request ++ List.replicate 18 0) ∧
      ¬ Answers (List.replicate 32 0) buffer requestHead := by
  intro buffer
  have hbuf : buffer.length = 65536 := List.length_replicate
  have hpadded : IsArp buffer (request ++ List.replicate 18 0) := by
    rw [request, List.append_assoc]
    exact isArp_requestHead hbuf (by decide)
  have hcut : IsArp buffer (requestHead ++ []) := isArp_requestHead hbuf (by decide)
  refine ⟨myread_overruns hbuf hpadded (by decide), fun h => ?_, fun h => ?_⟩
  · exact absurd (h.length_le hbuf hpadded).2.1 (by decide)
  · exact absurd rfl ((h.length_le hbuf hcut).2.2 (by decide))

end Vs17.Net
