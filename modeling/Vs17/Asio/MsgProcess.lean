import Vs17.Asio.Connection
import Vs17.Asio.Responses

/-! # The message handlers `msgProcess`

Seven handlers decode a request in place, choose a response text and assemble a
reply in a zeroed buffer of 65536 bytes. The six device handlers differ in their tag
and texts only. The header of the reply is laid over the buffer behind its
`Overload`, the text is copied to the size of the header, four bytes before its end.
-/

namespace Vs17.Asio

open Words

/-- Read a member of a struct laid over a message, inside the message only. -/
def Field.read (f : Field) (base : ℕ) (msg : Bytes) : Except Fault ℕ :=
  if base + f.off + f.size ≤ msg.length then .ok (f.get base msg) else .error .pastEnd

/-- The size of `write_buffer_` in the handlers. -/
def writeBufferSize : ℕ := 65536

/-- The reply of a device handler to a request with these decoded fields. -/
def deviceReply (tag taskNo deviceNo cmdType cmd : ℕ) (response : Bytes) : Bytes :=
  let head := Overload.sizeof
  let json := DeviceMngHead.sizeof
  let len := DeviceMngHead.sizeof + response.length + 4
  let writeBuffer := List.replicate writeBufferSize 0
    |> Overload.tag.set 0 (htons tag)
    |> DeviceMngHead.begin.set head 0xffffffff
    |> DeviceMngHead.taskNo.set head (htonl taskNo)
    |> DeviceMngHead.deviceNo.set head (htonl deviceNo)
    |> DeviceMngHead.cmdType.set head (htons cmdType)
    |> DeviceMngHead.cmd.set head (htonl cmd)
    |> DeviceMngHead.ret.set head (htons 0)
    |> Overload.len.set 0 (htons len)
    |> DeviceMngHead.len.set head (htons response.length)
    |> blit json response
    |> blit (json + response.length) (toLE 4 0xeeeeeeee)
  writeBuffer.take len

/-- The reply of `ConferenceDistributor` to a request with these decoded fields. -/
def conferenceReply (tag cmd id total index : ℕ) (response : Bytes) : Bytes :=
  let head := Overload.sizeof
  let json := ConferenceMngHead.sizeof
  let len := ConferenceMngHead.sizeof + response.length
  let writeBuffer := List.replicate writeBufferSize 0
    |> Overload.tag.set 0 (htons tag)
    |> (ConferenceMngHead.version 0).set head 0x01
    |> (ConferenceMngHead.version 1).set head 0x02
    |> ConferenceMngHead.cmd.set head (htons cmd)
    |> ConferenceMngHead.id.set head (htonll id)
    |> ConferenceMngHead.total.set head (htons total)
    |> ConferenceMngHead.index.set head (htons index)
    |> Overload.len.set 0 (htons len)
    |> ConferenceMngHead.len.set head (htons response.length)
    |> blit json response
  writeBuffer.take len

/-- `msgProcess` of the device handlers: the bytes handed to `do_write`, if any. -/
def deviceMsgProcess (tag : ℕ) (response : ℕ → Bytes) (msg : Bytes) :
    Except Fault (Option Bytes) :=
  if msg.length = 0 then .ok none
  else do
    let overloadTag := ntohs (← Overload.tag.read 0 msg)
    let _ ← Overload.len.read 0 msg
    if overloadTag = tag then
      let head := Overload.sizeof
      let taskNo := ntohl (← DeviceMngHead.taskNo.read head msg)
      let deviceNo := ntohl (← DeviceMngHead.deviceNo.read head msg)
      let cmdType := ntohs (← DeviceMngHead.cmdType.read head msg)
      let cmd := ntohl (← DeviceMngHead.cmd.read head msg)
      let _ ← DeviceMngHead.ret.read head msg -- overwritten with zero
      if (response cmd).length = 0 then .ok none
      else .ok (some (deviceReply overloadTag taskNo deviceNo cmdType cmd (response cmd)))
    else .ok none

/-- `ConferenceDistributor::msgProcess`. -/
def conferenceMsgProcess (tag : ℕ) (response : ℕ → Bytes) (msg : Bytes) :
    Except Fault (Option Bytes) :=
  if msg.length = 0 then .ok none
  else do
    let overloadTag := ntohs (← Overload.tag.read 0 msg)
    let _ ← Overload.len.read 0 msg
    if overloadTag = tag then
      let head := Overload.sizeof
      let cmd := ntohs (← ConferenceMngHead.cmd.read head msg)
      let id := ntohll (← ConferenceMngHead.id.read head msg)
      let total := ntohs (← ConferenceMngHead.total.read head msg)
      let index := ntohs (← ConferenceMngHead.index.read head msg)
      let _ ← ConferenceMngHead.len.read head msg -- decoded and not used
      if (response cmd).length = 0 then .ok none
      else .ok (some (conferenceReply overloadTag cmd id total index (response cmd)))
    else .ok none

namespace Processor

/-- The handler, for any table of response texts. -/
def msgProcessWith (response : ℕ → Bytes) : Processor → Bytes → Except Fault (Option Bytes)
  | conferenceDistributor => conferenceMsgProcess conferenceDistributor.tag response
  | deviceManager => deviceMsgProcess deviceManager.tag response
  | userManager => deviceMsgProcess userManager.tag response
  | authManager => deviceMsgProcess authManager.tag response
  | conferenceManager => deviceMsgProcess conferenceManager.tag response
  | upgradeManager => deviceMsgProcess upgradeManager.tag response
  | configManager => deviceMsgProcess configManager.tag response

/-- `msgProcess`, with the processor's own texts. -/
def msgProcess (p : Processor) : Bytes → Except Fault (Option Bytes) :=
  p.msgProcessWith p.response

/-- `msgGet` is overridden by `ConferenceDistributor` only. -/
def cutter : Processor → Cutter
  | conferenceDistributor => conferenceCutter
  | _ => deviceCutter

/-- The size of the management header a processor reads behind the `Overload`. -/
def headSize : Processor → ℕ
  | conferenceDistributor => ConferenceMngHead.sizeof
  | _ => DeviceMngHead.sizeof

end Processor

section

variable {tag : ℕ} {response : ℕ → Bytes} {msg : Bytes}

theorem Field.read_of_le {f : Field} {base : ℕ} (h : base + f.off + f.size ≤ msg.length) :
    f.read base msg = .ok (f.get base msg) := if_pos h

/-- What a device handler returns for a message that holds all of its headers. -/
theorem deviceMsgProcess_of_le (h : Overload.sizeof + DeviceMngHead.sizeof ≤ msg.length) :
    deviceMsgProcess tag response msg = .ok
      (let cmd := ntohl (DeviceMngHead.cmd.get Overload.sizeof msg)
       if ntohs (Overload.tag.get 0 msg) = tag ∧ response cmd ≠ [] then
        some (deviceReply tag (ntohl (DeviceMngHead.taskNo.get Overload.sizeof msg))
          (ntohl (DeviceMngHead.deviceNo.get Overload.sizeof msg))
          (ntohs (DeviceMngHead.cmdType.get Overload.sizeof msg)) cmd (response cmd))
       else none) := by
  have h0 : msg.length ≠ 0 := by
    rintro h0
    simp [h0, Overload.sizeof] at h
  simp only [deviceMsgProcess, h0, if_false, List.length_eq_zero_iff]
  have hread (f : Field) (base : ℕ)
      (hf : base + f.off + f.size ≤ Overload.sizeof + DeviceMngHead.sizeof) :
      f.read base msg = .ok (f.get base msg) := Field.read_of_le (hf.trans h)
  simp (disch := decide) only [hread, bind, Except.bind]
  split_ifs <;> simp_all

/-- What `ConferenceDistributor` returns for a message that holds all of its headers. -/
theorem conferenceMsgProcess_of_le
    (h : Overload.sizeof + ConferenceMngHead.sizeof ≤ msg.length) :
    conferenceMsgProcess tag response msg = .ok
      (let cmd := ntohs (ConferenceMngHead.cmd.get Overload.sizeof msg)
       if ntohs (Overload.tag.get 0 msg) = tag ∧ response cmd ≠ [] then
        some (conferenceReply tag cmd (ntohll (ConferenceMngHead.id.get Overload.sizeof msg))
          (ntohs (ConferenceMngHead.total.get Overload.sizeof msg))
          (ntohs (ConferenceMngHead.index.get Overload.sizeof msg)) (response cmd))
       else none) := by
  have h0 : msg.length ≠ 0 := by
    rintro h0
    simp [h0, Overload.sizeof] at h
  simp only [conferenceMsgProcess, h0, if_false, List.length_eq_zero_iff]
  have hread (f : Field) (base : ℕ)
      (hf : base + f.off + f.size ≤ Overload.sizeof + ConferenceMngHead.sizeof) :
      f.read base msg = .ok (f.get base msg) := Field.read_of_le (hf.trans h)
  simp (disch := decide) only [hread, bind, Except.bind]
  split_ifs <;> simp_all

theorem deviceMsgProcess_answers (h : Overload.sizeof + DeviceMngHead.sizeof ≤ msg.length)
    (ht : ntohs (Overload.tag.get 0 msg) = tag)
    (hr : response (ntohl (DeviceMngHead.cmd.get Overload.sizeof msg)) ≠ []) :
    deviceMsgProcess tag response msg = .ok (some (deviceReply tag
      (ntohl (DeviceMngHead.taskNo.get Overload.sizeof msg))
      (ntohl (DeviceMngHead.deviceNo.get Overload.sizeof msg))
      (ntohs (DeviceMngHead.cmdType.get Overload.sizeof msg))
      (ntohl (DeviceMngHead.cmd.get Overload.sizeof msg))
      (response (ntohl (DeviceMngHead.cmd.get Overload.sizeof msg))))) := by
  rw [deviceMsgProcess_of_le h]
  exact congrArg Except.ok (if_pos ⟨ht, hr⟩)

theorem conferenceMsgProcess_answers
    (h : Overload.sizeof + ConferenceMngHead.sizeof ≤ msg.length)
    (ht : ntohs (Overload.tag.get 0 msg) = tag)
    (hr : response (ntohs (ConferenceMngHead.cmd.get Overload.sizeof msg)) ≠ []) :
    conferenceMsgProcess tag response msg = .ok (some (conferenceReply tag
      (ntohs (ConferenceMngHead.cmd.get Overload.sizeof msg))
      (ntohll (ConferenceMngHead.id.get Overload.sizeof msg))
      (ntohs (ConferenceMngHead.total.get Overload.sizeof msg))
      (ntohs (ConferenceMngHead.index.get Overload.sizeof msg))
      (response (ntohs (ConferenceMngHead.cmd.get Overload.sizeof msg))))) := by
  rw [conferenceMsgProcess_of_le h]
  exact congrArg Except.ok (if_pos ⟨ht, hr⟩)

theorem Processor.msgProcessWith_device (p : Processor) (response : ℕ → Bytes) (msg : Bytes)
    (hp : p ≠ .conferenceDistributor) :
    p.msgProcessWith response msg = deviceMsgProcess p.tag response msg ∧
      p.cutter = deviceCutter ∧ p.headSize = DeviceMngHead.sizeof := by
  cases p with
  | conferenceDistributor => exact absurd rfl hp
  | _ => exact ⟨rfl, rfl, rfl⟩

/-- A handler reads inside a message that holds both headers. -/
theorem Processor.msgProcessWith_ne_error (p : Processor)
    (h : Overload.sizeof + p.headSize ≤ msg.length) (f : Fault) :
    p.msgProcessWith response msg ≠ .error f := by
  by_cases hp : p = .conferenceDistributor
  · subst hp
    rw [msgProcessWith, conferenceMsgProcess_of_le h]
    simp
  · obtain ⟨heq, -, hhead⟩ := p.msgProcessWith_device response msg hp
    rw [hhead] at h
    rw [heq, deviceMsgProcess_of_le h]
    simp

end

end Vs17.Asio
