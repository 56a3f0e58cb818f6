import Mathlib
import Vs17.Library.Words

/-! # The connection behind a `Channel`

One connection carries the frames of many channels. `ChannelImpl` reads them one by one and keeps
those that nobody has asked for in `m_frame_queue`; a message that is complete there becomes an
envelope in `m_delivered_messages`.
-/

namespace Vs17.Amqp

/-- The fields of `channel.close` and of `connection.close`. -/
structure Close where
  replyCode : UInt16
  replyText : Bytes
  classId : UInt16
  methodId : UInt16
  deriving DecidableEq, Repr

structure Deliver where
  consumerTag : Bytes
  deliveryTag : UInt64
  redelivered : Bool
  exchange : Bytes
  routingKey : Bytes
  deriving DecidableEq, Repr

structure GetOk where
  deliveryTag : UInt64
  redelivered : Bool
  exchange : Bytes
  routingKey : Bytes
  deriving DecidableEq, Repr

structure Return where
  replyCode : UInt16
  replyText : Bytes
  exchange : Bytes
  routingKey : Bytes
  deriving DecidableEq, Repr

def connectionCloseMethod : UInt32 := 0x000A0032
def connectionCloseOkMethod : UInt32 := 0x000A0033
def channelOpenMethod : UInt32 := 0x0014000A
def channelOpenOkMethod : UInt32 := 0x0014000B
def channelCloseMethod : UInt32 := 0x00140028
def channelCloseOkMethod : UInt32 := 0x00140029
def basicQosMethod : UInt32 := 0x003C000A
def basicQosOkMethod : UInt32 := 0x003C000B
def basicConsumeMethod : UInt32 := 0x003C0014
def basicConsumeOkMethod : UInt32 := 0x003C0015
def basicCancelMethod : UInt32 := 0x003C001E
def basicCancelOkMethod : UInt32 := 0x003C001F
def basicPublishMethod : UInt32 := 0x003C0028
def basicReturnMethod : UInt32 := 0x003C0032
def basicDeliverMethod : UInt32 := 0x003C003C
def basicGetMethod : UInt32 := 0x003C0046
def basicGetOkMethod : UInt32 := 0x003C0047
def basicGetEmptyMethod : UInt32 := 0x003C0048
def basicAckMethod : UInt32 := 0x003C0050
def basicRecoverMethod : UInt32 := 0x003C006E
def basicRecoverOkMethod : UInt32 := 0x003C006F
def basicNackMethod : UInt32 := 0x003C0078
def confirmSelectMethod : UInt32 := 0x0055000A
def confirmSelectOkMethod : UInt32 := 0x0055000B

/-- The methods whose fields are looked at. -/
def decodedMethods : List UInt32 :=
  [connectionCloseMethod, channelCloseMethod, basicConsumeOkMethod, basicCancelMethod,
    basicReturnMethod, basicDeliverMethod, basicGetOkMethod]

inductive Method
  | connectionClose (m : Close)
  | channelClose (m : Close)
  | basicConsumeOk (consumerTag : Bytes)
  | basicCancel (consumerTag : Bytes)
  | basicReturn (m : Return)
  | basicDeliver (m : Deliver)
  | basicGetOk (m : GetOk)
  | other (id : UInt32) (h : id ∉ decodedMethods)
  deriving DecidableEq

def Method.id : Method → UInt32
  | .connectionClose _ => connectionCloseMethod
  | .channelClose _ => channelCloseMethod
  | .basicConsumeOk _ => basicConsumeOkMethod
  | .basicCancel _ => basicCancelMethod
  | .basicReturn _ => basicReturnMethod
  | .basicDeliver _ => basicDeliverMethod
  | .basicGetOk _ => basicGetOkMethod
  | .other id _ => id

inductive Payload
  | method (m : Method)
  | header (bodySize : ℕ) (properties : Bytes)
  | body (fragment : Bytes)
  | other (frameType : UInt8)
  deriving DecidableEq

structure Frame where
  channel : UInt16
  payload : Payload
  deriving DecidableEq

/-- A `BasicMessage`. -/
structure Message where
  body : Bytes
  properties : Bytes
  deriving DecidableEq, Repr

structure Envelope where
  message : Message
  consumerTag : Bytes
  deliveryTag : UInt64
  exchange : Bytes
  redelivered : Bool
  routingKey : Bytes
  deliveryChannel : UInt16
  deriving DecidableEq, Repr

inductive Thrown
  | library (status : ℤ)
  | channelClosed (m : Close)
  | connectionClosed (m : Close)
  | notConnected
  | consumerTagNotFound
  | consumerCancelled (consumerTag : Bytes)
  | messageReturned (message : Message) (m : Return)
  | runtimeError (what : String)
  | logicError (what : String)
  | outOfRange
  deriving DecidableEq, Repr

/-- How a call ends that does not return: it is still waiting for a frame, it has broken an
assertion or written where it must not, or it has thrown. -/
inductive Ending
  | blocked
  | crashed
  | thrown (e : Thrown)
  deriving DecidableEq, Repr

inductive ChannelState
  | csClosed
  | csOpen
  | csUsed
  deriving DecidableEq, Repr

/-- What the library has for `amqp_simple_wait_frame_noblock`: a frame, and whether the time of a
call is over when it next looks at the clock; or an error. -/
inductive Arrival
  | frame (f : Frame) (late : Bool)
  | failure (status : ℤ)
  deriving DecidableEq

/-- Besides the members of `ChannelImpl` there is the state of `m_connection`: what is still to
be read, what has been read, the methods that were sent, and what the next calls that send one
return (those after them work). -/
structure ChannelImpl where
  frameQueue : List Frame
  deliveredMessages : List Envelope
  consumerChannelMap : Std.TreeMap Bytes UInt16
  channels : List ChannelState
  lastUsedChannel : UInt16
  isConnected : Bool
  channelMax : UInt16
  coming : List Arrival
  read : List Frame
  late : Bool
  sent : List (UInt16 × UInt32)
  sends : List ℤ

namespace ChannelImpl

variable (s : ChannelImpl)

def enqueue (frame : Frame) : ChannelImpl := { s with frameQueue := s.frameQueue ++ [frame] }

/-- The first frame with the property is erased. -/
def dequeue (p : Frame → Bool) : ChannelImpl :=
  { s with frameQueue := s.frameQueue.eraseP p }

def addDelivered (envelope : Envelope) : ChannelImpl :=
  { s with deliveredMessages := s.deliveredMessages ++ [envelope] }

def eraseDelivered (p : Envelope → Bool) : ChannelImpl :=
  { s with deliveredMessages := s.deliveredMessages.eraseP p }

def setState (channel : UInt16) (st : ChannelState) : ChannelImpl :=
  { s with channels := s.channels.set channel.toNat st }

def arrive (arrival : Arrival) : ChannelImpl := { s with coming := s.coming ++ [arrival] }

/-- A frame is read, and this is still to come. -/
def receive (frame : Frame) (late : Bool) (coming : List Arrival) : ChannelImpl :=
  { s with coming := coming, read := s.read ++ [frame], late := late }

/-- A method is sent, and the library has answered. -/
def note (channel : UInt16) (id : UInt32) : ChannelImpl :=
  { s with sends := s.sends.tail, sent := s.sent ++ [(channel, id)] }

end ChannelImpl

abbrev Call := EStateM Ending ChannelImpl

variable {α : Type}

def throwing (e : Thrown) : Call α := throw (.thrown e)

def checkForError (ret : ℤ) : Call Unit :=
  if ret < 0 then throwing (.library ret) else pure ()

/-- `amqp_send_method`, and those that are named after the method they send -/
def sendMethod (channel : UInt16) (id : UInt32) : Call ℤ :=
  modifyGet fun s => (s.sends.headD 0, s.note channel id)

/-! ## The states of the channels -/

/-- `m_channels.at(channel)` -/
def channelAt (channel : UInt16) : Call ChannelState := do
  match (← get).channels[channel.toNat]? with
  | some st => return st
  | none => throwing .outOfRange

/-- `m_channels.at(channel) = st` -/
def setChannel (channel : UInt16) (st : ChannelState) : Call Unit := do
  let s ← get
  if channel.toNat < s.channels.length then set (s.setState channel st)
  else throwing .outOfRange

def getNextChannelId : Call UInt16 := do
  let s ← get
  match s.channels.idxOf? ChannelState.csClosed with
  | some i => return .ofNat i
  | none =>
    if (if s.channelMax = 0 then 65535 else s.channelMax.toNat) < s.channels.length then
      throwing (.runtimeError "Too many channels open")
    else
      set { s with channels := s.channels ++ [ChannelState.csClosed] }
      return .ofNat s.channels.length

def returnChannel (channel : UInt16) : Call Unit := do
  setChannel channel .csOpen
  modify fun s => { s with lastUsedChannel := channel }

def isChannelOpen (channel : UInt16) : Call Bool :=
  return (← channelAt channel) ≠ ChannelState.csClosed

def finishCloseChannel (channel : UInt16) : Call Unit := do
  setChannel channel .csClosed
  checkForError (← sendMethod channel channelCloseOkMethod)

def finishCloseConnection : Call Unit := do
  modify fun s => { s with isConnected := false }
  let _ ← sendMethod 0 connectionCloseOkMethod

def checkIsConnected : Call Unit := do
  if (← get).isConnected then return () else throwing .notConnected

/-! ## The consumers -/

/-- A tag that is in the map keeps its channel. -/
def addConsumer (consumerTag : Bytes) (channel : UInt16) : Call Unit :=
  modify fun s =>
    { s with consumerChannelMap := s.consumerChannelMap.insertIfNew consumerTag channel }

def getConsumerChannel (consumerTag : Bytes) : Call UInt16 := do
  match (← get).consumerChannelMap[consumerTag]? with
  | some channel => return channel
  | none => throwing .consumerTagNotFound

def removeConsumer (consumerTag : Bytes) : Call UInt16 := do
  let channel ← getConsumerChannel consumerTag
  modify fun s => { s with consumerChannelMap := s.consumerChannelMap.erase consumerTag }
  return channel

def getAllConsumerChannels : Call (List UInt16) :=
  return (← get).consumerChannelMap.values

/-! ## Frames -/

def isOnChannel (channel : UInt16) (frame : Frame) : Bool := frame.channel = channel

def isMethodOnChannel (id : UInt32) (channel : UInt16) (frame : Frame) : Bool :=
  match frame.payload with
  | .method m => frame.channel = channel && m.id = id
  | _ => false

def isExpectedMethodOnChannel (channels : List UInt16) (expectedResponses : List UInt32)
    (frame : Frame) : Bool :=
  match frame.payload with
  | .method m => frame.channel ∈ channels && m.id ∈ expectedResponses
  | _ => false

/-- The loop over the fragments in `CheckForQueuedMessageOnChannel`. -/
def bodyIsQueued (channel : UInt16) (bodyLength : ℕ) : ℕ → List Frame → Except Thrown Bool
  | bodyReceived, [] => .ok (bodyLength ≤ bodyReceived)
  | bodyReceived, frame :: frames =>
    if bodyLength ≤ bodyReceived then .ok true
    else if isOnChannel channel frame then
      match frame.payload with
      | .body fragment =>
        bodyIsQueued channel bodyLength (bodyReceived + fragment.length) frames
      | _ => .error (.runtimeError "Protocol error")
    else bodyIsQueued channel bodyLength bodyReceived frames

def checkForQueuedMessageOnChannel (channel : UInt16) (frameQueue : List Frame) :
    Except Thrown Bool :=
  match frameQueue.dropWhile fun frame =>
      !isMethodOnChannel basicDeliverMethod channel frame with
  | [] => .ok false
  | _ :: frames =>
    match frames.dropWhile fun frame => !isOnChannel channel frame with
    | [] => .ok false
    | frame :: frames =>
      match frame.payload with
      | .header bodyLength _ => bodyIsQueued channel bodyLength 0 frames
      | _ => .error (.runtimeError "Protocol error")

/-- With a timeout the call comes back without a frame when there is none in time. -/
def getNextFrameFromBroker (timed : Bool) : Call (Option Frame) := do
  let s ← get
  match s.coming with
  | [] => if timed then return none else throw .blocked
  | .frame frame late :: coming =>
    set (s.receive frame late coming)
    return some frame
  | .failure status :: coming =>
    set { s with coming := coming }
    throwing (.library status)

/-- Is the time of the call over? -/
def timeIsOver (timed : Bool) : Call Bool := return timed && (← get).late

section Reading

/-! The functions below call `GetNextFrameFromBrokerOnChannel` for what is not in the queue, and it
calls them for a message that is complete there. -/

variable (fromBroker : List UInt16 → Bool → Call (Option Frame))

def getNextFrameOnChannel (channel : UInt16) (timed : Bool) : Call (Option Frame) := do
  let s ← get
  match s.frameQueue.find? (isOnChannel channel) with
  | some frame =>
    set (s.dequeue (isOnChannel channel))
    match frame.payload with
    | .method (.channelClose m) =>
      finishCloseChannel channel
      throwing (.channelClosed m)
    | _ => return some frame
  | none => fromBroker [channel] timed

/-- The loop of `GetMethodOnChannel`. -/
def awaitMethod (channels : List UInt16) (expectedResponses : List UInt32) (timed : Bool) :
    ℕ → Call (Option Frame)
  | 0 => throw .blocked
  | fuel + 1 => do
    match ← fromBroker channels timed with
    | none => return none
    | some frame =>
      if isExpectedMethodOnChannel channels expectedResponses frame then return some frame
      else
        match frame.payload with
        | .method (.channelClose m) =>
          finishCloseChannel frame.channel
          throwing (.channelClosed m)
        | _ =>
          modify fun s => s.enqueue frame
          if ← timeIsOver timed then return none
          else awaitMethod channels expectedResponses timed fuel

def getMethodOnChannel (channels : List UInt16) (expectedResponses : List UInt32)
    (timed : Bool) : Call (Option Frame) := do
  let s ← get
  match s.frameQueue.find? (isExpectedMethodOnChannel channels expectedResponses) with
  | some frame =>
    set (s.dequeue (isExpectedMethodOnChannel channels expectedResponses))
    return some frame
  | none => awaitMethod fromBroker channels expectedResponses timed (s.coming.length + 1)

/-- The loop of `ReadContent`. The body has been allocated with its whole length. -/
def readBody (channel : UInt16) (bodySize : ℕ) : ℕ → Bytes → Call Bytes
  | 0, _ => throw .blocked
  | fuel + 1, received => do
    if received.length < bodySize then
      match ← getNextFrameOnChannel fromBroker channel false with
      | none => throw .crashed
      | some frame =>
        match frame.payload with
        | .body fragment =>
          if received.length + fragment.length ≤ bodySize then
            readBody channel bodySize fuel (received ++ fragment)
          else throw .crashed
        | _ =>
          throwing (.runtimeError ("Channel::BasicConsumeMessage: received unexpected frame " ++
            "type (was expecting AMQP_FRAME_BODY)"))
    else return received

def readContent (channel : UInt16) : Call Message := do
  match ← getNextFrameOnChannel fromBroker channel false with
  | none => throw .crashed
  | some frame =>
    match frame.payload with
    | .header bodySize properties =>
      let s ← get
      if bodySize < 2 ^ 64 - 1 then
        let body ← readBody fromBroker channel bodySize
          (s.frameQueue.length + s.coming.length + 1) []
        return ⟨body, properties⟩
      else throw .crashed
    | _ =>
      throwing (.runtimeError ("Channel::BasicConsumeMessage: received unexpected frame " ++
        "type (was expected AMQP_FRAME_HEADER)"))

def consumeMessageOnChannelInner (channels : List UInt16) (timed : Bool) :
    Call (Option Envelope) := do
  match ← getMethodOnChannel fromBroker channels [basicDeliverMethod, basicCancelMethod] timed with
  | none => return none
  | some frame =>
    match frame.payload with
    | .method (.basicCancel consumerTag) =>
      let _ ← removeConsumer consumerTag
      returnChannel frame.channel
      throwing (.consumerCancelled consumerTag)
    | .method (.basicDeliver m) =>
      let content ← readContent fromBroker frame.channel
      return some ⟨content, m.consumerTag, m.deliveryTag, m.exchange, m.redelivered,
        m.routingKey, frame.channel⟩
    | _ => throw .crashed

def addToFrameQueue (frame : Frame) : Call Unit := do
  modify fun s => s.enqueue frame
  match checkForQueuedMessageOnChannel frame.channel (← get).frameQueue with
  | .error e => throwing e
  | .ok false => return ()
  | .ok true =>
    match ← consumeMessageOnChannelInner fromBroker [frame.channel] false with
    | none =>
      throwing (.logicError "ConsumeMessageOnChannelInner returned false unexpectedly")
    | some envelope =>
      modify fun s => s.addDelivered envelope

end Reading

/-- Every round of the loop reads a frame. -/
def nextFrameFromBrokerOnChannel : ℕ → List UInt16 → Bool → Call (Option Frame)
  | 0, _, _ => throw .blocked
  | fuel + 1, channels, timed => do
    match ← getNextFrameFromBroker timed with
    | none => return none
    | some frame =>
      if frame.channel ∈ channels then return some frame
      else
        if frame.channel = 0 then
          match frame.payload with
          | .method (.connectionClose m) =>
            finishCloseConnection
            throwing (.connectionClosed m)
          | _ => pure ()
        else addToFrameQueue (nextFrameFromBrokerOnChannel fuel) frame
        if ← timeIsOver timed then return none
        else nextFrameFromBrokerOnChannel fuel channels timed

def getNextFrameFromBrokerOnChannel (channels : List UInt16) (timed : Bool) :
    Call (Option Frame) := do
  nextFrameFromBrokerOnChannel ((← get).coming.length + 1) channels timed

def consumeMessageOnChannel (channels : List UInt16) (timed : Bool) : Call (Option Envelope) := do
  let s ← get
  let onChannel (envelope : Envelope) : Bool := envelope.deliveryChannel ∈ channels
  match s.deliveredMessages.find? onChannel with
  | some envelope =>
    set (s.eraseDelivered onChannel)
    return some envelope
  | none => consumeMessageOnChannelInner getNextFrameFromBrokerOnChannel channels timed

def doRpcOnChannel (channel : UInt16) (id : UInt32) (expectedResponses : List UInt32) :
    Call Frame := do
  checkForError (← sendMethod channel id)
  match ← getMethodOnChannel getNextFrameFromBrokerOnChannel [channel] expectedResponses false with
  | some frame => return frame
  | none => throw .crashed

def createNewChannel : Call UInt16 := do
  let newChannel ← getNextChannelId
  let _ ← doRpcOnChannel newChannel channelOpenMethod [channelOpenOkMethod]
  let _ ← doRpcOnChannel newChannel confirmSelectMethod [confirmSelectOkMethod]
  setChannel newChannel .csOpen
  return newChannel

def getChannel : Call UInt16 := do
  let s ← get
  if (← channelAt s.lastUsedChannel) = .csOpen then
    setChannel s.lastUsedChannel .csUsed
    return s.lastUsedChannel
  else
    match s.channels.idxOf? ChannelState.csOpen with
    | some i =>
      setChannel (.ofNat i) .csUsed
      return .ofNat i
    | none =>
      let newChannel ← createNewChannel
      setChannel newChannel .csUsed
      return newChannel

def doRpc (id : UInt32) (expectedResponses : List UInt32) : Call Frame := do
  let channel ← getChannel
  let frame ← doRpcOnChannel channel id expectedResponses
  returnChannel channel
  return frame

def createMessageReturnedException (m : Return) (channel : UInt16) : Call Thrown := do
  let content ← readContent getNextFrameFromBrokerOnChannel channel
  return .messageReturned content m

/-- `ChannelImpl::ChannelImpl`, on a connection that has been opened. -/
def ChannelImpl.create (channelMax : UInt16) : ChannelImpl where
  frameQueue := []
  deliveredMessages := []
  consumerChannelMap := ∅
  channels := [.csUsed]
  lastUsedChannel := 0
  isConnected := true
  channelMax := channelMax
  coming := []
  read := []
  late := false
  sent := []
  sends := []

end Vs17.Amqp
