import Vs17.Amqp.Delivery
import Vs17.Library.Runs

/-! # `Channel`

The calls that a program makes, and the system they are made in: frames arrive at any time, and
a call ends when what it waits for is there.
-/

namespace Vs17.Amqp

open Calls Transducers ChannelImpl Reading Runs

def deliveredChannelClosed : Thrown :=
  .runtimeError "The channel that the message was delivered on has been closed"

/-- The calls that send one method, on any channel, and wait for one answer: `DeclareExchange`,
`DeleteExchange`, `BindExchange`, `UnbindExchange`, `DeclareQueue`, `DeleteQueue`, `BindQueue`,
`UnbindQueue`, `PurgeQueue`. -/
def request (id ok : UInt32) : Call Unit := do
  checkIsConnected
  let _ ← doRpc id [ok]

def basicAck (channel : UInt16) : Call Unit := do
  checkIsConnected
  if ← isChannelOpen channel then checkForError (← sendMethod channel basicAckMethod)
  else throwing deliveredChannelClosed

def basicReject (channel : UInt16) : Call Unit := do
  checkIsConnected
  if ← isChannelOpen channel then checkForError (← sendMethod channel basicNackMethod)
  else throwing deliveredChannelClosed

def basicPublish : Call Unit := do
  checkIsConnected
  let channel ← getChannel
  checkForError (← sendMethod channel basicPublishMethod)
  match ← getMethodOnChannel getNextFrameFromBrokerOnChannel [channel]
      [basicAckMethod, basicReturnMethod] false with
  | none => throw .crashed
  | some response =>
    match response.payload with
    | .method (.basicReturn m) =>
      let messageReturned ← createMessageReturnedException m channel
      let _ ← getMethodOnChannel getNextFrameFromBrokerOnChannel [channel] [basicAckMethod] false
      returnChannel channel
      throwing messageReturned
    | _ => returnChannel channel

/-- The answer is `basic.get-ok` or `basic.get-empty`. -/
def basicGet : Call (Option Envelope) := do
  checkIsConnected
  let channel ← getChannel
  let response ← doRpcOnChannel channel basicGetMethod [basicGetOkMethod, basicGetEmptyMethod]
  match response.payload with
  | .method (.basicGetOk m) =>
    let message ← readContent getNextFrameFromBrokerOnChannel channel
    returnChannel channel
    return some ⟨message, [], m.deliveryTag, m.exchange, m.redelivered, m.routingKey, channel⟩
  | _ =>
    returnChannel channel
    return none

def basicRecover (consumer : Bytes) : Call Unit := do
  checkIsConnected
  let channel ← getConsumerChannel consumer
  let _ ← doRpcOnChannel channel basicRecoverMethod [basicRecoverOkMethod]

def basicConsume : Call Bytes := do
  checkIsConnected
  let channel ← getChannel
  let _ ← doRpcOnChannel channel basicQosMethod [basicQosOkMethod]
  let response ← doRpcOnChannel channel basicConsumeMethod [basicConsumeOkMethod]
  match response.payload with
  | .method (.basicConsumeOk tag) =>
    addConsumer tag channel
    return tag
  | _ => throw .crashed

def basicQos (consumerTag : Bytes) : Call Unit := do
  checkIsConnected
  let channel ← getConsumerChannel consumerTag
  let _ ← doRpcOnChannel channel basicQosMethod [basicQosOkMethod]

def basicCancel (consumerTag : Bytes) : Call Unit := do
  checkIsConnected
  let channel ← getConsumerChannel consumerTag
  let _ ← doRpcOnChannel channel basicCancelMethod [basicCancelOkMethod]
  let _ ← removeConsumer consumerTag
  returnChannel channel

def basicConsumeMessage (consumerTags : List Bytes) (timed : Bool) : Call (Option Envelope) := do
  checkIsConnected
  let channels ← consumerTags.mapM getConsumerChannel
  consumeMessageOnChannel channels timed

/-- `BasicConsumeMessage` without consumer tags. -/
def basicConsumeMessageOnAll (timed : Bool) : Call (Option Envelope) := do
  checkIsConnected
  match ← getAllConsumerChannels with
  | [] => throwing .consumerTagNotFound
  | channels => consumeMessageOnChannel channels timed

inductive Api
  | request (id ok : UInt32)
  | basicAck (channel : UInt16)
  | basicReject (channel : UInt16)
  | basicPublish
  | basicGet
  | basicRecover (consumer : Bytes)
  | basicConsume
  | basicQos (consumerTag : Bytes)
  | basicCancel (consumerTag : Bytes)
  | basicConsumeMessage (consumerTags : List Bytes) (timed : Bool)
  | basicConsumeMessageOnAll (timed : Bool)

namespace Api

/-- The call, and the message that it gives its caller. -/
def call : Api → Call (Option Envelope)
  | .request id ok => do
    Amqp.request id ok
    return none
  | .basicAck channel => do
    Amqp.basicAck channel
    return none
  | .basicReject channel => do
    Amqp.basicReject channel
    return none
  | .basicPublish => do
    Amqp.basicPublish
    return none
  | .basicGet => Amqp.basicGet
  | .basicRecover consumer => do
    Amqp.basicRecover consumer
    return none
  | .basicConsume => do
    let _ ← Amqp.basicConsume
    return none
  | .basicQos consumerTag => do
    Amqp.basicQos consumerTag
    return none
  | .basicCancel consumerTag => do
    Amqp.basicCancel consumerTag
    return none
  | .basicConsumeMessage consumerTags timed => Amqp.basicConsumeMessage consumerTags timed
  | .basicConsumeMessageOnAll timed => Amqp.basicConsumeMessageOnAll timed

/-- What a call for a consumer waits for on its channel. -/
def awaits (c : UInt16) (s : ChannelImpl) : Api → List UInt32
  | .basicRecover consumer =>
    if s.consumerChannelMap[consumer]? = some c then [basicRecoverOkMethod] else []
  | .basicQos consumerTag =>
    if s.consumerChannelMap[consumerTag]? = some c then [basicQosOkMethod] else []
  | _ => []

/-- The call asks for the messages of this channel. -/
def AsksFor (c : UInt16) (s : ChannelImpl) : Api → Prop
  | .basicConsumeMessage consumerTags _ => ∃ tag ∈ consumerTags, s.consumerChannelMap[tag]? = some c
  | .basicConsumeMessageOnAll _ => c ∈ s.consumerChannelMap.values
  | _ => False

end Api

/-- A program with its connection, and the messages it has been given. -/
structure System where
  client : ChannelImpl
  handed : List Envelope

inductive Event
  | arrive (arrival : Arrival)
  | answer (statuses : List ℤ)
  | call (api : Api)

/-- What arrives is behind all that is still to be read. A call that is still waiting has not ended,
and after one that has crashed there is nothing to be said. -/
inductive System.Step : System → Event → System → Prop

  | arrive (w : System) (arrival : Arrival) :
      Step w (.arrive arrival) ⟨w.client.arrive arrival, w.handed⟩

  | answer (w : System) (statuses : List ℤ) :
      Step w (.answer statuses) ⟨{ w.client with sends := statuses }, w.handed⟩

  | returned (w : System) (api : Api) {res : Option Envelope} {t : ChannelImpl} :
      api.call w.client = .ok res t → Step w (.call api) ⟨t, w.handed ++ res.toList⟩

  | thrown (w : System) (api : Api) {e : Thrown} {t : ChannelImpl} :
      api.call w.client = .error (.thrown e) t → Step w (.call api) ⟨t, w.handed⟩

/-- What the channel of a consumer relies on. Its frames come in the order of its messages, and no
others except the answers that are waited for. Its consumer is not cancelled. No call that asks for
its messages is thrown out of one. -/
def Proper (c : UInt16) (w : System) : Event → Prop
  | .arrive arrival =>
    (run (next c) .idle
      (contentOn c (w.client.read ++ (w.client.arrive arrival).upcoming))).isSome
  | .answer _ => True
  | .call api =>
    (∀ f ∈ w.client.upcoming, f.channel = c →
      f.isContent = true ∨ isExpectedMethodOnChannel [c] (api.awaits c w.client) f = true) ∧
    (∀ tag, api = .basicCancel tag → w.client.consumerChannelMap[tag]? ≠ some c) ∧
    (api.AsksFor c w.client → ∀ e t, api.call w.client ≠ .error (.thrown e) t)

/-- The channel has been given to a consumer, and nothing has come for it. -/
structure Fresh (c : UInt16) (w : System) : Prop where
  nonzero : c ≠ 0
  state : w.client.channels[c.toNat]? = some .csUsed
  width : w.client.channels.length ≤ 65536
  read : contentOn c w.client.read = []
  upcoming : contentOn c w.client.upcoming = []
  queued : w.client.queued c = []
  delivered : w.client.delivered c = []
  handed : ∀ e ∈ w.handed, e.deliveryChannel ≠ c

end Vs17.Amqp
