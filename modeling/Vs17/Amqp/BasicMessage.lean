import Vs17.Amqp.Table
import Vs17.Library.Text

/-! # `BasicMessage`

A message owns its body and those of its properties that are set: strings that come from `malloc`
and a table of headers in a pool. It frees what it is given something else for, and everything when
it is destroyed.
-/

namespace Vs17.Amqp.Tables

open Calls AmqpMemory

/-- The properties that are strings. -/
inductive StringProperty
  | contentType
  | contentEncoding
  | correlationId
  | replyTo
  | expiration
  | messageId
  | type
  | userId
  | appId
  | clusterId
  deriving DecidableEq, Repr

namespace StringProperty

/-- In the order in which they are copied and freed. -/
def all : List StringProperty :=
  [contentType, contentEncoding, correlationId, replyTo, expiration, messageId, type, userId, appId,
    clusterId]

theorem mem_all (p : StringProperty) : p ∈ all := by cases p <;> decide

theorem nodup_all : all.Nodup := by decide

end StringProperty

/-- The properties that are numbers. -/
inductive NumberProperty
  | deliveryMode
  | priority
  | timestamp
  deriving DecidableEq, Repr

namespace NumberProperty

abbrev Value : NumberProperty → Type
  | deliveryMode => UInt8
  | priority => UInt8
  | timestamp => UInt64

def zero : (n : NumberProperty) → n.Value
  | deliveryMode => (0 : UInt8)
  | priority => (0 : UInt8)
  | timestamp => (0 : UInt64)

end NumberProperty

inductive Property
  | string (p : StringProperty)
  | number (n : NumberProperty)
  | headers
  deriving DecidableEq, Repr

/-- The bit of a property in `_flags`: `AMQP_BASIC_CONTENT_TYPE_FLAG` is `1 << 15`. -/
def Property.bit : Property → ℕ
  | .string .contentType => 15
  | .string .contentEncoding => 14
  | .headers => 13
  | .number .deliveryMode => 12
  | .number .priority => 11
  | .string .correlationId => 10
  | .string .replyTo => 9
  | .string .expiration => 8
  | .string .messageId => 7
  | .number .timestamp => 6
  | .string .type => 5
  | .string .userId => 4
  | .string .appId => 3
  | .string .clusterId => 2

def Property.flag (p : Property) : BitVec 32 := BitVec.twoPow 32 p.bit

structure AmqpBasicProperties where
  flags : BitVec 32
  strings : StringProperty → AmqpBytes
  numbers : (n : NumberProperty) → n.Value
  headers : AmqpTable

structure BasicMessageImpl where
  properties : AmqpBasicProperties
  body : AmqpBytes
  tablePool : Option ℕ

namespace BasicMessageImpl

variable (i : BasicMessageImpl)

def isSet (p : Property) : Bool := p.flag == i.properties.flags &&& p.flag

def setFlag (p : Property) : BasicMessageImpl :=
  { i with properties.flags := i.properties.flags ||| p.flag }

def clearFlag (p : Property) : BasicMessageImpl :=
  { i with properties.flags := i.properties.flags &&& ~~~p.flag }

def putString (p : StringProperty) (b : AmqpBytes) : BasicMessageImpl :=
  { i with properties.strings := Function.update i.properties.strings p b }

def putNumber (n : NumberProperty) (v : n.Value) : BasicMessageImpl :=
  { i with properties.numbers := Function.update i.properties.numbers n v }

def putHeaders (t : AmqpTable) : BasicMessageImpl := { i with properties.headers := t }

def putBody (b : AmqpBytes) : BasicMessageImpl := { i with body := b }

def putPool (pool : Option ℕ) : BasicMessageImpl := { i with tablePool := pool }

end BasicMessageImpl

/-- A call on a message. -/
abbrev MessageExec := EStateM Fault (Memory × BasicMessageImpl)

def impl : MessageExec BasicMessageImpl := Prod.snd <$> get

def update (f : BasicMessageImpl → BasicMessageImpl) : MessageExec Unit :=
  modify fun s => (s.1, f s.2)

/-- A call that is given a pointer to `m_table_pool`. -/
def inTablePool {α : Type} (x : PoolExec α) : MessageExec α :=
  zoom (fun s => (s.1, s.2.tablePool)) (fun t s => (t.1, s.2.putPool t.2)) x

variable [AmqpMemory]

/-! ### The body -/

def body : MessageExec Bytes := do
  let i ← impl
  if i.body.bytes = none then pure [] else inMemory (loadBytes i.body)

def setBody (body : Bytes) : MessageExec Unit := do
  let i ← impl
  if i.body.bytes ≠ none then inMemory (amqpBytesFree i.body)
  let bytes ← inMemory (amqpBytesMallocDup body)
  update (·.putBody bytes)

/-! ### The properties that are strings

`ContentType` to `ClusterId` differ only in the property. -/

def string (p : StringProperty) : MessageExec Bytes := do
  let i ← impl
  if i.isSet (.string p) then inMemory (loadBytes (i.properties.strings p)) else pure []

def freeString (p : StringProperty) : MessageExec Unit := do
  let i ← impl
  if i.isSet (.string p) then inMemory (amqpBytesFree (i.properties.strings p)) else pure ()

/-- The string is taken up to its first zero byte. -/
def setString (p : StringProperty) (s : Bytes) : MessageExec Unit := do
  freeString p
  let bytes ← inMemory (amqpBytesMallocDup (Text.cstr s))
  update fun i => (i.putString p bytes).setFlag (.string p)

def clearString (p : StringProperty) : MessageExec Unit := do
  freeString p
  update (·.clearFlag (.string p))

/-! ### The properties that are numbers

`DeliveryMode`, `Priority` and `Timestamp`, too. -/

def number (n : NumberProperty) : MessageExec n.Value := do
  let i ← impl
  pure (if i.isSet (.number n) then i.properties.numbers n else n.zero)

def setNumber (n : NumberProperty) (v : n.Value) : MessageExec Unit :=
  update fun i => (i.putNumber n v).setFlag (.number n)

def clearNumber (n : NumberProperty) : MessageExec Unit := update (·.clearFlag (.number n))

/-! ### The headers -/

def headerTable (depth : ℕ) : MessageExec Table := do
  let i ← impl
  if i.isSet .headers then inMemory (createTable depth i.properties.headers) else pure []

def setHeaderTable (headerTable : Table) : MessageExec Unit := do
  let headers ← inTablePool (createAmqpTable headerTable)
  update fun i => (i.putHeaders headers).setFlag .headers

/-- `m_table_pool.reset()` -/
def resetPool : PoolExec Unit := do
  let (_, pool) ← get
  inMemory (freePool pool)
  modify fun s => (s.1, none)

def headerTableClear : MessageExec Unit := do
  let i ← impl
  if i.isSet .headers then
    inTablePool resetPool
    update (·.putHeaders amqpEmptyTable)
  update (·.clearFlag .headers)

/-! ### Constructors and the destructor -/

def emptyImpl : BasicMessageImpl where
  properties := ⟨0, fun _ => ⟨0, none⟩, NumberProperty.zero, amqpEmptyTable⟩
  body := ⟨0, none⟩
  tablePool := none

def constructWithBody (body : Bytes) : MessageExec Unit := do
  setBody body
  update fun i => { i with properties.flags := 0 }

def dupString (p : StringProperty) : MessageExec Unit := do
  let i ← impl
  if i.isSet (.string p) then
    let bytes ← inMemory (do amqpBytesMallocDup (← loadBytes (i.properties.strings p)))
    update (·.putString p bytes)

/-- The message takes the body, and it makes its own copy of what the properties point to. -/
def constructFrom (depth : ℕ) (body : AmqpBytes) (properties : AmqpBasicProperties) :
    MessageExec Unit := do
  update fun i => { i with body := body, properties := properties }
  StringProperty.all.forM dupString
  let i ← impl
  if i.isSet .headers then
    let headers ← inTablePool (copyTable depth i.properties.headers)
    update (·.putHeaders headers)

/-- When a constructor throws, `m_impl` is deleted, but nobody frees what it has pointed to. -/
def construct (x : MessageExec Unit) : Exec BasicMessageImpl := fun m =>
  match x (m, emptyImpl) with
  | .ok _ (k, i) => .ok i k
  | .error .crash (k, _) => .error .crash k
  | .error .badAlloc (k, i) =>
    match freePool i.tablePool k with
    | .ok _ k => .error .badAlloc k
    | .error e k => .error e k

/-- What `ReadContent` does with a content of which all frames have come: the body is in memory of
`malloc`, and the message is made from it. When it reads another frame before, it throws, and nobody
frees the body. -/
def createMessage (depth : ℕ) (content : Bytes) (properties : AmqpBasicProperties) :
    Exec BasicMessageImpl := do
  let body ← amqpBytesMallocDup content
  construct (constructFrom depth body properties)

def destroy : MessageExec Unit := do
  let i ← impl
  inMemory (amqpBytesFree i.body)
  StringProperty.all.forM freeString
  inTablePool resetPool

end Vs17.Amqp.Tables
