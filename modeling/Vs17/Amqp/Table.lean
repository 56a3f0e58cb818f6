import Mathlib.Data.List.Lex
import Vs17.Library.Calls
import Vs17.Library.Dictionaries
import Vs17.Library.Heaps
import Vs17.Library.Words

/-! # The tables of a message

The client library has values that own what they hold, and the library under it has values that
point to memory of a pool. `TableImpl` makes the second kind from the first, the first from the
second, and copies the second from one pool to another.
-/

namespace Vs17.Amqp.Tables

open Calls

/-- Strings are compared byte by byte. -/
scoped instance byteOrder : LinearOrder UInt8 :=
  LinearOrder.lift' UInt8.toNat fun _ _ h => UInt8.toNat.inj h

/-- The alternatives of `value_t` that hold no other value. A `float` and a `double` are the bits
that they consist of. -/
inductive Scalar
  | void
  | bool (value : Bool)
  | int8 (value : Int8)
  | int16 (value : Int16)
  | int32 (value : Int32)
  | int64 (value : Int64)
  | float (bits : UInt32)
  | double (bits : UInt64)
  | uint8 (value : UInt8)
  | uint16 (value : UInt16)
  | uint32 (value : UInt32)
  | uint64 (value : UInt64)
  deriving DecidableEq

/-- A `Table` is a `std::map`: the list of its entries. -/
inductive TableValue
  | scalar (value : Scalar)
  | string (value : Bytes)
  | array (value : List TableValue)
  | table (value : List (Bytes × TableValue))

abbrev Table := List (Bytes × TableValue)

abbrev Ptr := Option ℕ

structure AmqpBytes where
  len : ℕ
  bytes : Ptr
  deriving DecidableEq, Repr

structure AmqpArray where
  numEntries : ℕ
  entries : Ptr
  deriving DecidableEq, Repr

structure AmqpTable where
  numEntries : ℕ
  entries : Ptr
  deriving DecidableEq, Repr

/-- The kinds of a field value whose part of the union does not point to anything, and those that
have no name. -/
inductive Plain
  | void
  | boolean (value : Bool)
  | i8 (value : Int8)
  | u8 (value : UInt8)
  | i16 (value : Int16)
  | u16 (value : UInt16)
  | i32 (value : Int32)
  | u32 (value : UInt32)
  | i64 (value : Int64)
  | u64 (value : UInt64)
  | f32 (bits : UInt32)
  | f64 (bits : UInt64)
  | decimal (decimals : UInt8) (value : UInt32)
  | timestamp (value : UInt64)
  | other (kind : UInt8) (bits : UInt64)
  deriving DecidableEq, Repr

inductive AmqpFieldValue
  | plain (value : Plain)
  | utf8 (bytes : AmqpBytes)
  | bytes (bytes : AmqpBytes)
  | array (array : AmqpArray)
  | table (table : AmqpTable)
  deriving DecidableEq, Repr

structure AmqpTableEntry where
  key : AmqpBytes
  value : AmqpFieldValue
  deriving DecidableEq, Repr

/-- What is in a block of memory. A pool is a block, too: the one with its `amqp_pool_t`. -/
inductive Block
  | bytes (s : Bytes)
  | values (vs : List AmqpFieldValue)
  | entries (es : List AmqpTableEntry)
  | pool
  deriving DecidableEq, Repr

def Block.addValue (v : AmqpFieldValue) : Block → Block
  | .values vs => .values (vs ++ [v])
  | b => b

def Block.addEntry (e : AmqpTableEntry) : Block → Block
  | .entries es => .entries (es ++ [e])
  | b => b

@[simp]
theorem Block.addValue_values {v : AmqpFieldValue} {vs : List AmqpFieldValue} :
    Block.addValue v (.values vs) = .values (vs ++ [v]) := rfl

@[simp]
theorem Block.addEntry_entries {e : AmqpTableEntry} {es : List AmqpTableEntry} :
    Block.addEntry e (.entries es) = .entries (es ++ [e]) := rfl

/-- Memory comes from `malloc` and from pools: those that the client makes, which are known by
their address, and those that the library has for the channels of a connection. -/
inductive Owner
  | malloc
  | pool (p : ℕ)
  | channel (c : UInt16)
  deriving DecidableEq, Repr

abbrev Memory := Heap Owner Block

/-- How a call ends that does not return: with `std::bad_alloc`, or by an access to memory that is
not there. -/
inductive Fault
  | badAlloc
  | crash
  deriving DecidableEq, Repr

abbrev Exec := EStateM Fault Memory

/-! ### Memory -/

def alloc (o : Owner) (b : Block) : Exec ℕ :=
  modifyGet fun m => (m.top, m.alloc o b)

def free (a : ℕ) : Exec Unit := do
  match (← get).block? a with
  | some (.malloc, _) => modify (Heap.release · a)
  | _ => throw .crash

def load (p : Ptr) : Exec Block := do
  match p.bind (← get).block? with
  | some (_, b) => pure b
  | none => throw .crash

def modifyBlock (f : Block → Block) : Ptr → Exec Unit
  | none => throw .crash
  | some a => do
    match (← get).block? a with
    | some _ => modify (Heap.modify · a f)
    | none => throw .crash

def memcpy (dst : Ptr) (data : Bytes) : Exec Unit :=
  if data = [] then pure () else modifyBlock (fun _ => .bytes data) dst

/-- What is in memory is made into a `std::string`. -/
def loadBytes (b : AmqpBytes) : Exec Bytes :=
  if b.len = 0 then pure [] else do
    match ← load b.bytes with
    | .bytes s => if b.len ≤ s.length then pure (s.take b.len) else throw .crash
    | _ => throw .crash

def loadValue (p : Ptr) (i : ℕ) : Exec AmqpFieldValue := do
  match ← load p with
  | .values vs => match vs[i]? with
    | some v => pure v
    | none => throw .crash
  | _ => throw .crash

def loadEntry (p : Ptr) (i : ℕ) : Exec AmqpTableEntry := do
  match ← load p with
  | .entries es => match es[i]? with
    | some e => pure e
    | none => throw .crash
  | _ => throw .crash

/-- The next element of an array is written. -/
def writeValue (p : Ptr) (v : AmqpFieldValue) : Exec Unit :=
  modifyBlock (Block.addValue v) p

def writeEntry (p : Ptr) (e : AmqpTableEntry) : Exec Unit :=
  modifyBlock (Block.addEntry e) p

def sizeofFieldValue : ℕ := 24

def sizeofTableEntry : ℕ := 40

def amqpEmptyTable : AmqpTable := ⟨0, none⟩

/-! ### Memory of the library

Memory is given out and freed by functions of rabbitmq-c, of which only the header is here. -/

class AmqpMemory where
  amqpPoolAlloc (pool amount : ℕ) (b : Block) : Exec Ptr
  amqpPoolAllocBytes (pool amount : ℕ) : Exec AmqpBytes
  emptyAmqpPool (pool : ℕ) : Exec Unit
  amqpBytesMallocDup (src : Bytes) : Exec AmqpBytes
  amqpBytesFree (bytes : AmqpBytes) : Exec Unit

namespace AmqpMemory

/-- What `amqp.h` says of the functions, as long as there is memory. A pool has no block for a
request of 0 bytes. What is freed is a block of `malloc`, or a null pointer as for `free`. -/
class Documented [AmqpMemory] : Prop where
  pool_alloc_zero (pool : ℕ) (b : Block) : amqpPoolAlloc pool 0 b = pure none
  pool_alloc (pool : ℕ) {amount : ℕ} (b : Block) (h : amount ≠ 0) :
    amqpPoolAlloc pool amount b = some <$> alloc (.pool pool) b
  pool_alloc_bytes (pool amount : ℕ) : amqpPoolAllocBytes pool amount = do
    let bytes ← amqpPoolAlloc pool amount (.bytes [])
    pure ⟨amount, bytes⟩
  empty_pool (pool : ℕ) : emptyAmqpPool pool = modify (Heap.releaseOwned · (.pool pool))
  bytes_malloc_dup (src : Bytes) : amqpBytesMallocDup src = do
    let a ← alloc .malloc (.bytes src)
    pure ⟨src.length, some a⟩
  bytes_free {m : Memory} {a : ℕ} {b : Block} (len : ℕ) (h : m.block? a = some (.malloc, b))
    (hb : b ≠ .pool) : amqpBytesFree ⟨len, some a⟩ m = .ok () (m.release a)
  bytes_free_null (len : ℕ) : amqpBytesFree ⟨len, none⟩ = pure ()

/-- Functions that do so. -/
@[reducible]
def plain : AmqpMemory where
  amqpPoolAlloc pool amount b := if amount = 0 then pure none else some <$> alloc (.pool pool) b
  amqpPoolAllocBytes pool amount :=
    if amount = 0 then pure ⟨0, none⟩ else (⟨amount, some ·⟩) <$> alloc (.pool pool) (.bytes [])
  emptyAmqpPool pool := modify (Heap.releaseOwned · (.pool pool))
  amqpBytesMallocDup src := (⟨src.length, some ·⟩) <$> alloc .malloc (.bytes src)
  amqpBytesFree bytes := bytes.bytes.elim (pure ()) free

theorem documented_plain : @Documented plain := by
  let _ := plain
  refine ⟨fun _ _ => rfl, fun _ _ _ h => if_neg h, fun pool amount => ?_, fun _ => rfl,
    fun _ => rfl, ?_, fun _ => rfl⟩
  · rcases eq_or_ne amount 0 with rfl | h
    · rfl
    · have hbytes : amqpPoolAllocBytes pool amount =
          (⟨amount, some ·⟩) <$> alloc (.pool pool) (.bytes []) := if_neg h
      have hblock : amqpPoolAlloc pool amount (.bytes []) =
          some <$> alloc (.pool pool) (.bytes []) := if_neg h
      rw [hbytes, hblock]
      rfl
  · intro m a b len h _
    change free a m = _
    apply Ends.eq_ok
    unfold free
    rw [ends_bind, ends_get, h]
    exact ⟨rfl, rfl⟩

end AmqpMemory

open AmqpMemory

variable [AmqpMemory]

/-! ### `generate_field_value` and `CreateAmqpTable` -/

def generateScalar : Scalar → Plain
  | .void => .void
  | .bool value => .boolean value
  | .uint8 value => .u8 value
  | .int8 value => .i8 value
  | .uint16 value => .u16 value
  | .int16 value => .i16 value
  | .uint32 value => .u32 value
  | .int32 value => .i32 value
  | .uint64 value => .u64 value
  | .int64 value => .i64 value
  | .float bits => .f32 bits
  | .double bits => .f64 bits

/-- A string is copied to memory of a pool. -/
def createBytes (pool size : ℕ) (data : Exec Bytes) : Exec AmqpBytes := do
  let bytes ← amqpPoolAllocBytes pool size
  memcpy bytes.bytes (← data)
  pure bytes

/-- The key of an entry is copied to memory of a pool, if there is some. -/
def createKey (pool size : ℕ) (data : Exec Bytes) : Exec AmqpBytes := do
  let key ← amqpPoolAllocBytes pool size
  if key.bytes = none then throw .badAlloc
  memcpy key.bytes (← data)
  pure key

/-- The entries of a table are allocated, and then filled one by one. -/
def createAmqpTableWith (pool size : ℕ) (fill : Ptr → Exec Unit) : Exec AmqpTable := do
  let entries ← amqpPoolAlloc pool (sizeofTableEntry * size) (.entries [])
  if entries = none then throw .badAlloc
  fill entries
  pure ⟨size, entries⟩

mutual

def generateFieldValue (pool : ℕ) : TableValue → Exec AmqpFieldValue
  | .scalar value => pure (.plain (generateScalar value))
  | .string value => .utf8 <$> createBytes pool value.length (pure value)
  | .array value => do
    let entries ← amqpPoolAlloc pool (sizeofFieldValue * value.length) (.values [])
    if entries = none then throw .badAlloc
    generateValues pool entries value
    pure (.array ⟨value.length, entries⟩)
  | .table value => .table <$>
    createAmqpTableWith pool value.length fun entries => generateEntries pool entries value

def generateValues (pool : ℕ) (entries : Ptr) : List TableValue → Exec Unit
  | [] => pure ()
  | value :: values => do
    writeValue entries (← generateFieldValue pool value)
    generateValues pool entries values

def generateEntries (pool : ℕ) (entries : Ptr) : List (Bytes × TableValue) → Exec Unit
  | [] => pure ()
  | (key, value) :: rest => do
    let key ← createKey pool key.length (pure key)
    writeEntry entries ⟨key, ← generateFieldValue pool value⟩
    generateEntries pool entries rest

end

def createAmqpTableInner (pool : ℕ) (table : Table) : Exec AmqpTable :=
  createAmqpTableWith pool table.length fun entries => generateEntries pool entries table

/-- A call that is given a pointer to a pool changes the pointer, too. -/
abbrev PoolExec := EStateM Fault (Memory × Option ℕ)

def inMemory {α τ : Type} (x : Exec α) : EStateM Fault (Memory × τ) α :=
  zoom Prod.fst (fun m s => (m, s.2)) x

/-- The last pointer to a pool is gone. -/
def freePool : Option ℕ → Exec Unit
  | none => pure ()
  | some p => do
    emptyAmqpPool p
    free p

/-- The pointer gets a new pool. It was the only one to the pool that it had. -/
def newPool : PoolExec ℕ := do
  let pool ← inMemory (alloc .malloc .pool)
  inMemory (freePool (← get).2)
  modify fun s => (s.1, some pool)
  pure pool

def createAmqpTable (table : Table) : PoolExec AmqpTable :=
  if table.length = 0 then pure amqpEmptyTable else do
    let pool ← newPool
    inMemory (createAmqpTableInner pool table)

/-! ### `CreateTable`

The first argument is the depth of the stack. -/

def createScalar : Plain → Scalar
  | .void => .void
  | .boolean value => .bool value
  | .u8 value => .uint8 value
  | .i8 value => .int8 value
  | .u16 value => .uint16 value
  | .i16 value => .int16 value
  | .u32 value => .uint32 value
  | .i32 value => .int32 value
  | .u64 value => .uint64 value
  | .timestamp value => .uint64 value
  | .i64 value => .int64 value
  | .f32 bits => .float bits
  | .f64 bits => .double bits
  | .decimal _ _ => .void
  | .other _ _ => .void

mutual

def createTableValue : ℕ → AmqpFieldValue → Exec TableValue
  | 0, _ => throw .crash
  | _ + 1, .plain value => pure (.scalar (createScalar value))
  | _ + 1, .utf8 bytes => .string <$> loadBytes bytes
  | _ + 1, .bytes bytes => .string <$> loadBytes bytes
  | n + 1, .array array => do
    let newArray ← upTo (fun i newArray => do
      let value ← createTableValue n (← loadValue array.entries i)
      pure (newArray ++ [value])) [] array.numEntries
    pure (.array newArray)
  | n + 1, .table table => .table <$> createTable n table

def createTable : ℕ → AmqpTable → Exec Table
  | 0, _ => throw .crash
  | n + 1, table => upTo (fun i newTable => do
      let entry ← loadEntry table.entries i
      let key ← loadBytes entry.key
      let value ← createTableValue n entry.value
      pure (Dictionaries.insertNew newTable (key, value))) [] table.numEntries

end

/-! ### `CopyTable` -/

mutual

def copyValue (pool : ℕ) : ℕ → AmqpFieldValue → Exec AmqpFieldValue
  | 0, _ => throw .crash
  | _ + 1, .plain value => pure (.plain value)
  | _ + 1, .utf8 bytes => .utf8 <$> createBytes pool bytes.len (loadBytes bytes)
  | _ + 1, .bytes bytes => .bytes <$> createBytes pool bytes.len (loadBytes bytes)
  | n + 1, .array array => do
    -- an array of no entries gets `NULL`, and nothing is written to it
    let entries ← amqpPoolAlloc pool (sizeofFieldValue * array.numEntries) (.values [])
    upTo (fun i _ => do
      writeValue entries (← copyValue pool n (← loadValue array.entries i))) () array.numEntries
    pure (.array ⟨array.numEntries, entries⟩)
  | n + 1, .table table => .table <$> copyTableInner pool n table

def copyTableInner (pool : ℕ) : ℕ → AmqpTable → Exec AmqpTable
  | 0, _ => throw .crash
  | n + 1, table => createAmqpTableWith pool table.numEntries fun entries =>
      upTo (fun i _ => do
        let entry ← loadEntry table.entries i
        let key ← createKey pool entry.key.len (loadBytes entry.key)
        writeEntry entries ⟨key, ← copyValue pool n entry.value⟩) () table.numEntries

end

def copyTable (depth : ℕ) (table : AmqpTable) : PoolExec AmqpTable :=
  if table.numEntries = 0 then pure amqpEmptyTable else do
    let pool ← newPool
    inMemory (copyTableInner pool depth table)

end Vs17.Amqp.Tables
