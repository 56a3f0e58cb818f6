import Vs17.Amqp.Contents

/-! # Messages in one memory

A program has any number of messages, and a connection keeps what has come in the same memory. Each
message says what was last written to it: no call on another one changes that, and nothing that the
connection does. Only a table that there is no memory for can make a message lose something, its
headers. When a message is destroyed, nothing of it is left.
-/

namespace Vs17.Amqp.Tables

open Calls Heap Dictionaries AmqpMemory

variable {ι : Type}

/-- The messages of a program have names. -/
structure Messages (ι : Type) where
  memory : Memory
  impl : ι → Option BasicMessageImpl

def Messages.start : Messages ι := ⟨Heap.empty, fun _ => none⟩

abbrev MessagesExec (ι : Type) := EStateM Fault (Messages ι)

/-- The calls that change a message. -/
inductive Call
  | setBody (body : Bytes)
  | setString (p : StringProperty) (s : Bytes)
  | clearString (p : StringProperty)
  | setNumber (n : NumberProperty) (v : n.Value)
  | clearNumber (n : NumberProperty)
  | setHeaderTable (headerTable : Table)
  | headerTableClear

inductive Action (ι : Type)
  | construct (j : ι)
  | constructWithBody (j : ι) (body : Bytes)
  | createMessage (j : ι) (content : Bytes) (properties : AmqpBasicProperties)
  | call (j : ι) (x : Call)
  | destroy (j : ι)
  -- what the connection does with the memory of its channels
  | allocate (ch : UInt16) (b : Block)
  | recycle (ch : UInt16)

/-! ### What the messages are to contain -/

/-- Whether there is memory for a table. -/
def creatable (t : Table) : Bool := t.isEmpty || encodable (.table t)

theorem creatable_iff {t : Table} : creatable t = true ↔ t = [] ∨ encodable (.table t) = true := by
  unfold creatable
  rw [Bool.or_eq_true, List.isEmpty_iff]

theorem creatable_eq_false_iff {t : Table} :
    creatable t = false ↔ t ≠ [] ∧ encodable (.table t) = false := by
  unfold creatable
  rw [Bool.or_eq_false_iff, List.isEmpty_eq_false_iff]

/-- A table that there is no memory for does not become the headers of a message. -/
def Call.apply (c : Contents) : Call → Contents
  | .setBody body => { c with body := body }
  | .setString p s => c.putString p (some (Text.cstr s))
  | .clearString p => c.putString p none
  | .setNumber n v => { c with numbers := Function.update c.numbers n (some v) }
  | .clearNumber n => { c with numbers := Function.update c.numbers n none }
  | .setHeaderTable t => if creatable t then { c with headers := some (encodeEntries t) } else c
  | .headerTableClear => { c with headers := none }

/-- The headers of a message are not to be lost. -/
def Call.Fits (c : Contents) : Call → Prop
  | .setHeaderTable t => creatable t = true ∨ c.headers.getD [] = []
  | _ => True

/-- What an action does to the contents of the messages. When a content has come, its properties
are in memory of a channel, and there is memory for a copy of its headers. -/
inductive Effect [DecidableEq ι] (depth : ℕ) (m : Memory) (cs : ι → Option Contents) :
    Action ι → (ι → Option Contents) → Prop
  | construct {j : ι} (hj : cs j = none) :
      Effect depth m cs (.construct j) (Function.update cs j (some .empty))
  | constructWithBody {j : ι} {body : Bytes} (hj : cs j = none) :
      Effect depth m cs (.constructWithBody j body)
        (Function.update cs j (some { Contents.empty with body := body }))
  | createMessage {j : ι} {content : Bytes} {properties : AmqpBasicProperties} {ch : UInt16}
      {c : Contents} (hj : cs j = none)
      (hd : Delivered m ch { emptyImpl with properties := properties } c)
      (hcopy : ∀ es ∈ c.headers, es = [] ∨ copyable (.table es) = true)
      (hdepth : ∀ es ∈ c.headers, depthEntries es < depth) :
      Effect depth m cs (.createMessage j content properties)
        (Function.update cs j (some { c with body := content }))
  | call {j : ι} {x : Call} {c : Contents} (hj : cs j = some c) (hx : x.Fits c) :
      Effect depth m cs (.call j x) (Function.update cs j (some (x.apply c)))
  | destroy {j : ι} {c : Contents} (hj : cs j = some c) :
      Effect depth m cs (.destroy j) (Function.update cs j none)
  | allocate {ch : UInt16} {b : Block} : Effect depth m cs (.allocate ch b) cs
  | recycle {ch : UInt16} : Effect depth m cs (.recycle ch) cs

/-! ### Each call -/

variable {m k : Memory} {i : BasicMessageImpl} {c : Contents} {X : Set ℕ} {x : Call}

/-- The call leaves these contents, or it throws `std::bad_alloc` and leaves them, too. -/
def Leaves (x : MessageExec Unit) (c c' : Contents) : Prop :=
  ∀ X m i, Good X m i c → Ends x (m, i) (fun _ t => Good X t.1 t.2 c' ∧ Spares X m t.1)
    fun e t => e = .badAlloc ∧ Good X t.1 t.2 c' ∧ Spares X m t.1

theorem Makes.leaves {x : MessageExec Unit} {c' : Contents} (hx : Makes x c () c') :
    Leaves x c c' :=
  fun X m i h => (hx X m i h).mono (fun _ _ ht => ht.2) fun _ _ he => he.elim

theorem DenotesTable.of_nil {R S : Set ℕ} {t : AmqpTable} (ht : DenotesTable m R [] t) :
    DenotesTable k S [] t := by
  obtain ⟨ls, hlen, -, hls⟩ := ht
  cases hls
  exact ⟨[], hlen, fun h => absurd rfl h, .nil⟩

/-! ### Headers that are lost -/

/-- A table is not read when its entries are gone. -/
theorem createTable_crashes {n : ℕ} {w : AmqpTable} (hw : w.numEntries ≠ 0)
    (hgone : w.entries.bind m.block? = none) :
    Ends (createTable n w) m (fun _ _ => False) fun e _ => e = .crash := by
  cases n with
  | zero =>
    unfold createTable
    rfl
  | succ n =>
    unfold createTable
    -- the first entry cannot be read, so no other one is looked at
    refine (ends_upTo (fun j _ k => j = 0 ∧ k = m) ⟨rfl, rfl⟩ ?_).mono
      (fun _ _ hj => hw hj.1) fun _ _ he => he
    rintro j - b k ⟨rfl, rfl⟩
    unfold loadEntry load
    rw [ends_bind, ends_bind, ends_bind, ends_get, hgone]
    rfl

/-- When a message gets another pool, nothing is left of what was in the old one. -/
theorem Grows.block?_eq_none {p : ℕ} {o : Owner} (hk : Grows o (renewPool (some p) m) k)
    (ha : a ∈ m.owned (.pool p)) : k.block? a = none := by
  obtain ⟨b, hb⟩ := ha
  have hlt : a < (renewPool (some p) m).top := by
    rw [renewPool, top_dropPool, top_alloc]
    exact Nat.lt_succ_of_lt (lt_top hb)
  have halloc : (m.alloc .malloc .pool).block? a = some (.pool p, b) :=
    keeps_alloc {a} a rfl _ hb
  rw [hk.old a hlt]
  change (((m.alloc .malloc .pool).releaseOwned (.pool p)).release p).block? a = none
  rw [block?_release, block?_releaseOwned, halloc]
  simp

/-- The headers of the message can be read, or there are none. -/
def Readable (s : Memory × BasicMessageImpl) : Prop :=
  ∃ n, Ends (headerTable n) s (fun _ _ => True) fun _ _ => False

theorem Good.readable (h : Good X m i c) : Readable (m, i) := by
  obtain ⟨n, hn⟩ : ∃ n, ∀ es ∈ c.headers, depthEntries es < n := by
    cases hc : c.headers with
    | none => exact ⟨0, nofun⟩
    | some es =>
      refine ⟨depthEntries es + 1, ?_⟩
      rintro _ ⟨⟩
      exact Nat.lt_succ_self _
  exact ⟨n, (makes_headerTable hn X m i h).mono (fun _ _ _ => trivial) fun _ _ he => he⟩

/-! ### All the messages -/

/-- What is in memory for a message. -/
structure Stored (m : Memory) (i : BasicMessageImpl) (c : Contents) : Prop where
  block : ∀ s a, i.slot s = some a → m.block? a = some (.malloc, c.block s)
  shape : Shape i c
  table : ∀ es ∈ c.headers, DenotesTable m (poolMemory m i.tablePool) es i.properties.headers

theorem Good.stored (h : Good X m i c) : Stored m i c := ⟨h.has.block, h.shape, h.table⟩

/-- A message stays as it is when what it owns does. -/
theorem Stored.keeps (h : Stored m i c) (hX : ∀ s a, i.slot s = some a → a ∈ X)
    (hk : ∀ a o b, (∀ ch, o ≠ .channel ch) → Foreign X a o →
      m.block? a = some (o, b) → k.block? a = some (o, b)) : Stored k i c where
  block s a hs := hk a .malloc _ nofun (hX s a hs) (h.block s a hs)
  shape := h.shape
  table es hes := by
    apply (h.table es hes).moves
    rintro a ⟨p, hp, b, hb⟩ x hx
    have hkb := hk a (.pool p) b nofun (hX .pool p hp) hb
    rw [hb] at hx
    exact ⟨⟨p, hp, b, hkb⟩, hkb.trans hx⟩

def slots (impl : ι → Option BasicMessageImpl) (j : ι) (s : Slot) : Ptr :=
  (impl j).bind (·.slot s)

theorem slots_of_none {impl : ι → Option BasicMessageImpl} {j : ι} (hj : impl j = none) :
    slots impl j = fun _ => none := by
  funext s
  unfold slots
  rw [hj, Option.bind_none]

theorem slots_of_some {impl : ι → Option BasicMessageImpl} {j : ι} (hj : impl j = some i) :
    slots impl j = i.slot := by
  funext s
  unfold slots
  rw [hj, Option.bind_some]

/-- The messages have these contents. Each block of `malloc` is held in one place of one message,
and a pool that has memory is there itself. -/
structure Represents (s : Messages ι) (cs : ι → Option Contents) : Prop where
  held : Held (Function.uncurry (slots s.impl)) (s.memory.owned .malloc)
  pools : ∀ a p b, s.memory.block? a = some (.pool p, b) →
    s.memory.block? p = some (.malloc, .pool)
  stored : ∀ j, Option.Rel (Stored s.memory) (s.impl j) (cs j)

section Represents

variable {s : Messages ι} {cs : ι → Option Contents} {j : ι}

theorem represents_start : Represents (Messages.start : Messages ι) fun _ => none where
  held := ⟨nofun, fun _ ⟨_, hb⟩ => (nomatch hb), nofun⟩
  pools := nofun
  stored _ := .none

theorem Represents.impl_eq_none (h : Represents s cs) (hj : cs j = none) : s.impl j = none := by
  have hrel := h.stored j
  rw [hj] at hrel
  cases hi : s.impl j with
  | none => rfl
  | some i =>
    rw [hi] at hrel
    cases hrel

theorem Represents.exists_impl (h : Represents s cs) (hj : cs j = some c) :
    ∃ i, s.impl j = some i ∧ Stored s.memory i c := by
  have hrel := h.stored j
  rw [hj] at hrel
  cases hi : s.impl j with
  | none =>
    rw [hi] at hrel
    cases hrel
  | some i =>
    rw [hi] at hrel
    cases hrel with
    | some hstored => exact ⟨i, rfl, hstored⟩

/-- One message, and what the others have. -/
theorem Represents.good (h : Represents s cs) (hi : s.impl j = some i)
    (hc : Stored s.memory i c) : Good (Held.rest (slots s.impl) j) s.memory i c where
  has := by
    have hpart := h.held.part j
    rw [slots_of_some hi] at hpart
    exact ⟨h.held.rest_subset, hpart, h.pools, hc.block⟩
  shape := hc.shape
  table := hc.table

/-- A message that is not there, and what the others have. -/
theorem Represents.has_none {B : Slot → Block} (h : Represents s cs) (hi : s.impl j = none) :
    Has s.memory (fun _ => none) (Held.rest (slots s.impl) j) B where
  others := h.held.rest_subset
  held := slots_of_none hi ▸ h.held.part j
  pools := h.pools
  block := nofun

/-- A message stays as it is when what it owns does. -/
theorem Represents.stored_keeps (h : Represents s cs)
    (hX : ∀ t a, slots s.impl j t = some a → a ∈ X)
    (hk : ∀ a o b, (∀ ch, o ≠ .channel ch) → Foreign X a o →
      s.memory.block? a = some (o, b) → k.block? a = some (o, b)) :
    Option.Rel (Stored k) (s.impl j) (cs j) := by
  cases hc : cs j with
  | none =>
    rw [h.impl_eq_none hc]
    exact .none
  | some c =>
    obtain ⟨i, hi, hstored⟩ := h.exists_impl hc
    rw [slots_of_some hi] at hX
    rw [hi]
    exact .some (hstored.keeps hX hk)

/-- Only the connection does something with its memory. -/
theorem Represents.aside (h : Represents s cs) (hk : ∀ a o b, (∀ ch, o ≠ .channel ch) →
    (k.block? a = some (o, b) ↔ s.memory.block? a = some (o, b))) :
    Represents ⟨k, s.impl⟩ cs where
  held := by
    have howned : k.owned .malloc = s.memory.owned .malloc :=
      Set.ext fun a => exists_congr fun b => hk a .malloc b nofun
    dsimp only
    rw [howned]
    exact h.held
  pools a p b hb :=
    (hk p .malloc .pool nofun).mpr (h.pools a p b ((hk a (.pool p) b nofun).mp hb))
  stored j :=
    h.stored_keeps (X := Set.univ) (fun _ _ _ => trivial) fun a o b ho _ => (hk a o b ho).mpr

theorem Represents.allocate (h : Represents s cs) {ch : UInt16} {b : Block} :
    Represents ⟨s.memory.alloc (.channel ch) b, s.impl⟩ cs := by
  refine h.aside fun a o b' ho => ⟨fun hb => ?_, fun hb => keeps_alloc {a} a rfl _ hb⟩
  rw [block?_alloc] at hb
  split_ifs at hb
  · cases hb
    exact absurd rfl (ho ch)
  · exact hb

theorem Represents.recycle (h : Represents s cs) {ch : UInt16} :
    Represents ⟨s.memory.releaseOwned (.channel ch), s.impl⟩ cs :=
  h.aside fun _ _ _ ho => block?_releaseOwned_eq_some.trans (and_iff_left (ho ch))

variable [DecidableEq ι]

theorem slots_update {impl : ι → Option BasicMessageImpl} {o : Option BasicMessageImpl} :
    slots (Function.update impl j o) =
      Function.update (slots impl) j fun s => o.bind (·.slot s) := by
  funext l s
  rcases eq_or_ne l j with rfl | hl
  · rw [Function.update_self]
    unfold slots
    rw [Function.update_self]
  · rw [Function.update_of_ne hl]
    unfold slots
    rw [Function.update_of_ne hl]

/-- One message changes, and what the others have is spared. -/
theorem Represents.update {o : Option BasicMessageImpl} {oc : Option Contents} {B : Slot → Block}
    (h : Represents s cs)
    (hhas : Has k (fun s => o.bind (·.slot s)) (Held.rest (slots s.impl) j) B)
    (hstored : Option.Rel (Stored k) o oc)
    (hspares : Spares (Held.rest (slots s.impl) j) s.memory k) :
    Represents ⟨k, Function.update s.impl j o⟩ (Function.update cs j oc) where
  held := by
    dsimp only
    rw [slots_update]
    exact h.held.join hhas.held hhas.others
  pools := hhas.pools
  stored l := by
    dsimp only
    rcases eq_or_ne l j with rfl | hl
    · rw [Function.update_self, Function.update_self]
      exact hstored
    · rw [Function.update_of_ne hl, Function.update_of_ne hl]
      exact h.stored_keeps (X := Held.rest (slots s.impl) j) (fun t a ht => ⟨l, hl, t, ht⟩)
        fun a o b _ => hspares a o b

/-- A message is constructed, and it is given a name. -/
def make (j : ι) (x : Exec BasicMessageImpl) : MessagesExec ι Unit := do
  let i ← zoom Messages.memory (fun m s => { s with memory := m }) x
  modify fun s => { s with impl := Function.update s.impl j (some i) }

def onMessage (j : ι) (x : MessageExec Unit) : MessagesExec ι Unit := do
  match (← get).impl j with
  | none => throw .crash
  | some i =>
    zoom (fun s => (s.memory, i)) (fun t s => ⟨t.1, Function.update s.impl j (some t.2)⟩) x

theorem ends_onMessage {x : MessageExec Unit} (hi : s.impl j = some i)
    {Q : Unit → Messages ι → Prop} {E : Fault → Messages ι → Prop} :
    Ends (onMessage j x) s Q E ↔ Ends x (s.memory, i)
      (fun v t => Q v ⟨t.1, Function.update s.impl j (some t.2)⟩)
      fun e t => E e ⟨t.1, Function.update s.impl j (some t.2)⟩ := by
  unfold onMessage
  rw [ends_bind, ends_get, hi]
  exact ends_zoom

/-- A message is made, and its name was free. -/
theorem Represents.make (h : Represents s cs) (hj : cs j = none) {x : Exec BasicMessageImpl}
    (hx : Has s.memory (fun _ => none) (Held.rest (slots s.impl) j) c.block →
      Ends x s.memory (fun i k => Good (Held.rest (slots s.impl) j) k i c ∧
        Spares (Held.rest (slots s.impl) j) s.memory k) fun _ _ => False) :
    Ends (make j x) s (fun _ t => Represents t (Function.update cs j (some c)))
      fun e t => e = .badAlloc ∧ Represents t (Function.update cs j (some c)) := by
  unfold Tables.make
  rw [ends_bind, ends_zoom]
  refine (hx (h.has_none (h.impl_eq_none hj))).mono ?_ fun _ _ he => he.elim
  rintro i k ⟨hgood, hspares⟩
  rw [ends_modify]
  exact h.update hgood.has (.some hgood.stored) hspares

end Represents

/-! ### What is read -/

def Contents.isSet (c : Contents) : Property → Bool
  | .string p => (c.strings p).isSome
  | .number n => (c.numbers n).isSome
  | .headers => c.headers.isSome

theorem Shape.isSet_eq (h : Shape i c) : ∀ q, i.isSet q = c.isSet q
  | .string p => h.isSet p
  | .number n => by
    change _ = (c.numbers n).isSome
    rw [← h.number n]
    cases i.isSet (.number n) <;> rfl
  | .headers => h.headers

theorem proper_headerTable : Proper (.table c.headerTable) := by
  unfold Contents.headerTable
  cases c.headers with
  | none => exact ⟨.nil, trivial⟩
  | some es =>
    have hproper := proper_decode (.table es)
    rw [decode] at hproper
    exact hproper

theorem headerTable_of_eq {t : Table} (ht : Proper (.table t))
    (hc : c.headers = some (encodeEntries t)) : c.headerTable = t := by
  have hdecode := decode_encode ht
  rw [encode, decode, TableValue.table.injEq] at hdecode
  unfold Contents.headerTable
  rw [hc, Option.elim_some, hdecode]

theorem find?_headerTable {es : List (Bytes × Wire)} {key : Bytes} (hc : c.headers = some es) :
    c.headerTable.find? (·.1 = key) = (es.find? (·.1 = key)).map (Prod.map id decode) := by
  have hmap : (es.map (Prod.map id decode)).find? (·.1 = key) =
      (es.find? (·.1 = key)).map (Prod.map id decode) := by
    rw [List.find?_map]
    rfl
  unfold Contents.headerTable
  rw [hc, Option.elim_some, decodeEntries_eq, ← hmap]
  convert find?_ofEntries

/-- The table that is read from the headers is a map. Of the entries with one key it has the first
one, and when the headers were made from a map, it is that one. -/
structure HeadersRead (c : Contents) (t : Table) : Prop where
  eq : t = c.headerTable
  proper : Proper (.table t)
  first : ∀ es ∈ c.headers, ∀ key,
    t.find? (·.1 = key) = (es.find? (·.1 = key)).map (Prod.map id decode)
  set : ∀ u, Proper (.table u) → c.headers = some (encodeEntries u) → t = u

theorem headersRead_headerTable : HeadersRead c c.headerTable where
  eq := rfl
  proper := proper_headerTable
  first _ hes _ := find?_headerTable hes
  set _ := headerTable_of_eq

/-- What a message answers when it is asked for its contents. -/
structure Answers (s : Memory × BasicMessageImpl) (c : Contents) : Prop where
  body : Ends body s (fun v _ => v = c.body) fun _ _ => False
  isSet : ∀ q, s.2.isSet q = c.isSet q
  string : ∀ p, Ends (string p) s (fun v _ => v = (c.strings p).getD []) fun _ _ => False
  number : ∀ n, Ends (number n) s (fun v _ => v = (c.numbers n).getD n.zero) fun _ _ => False
  headerTable : ∀ depth, (∀ es ∈ c.headers, depthEntries es < depth) →
    Ends (headerTable depth) s (fun v _ => HeadersRead c v) fun _ _ => False

theorem Makes.answer {α : Type} {x : MessageExec α} {v : α} {c' : Contents} (hx : Makes x c v c')
    (h : Good X m i c) : Ends x (m, i) (fun w _ => w = v) fun _ _ => False :=
  (hx X m i h).mono (fun _ _ ht => ht.1) fun _ _ he => he

theorem Good.answers (h : Good X m i c) : Answers (m, i) c where
  body := makes_body.answer h
  isSet := h.shape.isSet_eq
  string _ := makes_string.answer h
  number _ := makes_number.answer h
  headerTable _ hn := ((makes_headerTable hn).answer h).mono
    (fun _ _ hv => hv ▸ headersRead_headerTable) fun _ _ he => he

/-- When there is no message, there is no memory but that of the connection. -/
theorem Represents.owner_of_none {s : Messages ι} (h : Represents s fun _ => none) {a : ℕ}
    {o : Owner} {b : Block} (hb : s.memory.block? a = some (o, b)) : ∃ ch, o = .channel ch := by
  have hmalloc : ∀ n, n ∉ s.memory.owned .malloc := by
    intro n hn
    obtain ⟨⟨j, t⟩, ht⟩ := h.held.exists_holder n hn
    rw [Function.uncurry_apply_pair, slots_of_none (h.impl_eq_none rfl)] at ht
    cases ht
  cases o with
  | malloc => exact absurd ⟨b, hb⟩ (hmalloc a)
  | pool p => exact absurd ⟨.pool, h.pools a p b hb⟩ (hmalloc p)
  | channel ch => exact ⟨ch, rfl⟩

/-! ### The calls -/

section Exec

variable [AmqpMemory]

def Call.exec : Call → MessageExec Unit
  | .setBody body => Tables.setBody body
  | .setString p s => Tables.setString p s
  | .clearString p => Tables.clearString p
  | .setNumber n v => Tables.setNumber n v
  | .clearNumber n => Tables.clearNumber n
  | .setHeaderTable headerTable => Tables.setHeaderTable headerTable
  | .headerTableClear => Tables.headerTableClear

variable [DecidableEq ι]

def Action.exec (depth : ℕ) : Action ι → MessagesExec ι Unit
  | .construct j => make j (Tables.construct (pure ()))
  | .constructWithBody j body => make j (Tables.construct (Tables.constructWithBody body))
  | .createMessage j content properties => make j (Tables.createMessage depth content properties)
  | .call j x => onMessage j x.exec
  | .destroy j => do
    onMessage j Tables.destroy
    modify fun s => { s with impl := Function.update s.impl j none }
  | .allocate ch b => modify fun s => { s with memory := s.memory.alloc (.channel ch) b }
  | .recycle ch => modify fun s => { s with memory := s.memory.releaseOwned (.channel ch) }

/-- A program may go on after `std::bad_alloc`. -/
def catchBadAlloc : Fault → MessagesExec ι Unit
  | .badAlloc => pure ()
  | .crash => throw .crash

def act (depth : ℕ) (a : Action ι) : MessagesExec ι Unit :=
  tryCatch (a.exec depth) catchBadAlloc

def run (depth : ℕ) (as : List (Action ι)) : MessagesExec ι Unit := as.forM (act depth)

/-- The actions have these effects, one after another. -/
def Effects (depth : ℕ) :
    Messages ι → (ι → Option Contents) → List (Action ι) → (ι → Option Contents) → Prop
  | _, cs, [], ds => ds = cs
  | s, cs, a :: as, ds => ∃ cs', Effect depth s.memory cs a cs' ∧
      ∀ t, act depth a s = .ok () t → Effects depth t cs' as ds

variable [Documented]

/-- When the message has no headers, none are lost. -/
theorem leaves_setHeaderTable_of_not_creatable {t : Table} (ht : creatable t = false)
    (hc : c.headers.getD [] = []) : Leaves (setHeaderTable t) c c := by
  intro X m i h
  obtain ⟨hne, hmade⟩ := creatable_eq_false_iff.mp ht
  refine (ends_setHeaderTable_of_not_encodable hne hmade h).mono (fun _ _ hf => hf.elim) ?_
  rintro e ⟨k, i'⟩ ⟨rfl, hspares, rfl, hhas, -⟩
  refine ⟨rfl, ⟨hhas, ⟨h.shape.body, h.shape.isSet, h.shape.string, h.shape.number,
    h.shape.headers⟩, ?_⟩, hspares⟩
  intro es hes
  obtain rfl : es = [] := by rwa [Option.mem_def.mp hes] at hc
  exact (h.table [] hes).of_nil

theorem leaves_call (hx : x.Fits c) : Leaves x.exec c (x.apply c) := by
  cases x with
  | setBody body => exact makes_setBody.leaves
  | setString p s => exact makes_setString.leaves
  | clearString p => exact makes_clearString.leaves
  | setNumber n v => exact makes_setNumber.leaves
  | clearNumber n => exact makes_clearNumber.leaves
  | headerTableClear => exact makes_headerTableClear.leaves
  | setHeaderTable t =>
    rw [Call.apply]
    split_ifs with ht
    · exact (makes_setHeaderTable (creatable_iff.mp ht)).leaves
    · exact leaves_setHeaderTable_of_not_creatable (Bool.eq_false_iff.mpr ht) (hx.resolve_left ht)

/-- A table that there is no memory for is thrown back, and the message still has the flag and the
address of its headers, but not these. -/
theorem ends_setHeaderTable_of_not_fits {t : Table} (ht : creatable t = false)
    (hc : c.headers.getD [] ≠ []) (h : Good X m i c) :
    Ends (setHeaderTable t) (m, i) (fun _ _ => False) fun e s =>
      e = .badAlloc ∧ ∀ n, Ends (headerTable n) s (fun _ _ => False) fun e _ => e = .crash := by
  obtain ⟨es, hes⟩ : ∃ es, c.headers = some es :=
    Option.ne_none_iff_exists'.mp fun hnone => hc (by rw [hnone]; rfl)
  rw [hes, Option.getD_some] at hc
  obtain ⟨ls, hlen, hholds, -⟩ := h.table es hes
  obtain ⟨a, ⟨p, hp, ha⟩, hentries, -⟩ := hholds hc
  obtain ⟨hne, hmade⟩ := creatable_eq_false_iff.mp ht
  refine (ends_setHeaderTable_of_not_encodable hne hmade h).mono (fun _ _ hf => hf) ?_
  rintro e ⟨k, i'⟩ ⟨rfl, -, rfl, -, hgrows⟩
  refine ⟨rfl, fun n => ?_⟩
  have hset : (i.putPool (some m.top)).isSet .headers = true := by
    rw [← Option.isSome_some (a := es), ← hes]
    exact h.shape.headers
  have hgone : k.block? a = none := by
    rw [Option.mem_def.mp hp] at hgrows
    exact Grows.block?_eq_none hgrows ha
  unfold headerTable
  rw [ends_bind, ends_impl, if_pos hset, ends_inMemory]
  apply createTable_crashes
  · change i.properties.headers.numEntries ≠ 0
    rw [hlen]
    exact mt List.length_eq_zero_iff.mp hc
  · change i.properties.headers.entries.bind k.block? = none
    rw [hentries, Option.bind_some, hgone]

section Actions

variable {s : Messages ι} {cs : ι → Option Contents} {j : ι}

/-! ### One action -/

variable {depth : ℕ} {a : Action ι} {as : List (Action ι)} {cs' ds : ι → Option Contents}

theorem Represents.call (h : Represents s cs) (hj : cs j = some c) (hx : x.Fits c) :
    Ends (onMessage j x.exec) s
      (fun _ t => Represents t (Function.update cs j (some (x.apply c))))
      fun e t => e = .badAlloc ∧ Represents t (Function.update cs j (some (x.apply c))) := by
  obtain ⟨i, hi, hstored⟩ := h.exists_impl hj
  rw [ends_onMessage hi]
  refine (leaves_call hx _ _ _ (h.good hi hstored)).mono ?_ ?_
  · rintro - ⟨k, i'⟩ ⟨hgood, hspares⟩
    exact h.update hgood.has (.some hgood.stored) hspares
  · rintro e ⟨k, i'⟩ ⟨rfl, hgood, hspares⟩
    exact ⟨rfl, h.update hgood.has (.some hgood.stored) hspares⟩

theorem Represents.destroy (h : Represents s cs) (hj : cs j = some c) :
    Ends (Action.exec depth (.destroy j)) s
      (fun _ t => Represents t (Function.update cs j none))
      fun e t => e = .badAlloc ∧ Represents t (Function.update cs j none) := by
  obtain ⟨i, hi, hstored⟩ := h.exists_impl hj
  unfold Action.exec
  rw [ends_bind, ends_onMessage hi]
  refine (ends_destroy (h.good hi hstored)).mono ?_ fun _ _ he => he.elim
  rintro - ⟨k, i'⟩ ⟨hhas, hspares⟩
  rw [ends_modify]
  dsimp only
  rw [Function.update_idem]
  exact h.update hhas .none hspares

/-- Each action has the effect that is said of it, and it does not crash. -/
theorem ends_act (ha : Effect depth s.memory cs a cs') (h : Represents s cs) :
    Ends (act depth a) s (fun _ t => Represents t cs') fun _ _ => False := by
  have hexec : Ends (a.exec depth) s (fun _ t => Represents t cs')
      fun e t => e = .badAlloc ∧ Represents t cs' := by
    cases ha with
    | construct hj =>
      exact h.make hj fun hhas => ends_construct ⟨good_emptyImpl hhas, Spares.refl⟩
    | constructWithBody hj =>
      exact h.make hj fun hhas => ends_construct (ends_constructWithBody hhas)
    | createMessage hj hd hcopy hdepth =>
      exact h.make hj fun hhas => ends_createMessage hhas hd hcopy hdepth
    | call hj hx => exact h.call hj hx
    | destroy hj => exact h.destroy hj
    | allocate => exact h.allocate
    | recycle => exact h.recycle
  unfold act
  rw [ends_tryCatch]
  refine hexec.mono (fun _ _ ht => ht) ?_
  rintro e t ⟨rfl, ht⟩
  exact ht

/-! ### Many actions -/

theorem ends_run (has : Effects depth s cs as ds) (h : Represents s cs) :
    Ends (run depth as) s (fun _ t => Represents t ds) fun _ _ => False := by
  induction as generalizing s cs with
  | nil =>
    obtain rfl : ds = cs := has
    exact h
  | cons a as ih =>
    obtain ⟨cs', ha, hrest⟩ := has
    change Ends (act depth a >>= fun _ => run depth as) s _ _
    rw [ends_bind]
    refine (ends_act ha h).eq_ok_and.mono ?_ fun _ _ he => he
    rintro ⟨⟩ t ⟨ht, hrep⟩
    exact ih (hrest t ht) hrep

end Actions

end Exec

/-- Properties of which one is set, to the byte at this address. -/
def onlyContentType (a : ℕ) : AmqpBasicProperties :=
  ⟨Property.flag (.string .contentType), fun _ => ⟨1, some a⟩, NumberProperty.zero, amqpEmptyTable⟩

/-- A message is made from what has come, which is recycled then, and it is given headers. Another
one is written to and destroyed. -/
def twoMessages : List (Action Bool) :=
  [.allocate 1 (.bytes [3]), .createMessage true [1] (onlyContentType 0), .recycle 1,
    .call true (.setHeaderTable [([4], .scalar .void)]), .construct false,
    .call false (.setBody [2]), .destroy false]

/-- The calls that fit are those behind which the headers can be read. -/
theorem fits_iff_readable [AmqpMemory] [Documented] (h : Good X m i c) : x.Fits c ↔
    Ends x.exec (m, i) (fun _ t => Readable t) fun _ t => Readable t := by
  constructor
  · intro hx
    exact (leaves_call hx X m i h).mono (fun _ _ ht => ht.1.readable) fun _ _ ht => ht.2.1.readable
  · intro hread
    by_contra hx
    cases x with
    | setHeaderTable t =>
      obtain ⟨ht, hc⟩ := not_or.mp hx
      have hlost := ends_setHeaderTable_of_not_fits (Bool.eq_false_iff.mpr ht) hc h
      refine not_ends_false ((hread.and hlost).mono (fun _ _ hf => hf.2) ?_)
      rintro e s ⟨⟨n, hn⟩, -, hcrash⟩
      exact not_ends_false ((hn.and (hcrash n)).mono (fun _ _ hf => hf.2) fun _ _ hf => hf.1)
    | _ => exact hx trivial

/-- An empty key is one that there is no memory for. It does no harm to a message without headers,
but another one loses those that it has. -/
theorem fits_iff_readable_emptyKey : ∃ s,
    @setHeaderTable plain [([1], .scalar .void)] (Heap.empty, emptyImpl) = .ok () s ∧
    ¬Ends (@Call.exec plain (.setHeaderTable [([], .scalar .void)])) s (fun _ t => Readable t)
      (fun _ t => Readable t) ∧
    Ends (@Call.exec plain (.setHeaderTable [([], .scalar .void)])) (Heap.empty, emptyImpl)
      (fun _ t => Readable t) fun _ t => Readable t := by
  let _ := plain
  have _ := documented_plain
  have hempty : Good ∅ Heap.empty emptyImpl .empty :=
    good_emptyImpl (B := Contents.empty.block)
      ⟨Set.empty_subset _, ⟨nofun, fun _ ⟨⟨_, hb⟩, _⟩ => (nomatch hb), nofun⟩, nofun, nofun⟩
  have hmade : encodable (.table [([1], .scalar .void)]) = true := by decide
  obtain ⟨⟨⟩, s, hs, -, hgood, -⟩ :=
    (makes_setHeaderTable (.inr hmade) ∅ Heap.empty emptyImpl hempty).exists_ok
  refine ⟨s, hs, fun hread => ?_, (fits_iff_readable hempty).mp (.inr rfl)⟩
  have hfits := (fits_iff_readable hgood).mpr hread
  revert hfits
  simp [Call.Fits, creatable, encodable]

end Vs17.Amqp.Tables
