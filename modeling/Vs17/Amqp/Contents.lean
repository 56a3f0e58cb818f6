import Vs17.Amqp.Ownership

/-! # What a message contains

A message is seen as its body and its properties. Each call on it does to these what its name says,
and leaves the memory of others alone.
-/

namespace Vs17.Amqp.Tables

open Calls Heap Dictionaries AmqpMemory

structure Contents where
  body : Bytes
  strings : StringProperty → Option Bytes
  numbers : (n : NumberProperty) → Option n.Value
  headers : Option (List (Bytes × Wire))

namespace Contents

variable (c : Contents)

def putString (p : StringProperty) (s : Option Bytes) : Contents :=
  { c with strings := Function.update c.strings p s }

theorem strings_putString {p : StringProperty} {s : Option Bytes} :
    (c.putString p s).strings = Function.update c.strings p s := rfl

/-- What is in the blocks of the message. -/
def block : Slot → Block
  | .body => .bytes c.body
  | .string p => .bytes ((c.strings p).getD [])
  | .pool => .pool

@[simp]
theorem block_pool : c.block .pool = .pool := rfl

theorem block_string {p : StringProperty} :
    c.block (.string p) = .bytes ((c.strings p).getD []) := rfl

theorem block_string_ne {p : StringProperty} : c.block (.string p) ≠ .pool := nofun

theorem block_body_ne : c.block .body ≠ .pool := nofun

theorem block_putString_of_ne {p : StringProperty} {s : Option Bytes} {t : Slot}
    (ht : t ≠ .string p) : (c.putString p s).block t = c.block t := by
  cases t with
  | body => rfl
  | pool => rfl
  | string q =>
    have hq : q ≠ p := fun h => ht (h ▸ rfl)
    rw [block_string, block_string, strings_putString, Function.update_of_ne hq]

theorem block_putString {p : StringProperty} {s : Bytes} :
    (c.putString p (some s)).block = Function.update c.block (.string p) (.bytes s) := by
  funext t
  rcases eq_or_ne t (.string p) with rfl | ht
  · rw [Function.update_self, block_string, strings_putString, Function.update_self]
    rfl
  · rw [Function.update_of_ne ht, block_putString_of_ne c ht]

theorem block_putBody {s : Bytes} :
    { c with body := s }.block = Function.update c.block .body (.bytes s) := by
  funext t
  cases t <;> rfl

end Contents

/-! ### A message and its contents -/

/-- The bytes are a copy of the string, if it is not empty. -/
def Spelled (b : AmqpBytes) (s : Bytes) : Prop := b.len = s.length ∧ (b.bytes = none → s = [])

/-- What the members of a message say about its contents. -/
structure Shape (i : BasicMessageImpl) (c : Contents) : Prop where
  body : Spelled i.body c.body
  isSet : ∀ p, i.isSet (.string p) = (c.strings p).isSome
  string : ∀ p, ∀ s ∈ c.strings p, Spelled (i.properties.strings p) s
  number : ∀ n, (if i.isSet (.number n) then some (i.properties.numbers n) else none) =
    c.numbers n
  headers : i.isSet .headers = c.headers.isSome

/-- The memory of a pool. -/
def poolMemory (m : Memory) (pool : Option ℕ) : Set ℕ := {a | ∃ p ∈ pool, a ∈ m.owned (.pool p)}

structure Good (X : Set ℕ) (m : Memory) (i : BasicMessageImpl) (c : Contents) : Prop where
  has : Has m i.slot X c.block
  shape : Shape i c
  table : ∀ es ∈ c.headers, DenotesTable m (poolMemory m i.tablePool) es i.properties.headers

/-- The call returns this value and changes the contents so, and it spares what others have. -/
def Makes {α : Type} (x : MessageExec α) (c : Contents) (v : α) (c' : Contents) : Prop :=
  ∀ X m i, Good X m i c → Ends x (m, i)
    (fun w t => w = v ∧ Good X t.1 t.2 c' ∧ Spares X m t.1) fun _ _ => False

variable {m k : Memory} {i : BasicMessageImpl} {g : Slot → Ptr} {X R : Set ℕ} {B : Slot → Block}
  {c : Contents} {p : StringProperty} {s : Bytes} {a : ℕ}

/-! ### Reading -/

theorem Has.spells (h : Has m g X B) {sl : Slot} {b : AmqpBytes} (hg : g sl = b.bytes)
    (hB : B sl = .bytes s) (hb : Spelled b s) : Spells m Set.univ b s := by
  refine ⟨hb.1, fun hs => ?_⟩
  obtain ⟨a, ha⟩ := Option.ne_none_iff_exists'.mp (mt hb.2 hs)
  exact ⟨a, trivial, ha, .malloc, hB ▸ h.block sl a (hg.trans ha)⟩

theorem ends_impl {Q : BasicMessageImpl → Memory × BasicMessageImpl → Prop}
    {E : Fault → Memory × BasicMessageImpl → Prop} :
    Ends impl (m, i) Q E ↔ Q i (m, i) := Iff.rfl

theorem ends_update {f : BasicMessageImpl → BasicMessageImpl}
    {Q : Unit → Memory × BasicMessageImpl → Prop} {E : Fault → Memory × BasicMessageImpl → Prop} :
    Ends (update f) (m, i) Q E ↔ Q () (m, f i) := Iff.rfl

theorem ends_inMemory {α : Type} {x : Exec α} {Q : α → Memory × BasicMessageImpl → Prop}
    {E : Fault → Memory × BasicMessageImpl → Prop} :
    Ends (inMemory x) (m, i) Q E ↔ Ends x m (fun v k => Q v (k, i)) fun e k => E e (k, i) :=
  ends_zoom

theorem ends_inTablePool {α : Type} {x : PoolExec α} {Q : α → Memory × BasicMessageImpl → Prop}
    {E : Fault → Memory × BasicMessageImpl → Prop} :
    Ends (inTablePool x) (m, i) Q E ↔ Ends x (m, i.tablePool)
      (fun v t => Q v (t.1, i.putPool t.2)) fun e t => E e (t.1, i.putPool t.2) :=
  ends_zoom

theorem makes_body : Makes body c c.body c := by
  intro X m i h
  unfold body
  rw [ends_bind, ends_impl]
  split_ifs with hnone
  · exact ⟨(h.shape.body.2 hnone).symm, h, Spares.refl⟩
  · have hspells : Spells m Set.univ i.body c.body := by
      exact h.has.spells (rfl : i.slot .body = _) rfl h.shape.body
    rw [ends_inMemory, ends_of_eq (loadBytes_eq hspells)]
    exact ⟨rfl, h, Spares.refl⟩

theorem makes_string : Makes (string p) c ((c.strings p).getD []) c := by
  intro X m i h
  unfold string
  rw [ends_bind, ends_impl, h.shape.isSet]
  cases hp : c.strings p with
  | none => exact ⟨rfl, h, Spares.refl⟩
  | some s =>
    have hslot : i.slot (.string p) = (i.properties.strings p).bytes := by
      rw [BasicMessageImpl.slot_string, h.shape.isSet, hp, if_pos Option.isSome_some]
    have hspells : Spells m Set.univ (i.properties.strings p) s := by
      refine h.has.spells hslot ?_ (h.shape.string p s hp)
      rw [c.block_string, hp, Option.getD_some]
    rw [if_pos Option.isSome_some, ends_inMemory, ends_of_eq (loadBytes_eq hspells)]
    exact ⟨rfl, h, Spares.refl⟩

theorem makes_number {n : NumberProperty} : Makes (number n) c ((c.numbers n).getD n.zero) c := by
  intro X m i h
  refine ⟨?_, h, Spares.refl⟩
  rw [← h.shape.number n]
  cases i.isSet (.number n) <;> rfl

/-- The table that the headers are made into. -/
def Contents.headerTable (c : Contents) : Table :=
  c.headers.elim [] fun es => ofEntries (decodeEntries es)

theorem makes_headerTable {n : ℕ} (hn : ∀ es ∈ c.headers, depthEntries es < n) :
    Makes (headerTable n) c c.headerTable c := by
  intro X m i h
  unfold headerTable Contents.headerTable
  rw [ends_bind, ends_impl, h.shape.headers]
  cases hc : c.headers with
  | none => exact ⟨rfl, h, Spares.refl⟩
  | some es =>
    rw [if_pos Option.isSome_some, ends_inMemory,
      ends_of_eq (createTable_eq (hn es hc) (h.table es hc))]
    exact ⟨rfl, h, Spares.refl⟩

/-! ### The members -/

namespace BasicMessageImpl

variable {b : AmqpBytes}

theorem slot_putString : ((i.putString p b).setFlag (.string p)).slot =
    Function.update i.slot (.string p) b.bytes := by
  funext t
  rcases eq_or_ne t (.string p) with rfl | ht
  · rw [Function.update_self, slot_string, isSet_setFlag]
    simp [putString, setFlag]
  · rw [Function.update_of_ne ht]
    cases t with
    | body => rfl
    | pool => rfl
    | string q =>
      have hq : p ≠ q := fun h => ht (h ▸ rfl)
      rw [slot_string, slot_string, isSet_setFlag]
      simp [putString, setFlag, hq, hq.symm, isSet]

theorem slot_clearString : (i.clearFlag (.string p)).slot =
    Function.update i.slot (.string p) none := by
  funext t
  rcases eq_or_ne t (.string p) with rfl | ht
  · rw [Function.update_self, slot_string, isSet_clearFlag]
    simp
  · rw [Function.update_of_ne ht]
    cases t with
    | body => rfl
    | pool => rfl
    | string q =>
      have hq : p ≠ q := fun h => ht (h ▸ rfl)
      rw [slot_string, slot_string, isSet_clearFlag]
      simp [clearFlag, hq]

end BasicMessageImpl

open BasicMessageImpl

theorem isSet_putString {b : AmqpBytes} {q : Property} : (i.putString p b).isSet q = i.isSet q :=
  rfl

theorem Shape.putString (h : Shape i c) {b : AmqpBytes} (hb : Spelled b s) :
    Shape ((i.putString p b).setFlag (.string p)) (c.putString p (some s)) where
  body := h.body
  isSet q := by
    rw [isSet_setFlag, isSet_putString, h.isSet]
    rcases eq_or_ne p q with rfl | hq
    · simp [Contents.putString]
    · simp [Contents.putString, hq, hq.symm]
  string q t ht := by
    rcases eq_or_ne q p with rfl | hq
    · obtain rfl : s = t := by simpa [Contents.putString] using ht
      simpa [BasicMessageImpl.putString, BasicMessageImpl.setFlag] using hb
    · simp only [Contents.putString, Function.update_of_ne hq] at ht
      simpa [BasicMessageImpl.putString, BasicMessageImpl.setFlag, hq] using h.string q t ht
  number n := by
    rw [isSet_setFlag_of_ne (by nofun)]
    exact h.number n
  headers := by
    rw [isSet_setFlag_of_ne (by nofun)]
    exact h.headers

theorem Shape.clearString (h : Shape i c) :
    Shape (i.clearFlag (.string p)) (c.putString p none) where
  body := h.body
  isSet q := by
    rw [isSet_clearFlag, h.isSet]
    rcases eq_or_ne p q with rfl | hq
    · simp [Contents.putString]
    · simp [Contents.putString, hq, hq.symm]
  string q t ht := by
    rcases eq_or_ne q p with rfl | hq
    · simp [Contents.putString] at ht
    · simp only [Contents.putString, Function.update_of_ne hq] at ht
      exact h.string q t ht
  number n := by
    rw [isSet_clearFlag_of_ne (by nofun)]
    exact h.number n
  headers := by
    rw [isSet_clearFlag_of_ne (by nofun)]
    exact h.headers

theorem Shape.putBody (h : Shape i c) {b : AmqpBytes} (hb : Spelled b s) :
    Shape (i.putBody b) { c with body := s } :=
  { h with body := hb }

theorem spelled_dup : Spelled ⟨s.length, some a⟩ s := ⟨rfl, nofun⟩

theorem slot_setFlag {q : Property} (hq : ∀ p, q ≠ .string p) : (i.setFlag q).slot = i.slot := by
  funext t
  cases t with
  | body => rfl
  | pool => rfl
  | string p =>
    rw [slot_string, slot_string, isSet_setFlag_of_ne (hq p)]
    rfl

theorem slot_clearFlag {q : Property} (hq : ∀ p, q ≠ .string p) :
    (i.clearFlag q).slot = i.slot := by
  funext t
  cases t with
  | body => rfl
  | pool => rfl
  | string p =>
    rw [slot_string, slot_string, isSet_clearFlag_of_ne (hq p)]
    rfl

variable {n : NumberProperty} {v : n.Value}

theorem Shape.setNumber (h : Shape i c) : Shape ((i.putNumber n v).setFlag (.number n))
    { c with numbers := Function.update c.numbers n (some v) } where
  body := h.body
  isSet p := by
    rw [isSet_setFlag_of_ne (by nofun)]
    exact h.isSet p
  string := h.string
  number k := by
    have hset : (i.putNumber n v).isSet (.number k) = i.isSet (.number k) := rfl
    rw [isSet_setFlag, hset]
    rcases eq_or_ne k n with rfl | hk
    · simp [putNumber, BasicMessageImpl.setFlag]
    · have hnk : Property.number n ≠ .number k := fun h => hk (Property.number.inj h).symm
      rw [decide_eq_false hnk, Bool.or_false]
      simpa [putNumber, BasicMessageImpl.setFlag, hk] using h.number k
  headers := by
    rw [isSet_setFlag_of_ne (by nofun)]
    exact h.headers

theorem Shape.clearNumber (h : Shape i c) : Shape (i.clearFlag (.number n))
    { c with numbers := Function.update c.numbers n none } where
  body := h.body
  isSet p := by
    rw [isSet_clearFlag_of_ne (by nofun)]
    exact h.isSet p
  string := h.string
  number k := by
    rw [isSet_clearFlag]
    rcases eq_or_ne k n with rfl | hk
    · simp
    · have hnk : Property.number n ≠ .number k := fun h => hk (Property.number.inj h).symm
      rw [decide_eq_false hnk, Bool.not_false, Bool.and_true]
      simpa [BasicMessageImpl.clearFlag, hk] using h.number k
  headers := by
    rw [isSet_clearFlag_of_ne (by nofun)]
    exact h.headers

theorem Shape.setHeaders (h : Shape i c) {w : AmqpTable} {pool : Option ℕ}
    {es : List (Bytes × Wire)} :
    Shape (((i.putPool pool).putHeaders w).setFlag .headers) { c with headers := some es } where
  body := h.body
  isSet p := by
    rw [isSet_setFlag_of_ne (by nofun)]
    exact h.isSet p
  string := h.string
  number n := by
    rw [isSet_setFlag_of_ne (by nofun)]
    exact h.number n
  headers := by
    rw [isSet_setFlag, decide_eq_true rfl, Bool.or_true, Option.isSome_some]

theorem Shape.clearHeaders (h : Shape i c) {w : AmqpTable} {pool : Option ℕ} :
    Shape (((i.putPool pool).putHeaders w).clearFlag .headers) { c with headers := none } where
  body := h.body
  isSet p := by
    rw [isSet_clearFlag_of_ne (by nofun)]
    exact h.isSet p
  string := h.string
  number n := by
    rw [isSet_clearFlag_of_ne (by nofun)]
    exact h.number n
  headers := by
    rw [isSet_clearFlag, decide_eq_true rfl, Bool.not_true, Bool.and_false, Option.isSome_none]

theorem Shape.putTable (h : Shape i c) {pool : Option ℕ} {w : AmqpTable} :
    Shape ((i.putPool pool).putHeaders w) c := ⟨h.body, h.isSet, h.string, h.number, h.headers⟩

theorem slot_putPool {pool : Option ℕ} :
    (i.putPool pool).slot = Function.update i.slot .pool pool := by
  funext t
  cases t <;> rfl

theorem denotesTable_nil {pool : Option ℕ} :
    DenotesTable m (poolMemory m pool) [] amqpEmptyTable :=
  ⟨[], rfl, fun h => absurd rfl h, .nil⟩

theorem poolMemory_some {q : ℕ} : poolMemory m (some q) = m.owned (.pool q) := by
  ext a
  constructor
  · rintro ⟨_, ⟨⟩, ha⟩
    exact ha
  · exact fun ha => ⟨q, rfl, ha⟩

theorem isSet_of_flags_zero (hi : i.properties.flags = 0) {q : Property} : i.isSet q = false := by
  rw [isSet_eq, hi]
  exact BitVec.getLsbD_zero

theorem slots_cons {l : List StringProperty} {u g' : Slot → Ptr} (hp : p ∉ l)
    (hu : u (.string p) = g' (.string p)) (hg : ∀ t, t ≠ .string p → g t = g' t) (t : Slot) :
    (if ∃ q ∈ p :: l, t = .string q then u t else g t) =
      if ∃ q ∈ l, t = .string q then u t else g' t := by
  rcases eq_or_ne t (.string p) with rfl | ht
  · simp [hp, hu]
  · simp [ht, hg t ht]

def BasicMessageImpl.putStrings (i : BasicMessageImpl) (f : StringProperty → AmqpBytes) :
    BasicMessageImpl := { i with properties.strings := f }

theorem slot_putStrings {f : StringProperty → AmqpBytes} :
    (i.putStrings f).slot (.string p) = if i.isSet (.string p) then (f p).bytes else none := rfl

/-! ### `malloc` and `free` -/

/-- The memory of pools stays as it is. -/
def Calm (m k : Memory) : Prop :=
  ∀ a p b, m.block? a = some (.pool p, b) → k.block? a = some (.pool p, b)

theorem Calm.refl : Calm m m := fun _ _ _ hb => hb

theorem Calm.trans {l : Memory} (h₁ : Calm m k) (h₂ : Calm k l) : Calm m l :=
  fun a p b hb => h₂ a p b (h₁ a p b hb)

theorem Calm.table {es : List (Bytes × Wire)} {t : AmqpTable} {pool : Option ℕ} (hk : Calm m k)
    (ht : DenotesTable m (poolMemory m pool) es t) :
    DenotesTable k (poolMemory k pool) es t := by
  apply ht.moves
  rintro a ⟨p, hp, b, hb⟩ x hx
  have hbk := hk a p b hb
  rw [hb] at hx
  exact ⟨⟨p, hp, b, hbk⟩, hbk.trans hx⟩

/-- The memory has changed in the places of one message, but not in its pool. -/
structure Changed (X : Set ℕ) (m k : Memory) (g : Slot → Ptr) (B : Slot → Block) : Prop where
  has : Has k g X B
  spares : Spares X m k
  calm : Calm m k

variable {ch : UInt16}

theorem Spares.moves_channel (h : Spares X m k) :
    Moves (m.owned (.channel ch)) (k.owned (.channel ch)) m k := by
  rintro a ⟨b, hb⟩ x hx
  have hk := h a (.channel ch) b trivial hb
  rw [hb] at hx
  exact ⟨⟨b, hk⟩, hk.trans hx⟩

/-! ### What needs no memory -/

theorem makes_setNumber : Makes (setNumber n v) c ()
    { c with numbers := Function.update c.numbers n (some v) } := by
  intro X m i h
  have hslot : ((i.putNumber n v).setFlag (.number n)).slot = i.slot := slot_setFlag nofun
  exact ⟨rfl, ⟨hslot ▸ h.has, h.shape.setNumber, h.table⟩, Spares.refl⟩

theorem makes_clearNumber : Makes (clearNumber n) c ()
    { c with numbers := Function.update c.numbers n none } := by
  intro X m i h
  have hslot : (i.clearFlag (.number n)).slot = i.slot := slot_clearFlag nofun
  exact ⟨rfl, ⟨hslot ▸ h.has, h.shape.clearNumber, h.table⟩, Spares.refl⟩

def Contents.empty : Contents := ⟨[], fun _ => none, fun _ => none, none⟩

theorem isSet_emptyImpl {q : Property} : emptyImpl.isSet q = false := isSet_of_flags_zero rfl

theorem slot_emptyImpl : emptyImpl.slot = fun _ => none := by
  funext t
  cases t with
  | body => rfl
  | pool => rfl
  | string p => rw [slot_string, isSet_emptyImpl, if_neg Bool.false_ne_true]

theorem good_emptyImpl (h : Has m (fun _ => none) X B) : Good X m emptyImpl .empty where
  has := slot_emptyImpl ▸ h.congr (fun _ => rfl) nofun
  shape := by
    refine ⟨⟨rfl, fun _ => rfl⟩, fun p => isSet_emptyImpl, nofun, fun n => ?_, isSet_emptyImpl⟩
    rw [isSet_emptyImpl]
    rfl
  table := nofun

/-- The message has a new pool, in which a table was made or was begun. -/
theorem Has.renewed (h : Has m i.slot X c.block) {s : Memory × Option ℕ}
    (hs : Renewed m i.tablePool s) :
    Has s.1 (i.putPool s.2).slot X c.block ∧ Spares X m s.1 := by
  have hnew : Has (Tables.renewPool i.tablePool m) (Function.update i.slot .pool (some m.top)) X
      c.block := h.renewPool rfl
  rw [slot_putPool, hs.pointer]
  exact ⟨hnew.grows (Function.update_self ..) rfl hs.grows,
    (h.spares_renewPool rfl).trans (Grows.spares hs.grows)⟩

variable [AmqpMemory] [Documented]

theorem ends_amqpBytesFree (h : Has m g X B) {sl : Slot} {b : AmqpBytes} (hg : g sl = b.bytes)
    (hB : B sl ≠ .pool) : Ends (amqpBytesFree b) m
      (fun _ k => Changed X m k (Function.update g sl none) B) fun _ _ => False := by
  obtain ⟨len, bytes⟩ := b
  dsimp only at hg
  cases bytes with
  | none =>
    rw [Documented.bytes_free_null]
    refine ⟨h.congr (fun s => ?_) fun _ _ _ => rfl, Spares.refl, Calm.refl⟩
    rw [← hg, Function.update_eq_self]
  | some a =>
    have hblock := h.block sl a hg
    rw [ends_of_eq (Documented.bytes_free len hblock hB)]
    refine ⟨h.release hg (h.owned_pool hg hB), h.spares_release hg, ?_⟩
    intro n p b hb
    have hna : n ≠ a := by
      rintro rfl
      rw [hblock] at hb
      cases hb
    rw [block?_release, if_neg hna, hb]

theorem ends_amqpBytesMallocDup (h : Has m g X B) (sl : Slot) (hg : g sl = none) :
    Ends (amqpBytesMallocDup s) m
      (fun b k => b = ⟨s.length, some m.top⟩ ∧ Changed X m k (Function.update g sl b.bytes)
        (Function.update B sl (.bytes s))) fun _ _ => False := by
  rw [Documented.bytes_malloc_dup, ends_bind, ends_alloc, ends_pure]
  exact ⟨rfl, h.alloc hg, spares_alloc, fun a _ _ hb => keeps_alloc {a} a rfl _ hb⟩

theorem ends_freeString (h : Has m g X B) (hg : g (.string p) = i.slot (.string p))
    (hB : B (.string p) ≠ .pool) : Ends (freeString p) (m, i)
      (fun _ t => t.2 = i ∧ Changed X m t.1 (Function.update g (.string p) none) B)
      fun _ _ => False := by
  unfold freeString
  rw [ends_bind, ends_impl]
  rw [BasicMessageImpl.slot_string] at hg
  split_ifs at hg ⊢ with hset
  · rw [ends_inMemory]
    exact (ends_amqpBytesFree h hg hB).mono (fun _ _ hk => ⟨rfl, hk⟩) fun _ _ he => he
  · refine ⟨rfl, h.congr (fun s => ?_) fun _ _ _ => rfl, Spares.refl, Calm.refl⟩
    rw [← hg, Function.update_eq_self]

/-! ### Setting and clearing -/

theorem makes_setBody : Makes (setBody s) c () { c with body := s } := by
  intro X m i h
  have hput : ∀ k, Changed X m k (Function.update i.slot .body none) c.block →
      Ends (do
        let bytes ← inMemory (amqpBytesMallocDup s)
        update (·.putBody bytes)) (k, i)
        (fun w t => w = () ∧ Good X t.1 t.2 { c with body := s } ∧ Spares X m t.1)
        fun _ _ => False := by
    intro k hk
    rw [ends_bind, ends_inMemory]
    refine (ends_amqpBytesMallocDup hk.has _ (Function.update_self ..)).mono ?_ fun _ _ he => he
    rintro b l ⟨rfl, hl⟩
    rw [Function.update_idem, ← Contents.block_putBody] at hl
    rw [ends_update]
    refine ⟨rfl, ⟨hl.has.congr ?_ fun _ _ _ => rfl, h.shape.putBody spelled_dup, ?_⟩,
      hk.spares.trans hl.spares⟩
    · intro t
      cases t <;> rfl
    · exact fun es hes => (hk.calm.trans hl.calm).table (h.table es hes)
  unfold setBody
  rw [ends_bind, ends_impl]
  dsimp only
  split_ifs with hnone
  · rw [ends_bind, ends_inMemory]
    refine (ends_amqpBytesFree h.has rfl c.block_body_ne).mono ?_ fun _ _ he => he
    exact fun _ k hk => hput k hk
  · rw [not_not] at hnone
    refine hput m ⟨h.has.congr (fun t => ?_) fun _ _ _ => rfl, Spares.refl, Calm.refl⟩
    rw [← hnone]
    exact congrFun (Function.update_eq_self Slot.body i.slot) t

theorem makes_setString :
    Makes (setString p s) c () (c.putString p (some (Text.cstr s))) := by
  intro X m i h
  unfold setString
  rw [ends_bind]
  refine (ends_freeString h.has rfl c.block_string_ne).mono ?_ fun _ _ he => he
  rintro - ⟨k, i'⟩ ⟨rfl, hk⟩
  rw [ends_bind, ends_inMemory]
  refine (ends_amqpBytesMallocDup hk.has _ (Function.update_self ..)).mono ?_ fun _ _ he => he
  rintro b l ⟨rfl, hl⟩
  rw [Function.update_idem, ← BasicMessageImpl.slot_putString, ← Contents.block_putString] at hl
  rw [ends_update]
  refine ⟨rfl, ⟨hl.has, h.shape.putString spelled_dup, ?_⟩, hk.spares.trans hl.spares⟩
  exact fun es hes => (hk.calm.trans hl.calm).table (h.table es hes)

theorem makes_clearString : Makes (clearString p) c () (c.putString p none) := by
  intro X m i h
  unfold clearString
  rw [ends_bind]
  refine (ends_freeString h.has rfl c.block_string_ne).mono ?_ fun _ _ he => he
  rintro - ⟨k, i'⟩ ⟨rfl, hk⟩
  rw [← BasicMessageImpl.slot_clearString] at hk
  rw [ends_update]
  refine ⟨rfl, ⟨hk.has.congr (fun _ => rfl) ?_, h.shape.clearString, ?_⟩, hk.spares⟩
  · intro t a ht
    refine c.block_putString_of_ne ?_
    rintro rfl
    rw [slot_clearString, Function.update_self] at ht
    cases ht
  · exact fun es hes => hk.calm.table (h.table es hes)

/-! ### Headers -/

theorem makes_setHeaderTable {t : Table} (ht : t = [] ∨ encodable (.table t) = true) :
    Makes (setHeaderTable t) c () { c with headers := some (encodeEntries t) } := by
  intro X m i h
  unfold setHeaderTable
  rw [ends_bind, ends_inTablePool]
  by_cases hnil : t = []
  · subst hnil
    have hslot : ((i.putHeaders amqpEmptyTable).setFlag .headers).slot = i.slot :=
      slot_setFlag nofun
    refine ⟨rfl, ⟨hslot ▸ h.has, h.shape.setHeaders, ?_⟩, Spares.refl⟩
    rintro _ ⟨⟩
    exact denotesTable_nil
  · refine (ends_createAmqpTable (h.has.livePool rfl) hnil).mono ?_ ?_
    · rintro w s ⟨-, hs, hw⟩
      obtain ⟨hhas, hspares⟩ := h.has.renewed hs
      have hslot : (((i.putPool s.2).putHeaders w).setFlag .headers).slot = (i.putPool s.2).slot :=
        slot_setFlag nofun
      refine ⟨rfl, ⟨hslot ▸ hhas, h.shape.setHeaders, ?_⟩, hspares⟩
      rintro _ ⟨⟩
      rw [← poolMemory_some, ← hs.pointer] at hw
      exact hw
    · rintro e s ⟨hfail, -, -⟩
      rw [ht.resolve_left hnil] at hfail
      cases hfail

theorem ends_resetPool {pool : Option ℕ} (hp : LivePool m pool)
    {Q : Unit → Memory × Option ℕ → Prop} {E : Fault → Memory × Option ℕ → Prop} :
    Ends resetPool (m, pool) Q E ↔ Q () (dropPool pool m, none) := by
  unfold resetPool
  rw [ends_bind, ends_get, ends_bind, inMemory, ends_zoom, ends_of_eq (freePool_eq hp)]
  rfl

theorem makes_headerTableClear : Makes headerTableClear c () { c with headers := none } := by
  intro X m i h
  unfold headerTableClear
  rw [ends_bind, ends_impl]
  dsimp only
  split_ifs with hset
  · have hlive : LivePool m i.tablePool := h.has.livePool rfl
    rw [ends_bind, ends_inTablePool, ends_resetPool hlive]
    have hslot : (((i.putPool none).putHeaders amqpEmptyTable).clearFlag .headers).slot =
        (i.putPool none).slot := slot_clearFlag nofun
    rw [slot_putPool] at hslot
    refine ⟨rfl, ⟨hslot ▸ h.has.dropPool, h.shape.clearHeaders, ?_⟩, h.has.spares_dropPool⟩
    rintro _ ⟨⟩
  · have hslot : (i.clearFlag .headers).slot = i.slot := slot_clearFlag nofun
    refine ⟨rfl, ⟨hslot ▸ h.has, ?_, ?_⟩, Spares.refl⟩
    · exact Shape.clearHeaders (i := i) h.shape
    · rintro _ ⟨⟩

/-- A table that a pool has no memory for is thrown back. If the message had headers, these were in
the pool that is gone. -/
theorem ends_setHeaderTable_of_not_encodable {t : Table} (hne : t ≠ [])
    (ht : encodable (.table t) = false) (h : Good X m i c) :
    Ends (setHeaderTable t) (m, i) (fun _ _ => False) fun e s =>
      e = .badAlloc ∧ Spares X m s.1 ∧ s.2 = i.putPool (some m.top) ∧
        Has s.1 s.2.slot X c.block ∧ Grows (.pool m.top) (renewPool i.tablePool m) s.1 := by
  unfold setHeaderTable
  rw [ends_bind, ends_inTablePool]
  refine (ends_createAmqpTable (h.has.livePool rfl) hne).mono ?_ ?_
  · rintro w s ⟨hok, -⟩
    rw [ht] at hok
    cases hok
  · rintro e s ⟨-, rfl, hs⟩
    obtain ⟨hhas, hspares⟩ := h.has.renewed hs
    exact ⟨rfl, hspares, by rw [hs.pointer], hhas, hs.grows⟩

/-! ### The destructor -/

theorem ends_forM_freeString {l : List StringProperty} (hl : l.Nodup) (h : Has m g X c.block)
    (hg : ∀ p ∈ l, g (.string p) = i.slot (.string p)) :
    Ends (l.forM freeString) (m, i) (fun _ t => t.2 = i ∧
      Changed X m t.1 (fun s => if ∃ p ∈ l, s = .string p then none else g s) c.block)
      fun _ _ => False := by
  induction l generalizing m g with
  | nil =>
    refine ⟨rfl, h.congr (fun s => ?_) fun _ _ _ => rfl, Spares.refl, Calm.refl⟩
    simp
  | cons p l ih =>
    obtain ⟨hp, hl⟩ := List.nodup_cons.mp hl
    change Ends (freeString p >>= fun _ => l.forM freeString) (m, i) _ _
    rw [ends_bind]
    refine (ends_freeString h (hg p (List.mem_cons_self ..)) c.block_string_ne).mono ?_
      fun _ _ he => he
    rintro - ⟨k, i'⟩ ⟨rfl, hk⟩
    have hrest := ih hl hk.has ?_
    · refine hrest.mono ?_ fun _ _ he => he
      rintro - ⟨k', i'⟩ ⟨rfl, hk'⟩
      refine ⟨rfl, hk'.has.congr (fun s => ?_) fun _ _ _ => rfl, hk.spares.trans hk'.spares,
        hk.calm.trans hk'.calm⟩
      rcases eq_or_ne s (.string p) with rfl | hs
      · simp
      · rw [Function.update_of_ne hs]
        simp [hs]
    · intro q hq
      have hqp : q ≠ p := by
        rintro rfl
        exact hp hq
      rw [Function.update_of_ne (by simpa using hqp)]
      exact hg q (List.mem_cons_of_mem _ hq)

theorem ends_destroy (h : Good X m i c) : Ends destroy (m, i)
    (fun _ t => Has t.1 (fun _ => none) X c.block ∧ Spares X m t.1) fun _ _ => False := by
  unfold destroy
  rw [ends_bind, ends_impl, ends_bind, ends_inMemory]
  refine (ends_amqpBytesFree h.has rfl c.block_body_ne).mono ?_ fun _ _ he => he
  rintro - k hk
  rw [ends_bind]
  refine (ends_forM_freeString StringProperty.nodup_all hk.has ?_).mono ?_ fun _ _ he => he
  · intro p _
    rw [Function.update_of_ne (by simp)]
  · rintro - ⟨l, i'⟩ ⟨rfl, hl⟩
    have hpool : Has l (Function.update (fun _ => none) .pool i'.tablePool) X c.block := by
      refine hl.has.congr (fun s => ?_) fun _ _ _ => rfl
      cases s with
      | body => simp
      | string p => simp [StringProperty.mem_all]
      | pool => simp [BasicMessageImpl.slot]
    have hdrop := hpool.dropPool
    have hspares := hpool.spares_dropPool
    have hlive := hpool.livePool rfl
    rw [Function.update_self] at hdrop hspares hlive
    rw [Function.update_idem, Function.update_eq_self] at hdrop
    rw [ends_inTablePool, ends_resetPool hlive]
    exact ⟨hdrop, (hk.spares.trans hl.spares).trans hspares⟩

/-! ### Constructors -/

omit [Documented] in
theorem ends_construct {x : MessageExec Unit} {Q : BasicMessageImpl → Memory → Prop}
    (hx : Ends x (m, emptyImpl) (fun _ t => Q t.2 t.1) fun _ _ => False) :
    Ends (construct x) m Q fun _ _ => False := by
  unfold Ends construct
  cases hrun : x (m, emptyImpl) with
  | ok v t => exact hx.of_ok hrun
  | error e t => exact (hx.of_error hrun).elim

/-- The flags are cleared that are not set. -/
theorem ends_constructWithBody (h : Has m (fun _ => none) X B) :
    Ends (constructWithBody s) (m, emptyImpl)
      (fun _ t => Good X t.1 t.2 { Contents.empty with body := s } ∧ Spares X m t.1)
      fun _ _ => False := by
  unfold constructWithBody
  rw [ends_bind]
  refine (makes_setBody X m emptyImpl (good_emptyImpl h)).mono ?_ fun _ _ he => he
  rintro - ⟨k, i⟩ ⟨-, hk, hspares⟩
  rw [ends_update]
  have hzero : ∀ q, { i with properties.flags := 0 }.isSet q = false :=
    fun _ => isSet_of_flags_zero rfl
  have hslot : { i with properties.flags := 0 }.slot = i.slot := by
    funext t
    cases t with
    | body => rfl
    | pool => rfl
    | string p =>
      have hp : i.isSet (.string p) = false := hk.shape.isSet p
      rw [slot_string, slot_string, hzero, hp]
  refine ⟨⟨hslot ▸ hk.has, ⟨hk.shape.body, fun _ => hzero _, nofun, fun n => ?_, hzero _⟩,
    nofun⟩, hspares⟩
  rw [hzero]
  rfl

/-- What the properties of a content that has come are: all of it is in memory of the connection. -/
structure Delivered (m : Memory) (ch : UInt16) (i : BasicMessageImpl) (c : Contents) : Prop where
  isSet : ∀ p, i.isSet (.string p) = (c.strings p).isSome
  string : ∀ p, ∀ s ∈ c.strings p, Spells m (m.owned (.channel ch)) (i.properties.strings p) s
  number : ∀ n, (if i.isSet (.number n) then some (i.properties.numbers n) else none) =
    c.numbers n
  headers : i.isSet .headers = c.headers.isSome
  table : ∀ es ∈ c.headers, DenotesTable m (m.owned (.channel ch)) es i.properties.headers

theorem ends_dupString (h : Has m g X c.block) (hg : g (.string p) = none)
    (hset : i.isSet (.string p) = true) (hs : c.strings p = some s)
    (hspells : Spells m R (i.properties.strings p) s) :
    Ends (dupString p) (m, i) (fun _ t => t.2 = i.putString p ⟨s.length, some m.top⟩ ∧
      Has t.1 (Function.update g (.string p) (some m.top)) X c.block ∧ Spares X m t.1)
      fun _ _ => False := by
  unfold dupString
  rw [ends_bind, ends_impl, if_pos hset, ends_bind, ends_inMemory, ends_bind,
    ends_of_eq (loadBytes_eq hspells)]
  refine (ends_amqpBytesMallocDup h _ hg).mono ?_ fun _ _ he => he
  rintro b k ⟨rfl, hk⟩
  refine ⟨rfl, hk.has.congr (fun _ => rfl) fun t a _ => ?_, hk.spares⟩
  rcases eq_or_ne t (.string p) with rfl | ht
  · rw [Function.update_self, c.block_string, hs, Option.getD_some]
  · rw [Function.update_of_ne ht]

/-- The strings of the connection are copied, one after another. -/
theorem ends_forM_dupString {l : List StringProperty} (hl : l.Nodup) (h : Has m g X c.block)
    (hg : ∀ p ∈ l, g (.string p) = none) (hset : ∀ p, i.isSet (.string p) = (c.strings p).isSome)
    (hs : ∀ p ∈ l, ∀ s ∈ c.strings p,
      Spells m (m.owned (.channel ch)) (i.properties.strings p) s) :
    Ends (l.forM dupString) (m, i) (fun _ t => ∃ f, t.2 = i.putStrings f ∧
      (∀ p ∉ l, f p = i.properties.strings p) ∧ (∀ p ∈ l, ∀ s ∈ c.strings p, Spelled (f p) s) ∧
      Has t.1 (fun s => if ∃ p ∈ l, s = .string p then t.2.slot s else g s) X c.block ∧
      Spares X m t.1) fun _ _ => False := by
  induction l generalizing m g i with
  | nil =>
    refine ⟨_, rfl, fun _ _ => rfl, nofun, h.congr (fun s => ?_) fun _ _ _ => rfl, Spares.refl⟩
    simp
  | cons p l ih =>
    obtain ⟨hp, hl⟩ := List.nodup_cons.mp hl
    have hne : ∀ q ∈ l, q ≠ p := fun q hq h => hp (h ▸ hq)
    change Ends (dupString p >>= fun _ => l.forM dupString) (m, i) _ _
    rw [ends_bind]
    cases hsp : c.strings p with
    | none =>
      have hunset : i.isSet (.string p) = false := by rw [hset, hsp, Option.isSome_none]
      have hdup : dupString p (m, i) = .ok () (m, i) := by
        apply Ends.eq_ok
        unfold dupString
        rw [ends_bind, ends_impl, hunset]
        exact ⟨rfl, rfl⟩
      rw [ends_of_eq hdup]
      refine (ih hl h (fun q hq => hg q (List.mem_cons_of_mem _ hq)) hset
        fun q hq => hs q (List.mem_cons_of_mem _ hq)).mono ?_ fun _ _ he => he
      rintro - ⟨k, j⟩ ⟨f, rfl, hf, hspelled, hk, hspares⟩
      refine ⟨f, rfl, fun q hq => hf q fun hmem => hq (List.mem_cons_of_mem _ hmem), ?_,
        hk.congr (fun t => ?_) fun _ _ _ => rfl, hspares⟩
      · intro q hq s hqs
        rcases List.mem_cons.mp hq with rfl | hq
        · rw [hsp] at hqs
          cases hqs
        · exact hspelled q hq s hqs
      · refine slots_cons hp ?_ (fun _ _ => rfl) t
        rw [slot_putStrings, hunset, hg p (List.mem_cons_self ..), if_neg Bool.false_ne_true]
    | some s =>
      have hisSet : i.isSet (.string p) = true := by rw [hset, hsp, Option.isSome_some]
      refine (ends_dupString h (hg p (List.mem_cons_self ..)) hisSet hsp
        (hs p (List.mem_cons_self ..) s hsp)).mono ?_ fun _ _ he => he
      rintro - ⟨k, j⟩ ⟨rfl, hk, hspares⟩
      have hrest := ih (i := i.putString p ⟨s.length, some m.top⟩) hl hk ?_ hset ?_
      · refine hrest.mono ?_ fun _ _ he => he
        rintro - ⟨k', j⟩ ⟨f, rfl, hf, hspelled, hk', hspares'⟩
        have hfp : f p = ⟨s.length, some m.top⟩ := (hf p hp).trans (Function.update_self ..)
        refine ⟨f, rfl, ?_, ?_, hk'.congr (fun t => ?_) fun _ _ _ => rfl, hspares.trans hspares'⟩
        · intro q hq
          rw [List.mem_cons, not_or] at hq
          exact (hf q hq.2).trans (Function.update_of_ne hq.1 ..)
        · intro q hq u hu
          rcases List.mem_cons.mp hq with rfl | hq
          · rw [hfp]
            rw [hsp] at hu
            cases hu
            exact spelled_dup
          · exact hspelled q hq u hu
        · refine slots_cons hp ?_ (fun t ht => (Function.update_of_ne ht ..).symm) t
          rw [slot_putStrings, isSet_putString, if_pos hisSet, Function.update_self, hfp]
      · intro q hq
        rw [Function.update_of_ne (by simpa using hne q hq)]
        exact hg q (List.mem_cons_of_mem _ hq)
      · intro q hq u hu
        have hput : (i.putString p ⟨s.length, some m.top⟩).properties.strings q =
            i.properties.strings q := Function.update_of_ne (hne q hq) ..
        rw [hput]
        exact (hs q (List.mem_cons_of_mem _ hq) u hu).moves hspares.moves_channel

omit [Documented] in
theorem copyTable_nil {n : ℕ} {w : AmqpTable} {pool : Option ℕ}
    (hw : DenotesTable m R [] w) : copyTable n w (m, pool) = .ok amqpEmptyTable (m, pool) := by
  obtain ⟨-, hlen, -, -⟩ := hw
  have hzero : w.numEntries = 0 := hlen
  unfold copyTable
  rw [if_pos hzero]
  rfl

/-- The headers are copied to a pool of the message. -/
theorem ends_copyHeaders {n : ℕ} {es : List (Bytes × Wire)} (h : Has m i.slot X c.block)
    (hi : Shape i c) (hc : c.headers = some es) (hes : es = [] ∨ copyable (.table es) = true)
    (hn : depthEntries es < n)
    (ht : DenotesTable m (m.owned (.channel ch)) es i.properties.headers) :
    Ends (do
      let headers ← inTablePool (copyTable n i.properties.headers)
      update (·.putHeaders headers)) (m, i)
      (fun _ t => Good X t.1 t.2 c ∧ Spares X m t.1) fun _ _ => False := by
  have htable : ∀ {k : Memory} {pool : Option ℕ} {w : AmqpTable},
      DenotesTable k (poolMemory k pool) es w →
        ∀ es ∈ c.headers, DenotesTable k (poolMemory k pool) es w := by
    intro k pool w hw es' hes'
    rw [hc] at hes'
    cases hes'
    exact hw
  rw [ends_bind, ends_inTablePool]
  by_cases hnil : es = []
  · subst hnil
    rw [ends_of_eq (copyTable_nil ht)]
    exact ⟨⟨h, hi.putTable, htable denotesTable_nil⟩, Spares.refl⟩
  · refine Ends.mono (ends_copyTable (o := .channel ch) (h.livePool rfl) nofun (by simp) hnil hn
      ht) ?_ ?_
    · rintro w s ⟨-, hs, hw⟩
      obtain ⟨hhas, hspares⟩ := h.renewed hs
      rw [← poolMemory_some, ← hs.pointer] at hw
      exact ⟨⟨hhas, hi.putTable, htable hw⟩, hspares⟩
    · rintro e s ⟨hfail, -⟩
      rw [hes.resolve_left hnil] at hfail
      cases hfail

/-- A message is made from a content that has come: it shares nothing with the connection. -/
theorem ends_createMessage {n : ℕ} {properties : AmqpBasicProperties}
    (h : Has m (fun _ => none) X B)
    (hd : Delivered m ch { emptyImpl with properties := properties } c)
    (hcopy : ∀ es ∈ c.headers, es = [] ∨ copyable (.table es) = true)
    (hn : ∀ es ∈ c.headers, depthEntries es < n) :
    Ends (createMessage n s properties) m
      (fun i k => Good X k i { c with body := s } ∧ Spares X m k) fun _ _ => False := by
  unfold createMessage
  rw [ends_bind]
  refine (ends_amqpBytesMallocDup h .body rfl).mono ?_ fun _ _ he => he
  rintro b k ⟨rfl, hk⟩
  apply ends_construct
  unfold constructFrom
  rw [ends_bind, ends_update, ends_bind]
  have hbody : Has k (Function.update (fun _ => none) .body (some m.top)) X
      { c with body := s }.block := by
    refine hk.has.congr (fun _ => rfl) fun t a ht => ?_
    cases t with
    | body => rfl
    | string p => simp at ht
    | pool => simp at ht
  have hstrings := ends_forM_dupString (l := StringProperty.all)
    (i := ⟨properties, ⟨s.length, some m.top⟩, none⟩) StringProperty.nodup_all hbody
    (fun p _ => by simp) hd.isSet
    fun p _ u hu => (hd.string p u hu).moves hk.spares.moves_channel
  refine hstrings.mono ?_ fun _ _ he => he
  rintro - ⟨l, j⟩ ⟨f, rfl, -, hspelled, hl, hspares⟩
  have hhas : Has l (BasicMessageImpl.putStrings ⟨properties, ⟨s.length, some m.top⟩, none⟩ f).slot
      X { c with body := s }.block := by
    refine hl.congr (fun t => ?_) fun _ _ _ => rfl
    cases t with
    | body => simp [BasicMessageImpl.slot, BasicMessageImpl.putStrings]
    | string p => simp [StringProperty.mem_all]
    | pool => simp [BasicMessageImpl.slot, BasicMessageImpl.putStrings]
  have hshape : Shape (BasicMessageImpl.putStrings ⟨properties, ⟨s.length, some m.top⟩, none⟩ f)
      { c with body := s } :=
    ⟨spelled_dup, hd.isSet, fun p u hu => hspelled p (StringProperty.mem_all p) u hu, hd.number,
      hd.headers⟩
  have hall : Spares X m l := hk.spares.trans hspares
  rw [ends_bind, ends_impl]
  split_ifs with hset
  · obtain ⟨es, hc⟩ := Option.isSome_iff_exists.mp (hshape.headers.symm.trans hset)
    refine (ends_copyHeaders hhas hshape hc (hcopy es hc) (hn es hc)
      ((hd.table es hc).moves hall.moves_channel)).mono ?_ fun _ _ he => he
    exact fun _ t ht => ⟨ht.1, hall.trans ht.2⟩
  · refine ⟨⟨hhas, hshape, fun es hes => absurd ?_ hset⟩, hall⟩
    exact hshape.headers.trans (Option.isSome_iff_exists.mpr ⟨es, hes⟩)

end Vs17.Amqp.Tables
