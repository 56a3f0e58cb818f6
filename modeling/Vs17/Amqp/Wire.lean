import Vs17.Amqp.Table

/-! # What a table of the library stands for

A field value stands for a tree. The tree says which table is made from it, and which tree a table
is made into.
-/

namespace Vs17.Amqp.Tables

open Dictionaries

inductive Wire
  | plain (value : Plain)
  | utf8 (s : Bytes)
  | bytes (s : Bytes)
  | array (xs : List Wire)
  | table (es : List (Bytes × Wire))

/-! ### Induction

A value that holds others comes with what is known about these. -/

@[elab_as_elim]
theorem TableValue.induct {motive : TableValue → Prop} (scalar : ∀ v, motive (.scalar v))
    (string : ∀ s, motive (.string s))
    (array : ∀ xs, (∀ x ∈ xs, motive x) → motive (.array xs))
    (table : ∀ t : List (Bytes × TableValue), (∀ e ∈ t, motive e.2) → motive (.table t))
    (x : TableValue) : motive x :=
  @TableValue.rec motive (fun xs => ∀ x ∈ xs, motive x) (fun t => ∀ e ∈ t, motive e.2)
    (fun e => motive e.2) scalar string array table (List.forall_mem_nil _)
    (fun _ _ hx hxs => List.forall_mem_cons.mpr ⟨hx, hxs⟩) (List.forall_mem_nil _)
    (fun _ _ he ht => List.forall_mem_cons.mpr ⟨he, ht⟩) (fun _ _ hx => hx) x

@[elab_as_elim]
theorem Wire.induct {motive : Wire → Prop} (plain : ∀ v, motive (.plain v))
    (utf8 : ∀ s, motive (.utf8 s)) (bytes : ∀ s, motive (.bytes s))
    (array : ∀ xs, (∀ x ∈ xs, motive x) → motive (.array xs))
    (table : ∀ es : List (Bytes × Wire), (∀ e ∈ es, motive e.2) → motive (.table es))
    (x : Wire) : motive x :=
  @Wire.rec motive (fun xs => ∀ x ∈ xs, motive x) (fun es => ∀ e ∈ es, motive e.2)
    (fun e => motive e.2) plain utf8 bytes array table (List.forall_mem_nil _)
    (fun _ _ hx hxs => List.forall_mem_cons.mpr ⟨hx, hxs⟩) (List.forall_mem_nil _)
    (fun _ _ he hes => List.forall_mem_cons.mpr ⟨he, hes⟩) (fun _ _ hx => hx) x

/-! ### From tables to trees -/

mutual

def encode : TableValue → Wire
  | .scalar value => .plain (generateScalar value)
  | .string s => .utf8 s
  | .array xs => .array (encodeValues xs)
  | .table t => .table (encodeEntries t)

def encodeValues : List TableValue → List Wire
  | [] => []
  | x :: xs => encode x :: encodeValues xs

def encodeEntries : List (Bytes × TableValue) → List (Bytes × Wire)
  | [] => []
  | (key, x) :: t => (key, encode x) :: encodeEntries t

end

@[simp]
theorem encodeValues_eq {xs : List TableValue} : encodeValues xs = xs.map encode := by
  induction xs with
  | nil => rfl
  | cons x xs ih => rw [encodeValues, ih, List.map_cons]

@[simp]
theorem encodeEntries_eq {t : List (Bytes × TableValue)} :
    encodeEntries t = t.map (Prod.map id encode) := by
  induction t with
  | nil => rfl
  | cons e t ih => rw [encodeEntries, ih, List.map_cons, Prod.map, id]

/-! ### From trees to tables -/

mutual

def decode : Wire → TableValue
  | .plain value => .scalar (createScalar value)
  | .utf8 s => .string s
  | .bytes s => .string s
  | .array xs => .array (decodeValues xs)
  | .table es => .table (ofEntries (decodeEntries es))

def decodeValues : List Wire → List TableValue
  | [] => []
  | x :: xs => decode x :: decodeValues xs

def decodeEntries : List (Bytes × Wire) → List (Bytes × TableValue)
  | [] => []
  | (key, x) :: es => (key, decode x) :: decodeEntries es

end

@[simp]
theorem decodeValues_eq {xs : List Wire} : decodeValues xs = xs.map decode := by
  induction xs with
  | nil => rfl
  | cons x xs ih => rw [decodeValues, ih, List.map_cons]

@[simp]
theorem decodeEntries_eq {es : List (Bytes × Wire)} :
    decodeEntries es = es.map (Prod.map id decode) := by
  induction es with
  | nil => rfl
  | cons e es ih => rw [decodeEntries, ih, List.map_cons, Prod.map, id]

/-! ### Tables are maps -/

mutual

/-- Each table in the value is a map. -/
def Proper : TableValue → Prop
  | .scalar _ => True
  | .string _ => True
  | .array xs => ProperValues xs
  | .table t => Strict t ∧ ProperEntries t

def ProperValues : List TableValue → Prop
  | [] => True
  | x :: xs => Proper x ∧ ProperValues xs

def ProperEntries : List (Bytes × TableValue) → Prop
  | [] => True
  | (_, x) :: t => Proper x ∧ ProperEntries t

end

@[simp]
theorem properValues_iff {xs : List TableValue} : ProperValues xs ↔ ∀ x ∈ xs, Proper x := by
  induction xs with
  | nil => simp [ProperValues]
  | cons x xs ih => simp [ProperValues, ih]

@[simp]
theorem properEntries_iff {t : List (Bytes × TableValue)} :
    ProperEntries t ↔ ∀ e ∈ t, Proper e.2 := by
  induction t with
  | nil => simp [ProperEntries]
  | cons e t ih => simp [ProperEntries, ih]

theorem createScalar_generateScalar (v : Scalar) : createScalar (generateScalar v) = v := by
  cases v <;> rfl

theorem decode_encode {x : TableValue} (hx : Proper x) : decode (encode x) = x := by
  induction x using TableValue.induct with
  | scalar v => rw [encode, decode, createScalar_generateScalar]
  | string s => rw [encode, decode]
  | array xs ih =>
    rw [Proper, properValues_iff] at hx
    have hmap : xs.map (decode ∘ encode) = xs := by
      conv_rhs => rw [← List.map_id xs]
      exact List.map_congr_left fun x hmem => ih x hmem (hx x hmem)
    rw [encode, decode, encodeValues_eq, decodeValues_eq, List.map_map, hmap]
  | table t ih =>
    rw [Proper, properEntries_iff] at hx
    have hmap : t.map (Prod.map id decode ∘ Prod.map id encode) = t := by
      conv_rhs => rw [← List.map_id t]
      apply List.map_congr_left
      rintro ⟨key, x⟩ he
      exact congrArg (key, ·) (ih _ he (hx.2 _ he))
    rw [encode, decode, encodeEntries_eq, decodeEntries_eq, List.map_map, hmap,
      ofEntries_of_strict hx.1]

theorem proper_decode (x : Wire) : Proper (decode x) := by
  induction x using Wire.induct with
  | plain v => rw [decode, Proper]; trivial
  | utf8 s => rw [decode, Proper]; trivial
  | bytes s => rw [decode, Proper]; trivial
  | array xs ih =>
    rw [decode, Proper, properValues_iff, decodeValues_eq]
    exact List.forall_mem_map.mpr ih
  | table es ih =>
    rw [decode, Proper, properEntries_iff, decodeEntries_eq]
    refine ⟨strict_ofEntries, fun e he => ?_⟩
    obtain ⟨e, hmem, rfl⟩ := List.mem_map.mp (mem_ofEntries he)
    exact ih e hmem

/-! ### What a pool has no memory for

A request of 0 bytes gets `NULL`, and a key, a table or an array that gets it is taken for one
that there is no memory for. -/

mutual

def encodable : TableValue → Bool
  | .scalar _ => true
  | .string _ => true
  | .array xs => !xs.isEmpty && encodableValues xs
  | .table t => !t.isEmpty && encodableEntries t

def encodableValues : List TableValue → Bool
  | [] => true
  | x :: xs => encodable x && encodableValues xs

def encodableEntries : List (Bytes × TableValue) → Bool
  | [] => true
  | (key, x) :: t => !key.isEmpty && encodable x && encodableEntries t

end

mutual

/-- An array of no values can be copied, if it cannot be made. -/
def copyable : Wire → Bool
  | .plain _ => true
  | .utf8 _ => true
  | .bytes _ => true
  | .array xs => copyableValues xs
  | .table es => !es.isEmpty && copyableEntries es

def copyableValues : List Wire → Bool
  | [] => true
  | x :: xs => copyable x && copyableValues xs

def copyableEntries : List (Bytes × Wire) → Bool
  | [] => true
  | (key, x) :: es => !key.isEmpty && copyable x && copyableEntries es

end

@[simp]
theorem encodableValues_eq {xs : List TableValue} : encodableValues xs = xs.all encodable := by
  induction xs with
  | nil => rfl
  | cons x xs ih => rw [encodableValues, ih, List.all_cons]

@[simp]
theorem encodableEntries_eq {t : List (Bytes × TableValue)} :
    encodableEntries t = t.all fun e => !e.1.isEmpty && encodable e.2 := by
  induction t with
  | nil => rfl
  | cons e t ih => rw [encodableEntries, ih, List.all_cons]

@[simp]
theorem copyableValues_eq {xs : List Wire} : copyableValues xs = xs.all copyable := by
  induction xs with
  | nil => rfl
  | cons x xs ih => rw [copyableValues, ih, List.all_cons]

@[simp]
theorem copyableEntries_eq {es : List (Bytes × Wire)} :
    copyableEntries es = es.all fun e => !e.1.isEmpty && copyable e.2 := by
  induction es with
  | nil => rfl
  | cons e es ih => rw [copyableEntries, ih, List.all_cons]

/-! ### Depth -/

mutual

/-- How many calls a value is read or copied with, one inside the other. -/
def depth : Wire → ℕ
  | .plain _ => 1
  | .utf8 _ => 1
  | .bytes _ => 1
  | .array xs => depthValues xs + 1
  | .table es => depthEntries es + 2

def depthValues : List Wire → ℕ
  | [] => 0
  | x :: xs => max (depth x) (depthValues xs)

def depthEntries : List (Bytes × Wire) → ℕ
  | [] => 0
  | (_, x) :: es => max (depth x) (depthEntries es)

end

theorem depthValues_le {xs : List Wire} {n : ℕ} :
    depthValues xs ≤ n ↔ ∀ x ∈ xs, depth x ≤ n := by
  induction xs with
  | nil => simp [depthValues]
  | cons x xs ih => simp [depthValues, ih]

theorem depthEntries_le {es : List (Bytes × Wire)} {n : ℕ} :
    depthEntries es ≤ n ↔ ∀ e ∈ es, depth e.2 ≤ n := by
  induction es with
  | nil => simp [depthEntries]
  | cons e es ih => simp [depthEntries, ih]

end Vs17.Amqp.Tables
