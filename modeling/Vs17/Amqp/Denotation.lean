import Mathlib.Data.List.Forall2
import Vs17.Amqp.Wire

/-! # Tables in memory

A field value in memory denotes a tree. Which one it is depends on some of the blocks only, and
this is what `CreateTable` reads.
-/

namespace Vs17.Amqp.Tables

open Calls Heap Dictionaries

variable {h k m : Memory} {R S : Set ℕ} {n : ℕ}

/-- The pointer is to a live block, one of those at these addresses. -/
def Holds (h : Memory) (R : Set ℕ) (p : Ptr) (b : Block) : Prop :=
  ∃ a ∈ R, p = some a ∧ ∃ o, h.block? a = some (o, b)

def Spells (h : Memory) (R : Set ℕ) (b : AmqpBytes) (s : Bytes) : Prop :=
  b.len = s.length ∧ (s ≠ [] → Holds h R b.bytes (.bytes s))

mutual

def Denotes (h : Memory) (R : Set ℕ) : Wire → AmqpFieldValue → Prop
  | .plain w, v => v = .plain w
  | .utf8 s, v => ∃ b, v = .utf8 b ∧ Spells h R b s
  | .bytes s, v => ∃ b, v = .bytes b ∧ Spells h R b s
  | .array xs, v => ∃ a vs, v = .array a ∧ a.numEntries = xs.length ∧
      (xs ≠ [] → Holds h R a.entries (.values vs)) ∧ DenotesValues h R xs vs
  | .table es, v => ∃ t ls, v = .table t ∧ t.numEntries = es.length ∧
      (es ≠ [] → Holds h R t.entries (.entries ls)) ∧ DenotesEntries h R es ls

def DenotesValues (h : Memory) (R : Set ℕ) : List Wire → List AmqpFieldValue → Prop
  | [], vs => vs = []
  | x :: xs, vs => ∃ v vs', vs = v :: vs' ∧ Denotes h R x v ∧ DenotesValues h R xs vs'

def DenotesEntries (h : Memory) (R : Set ℕ) :
    List (Bytes × Wire) → List AmqpTableEntry → Prop
  | [], ls => ls = []
  | (key, x) :: es, ls => ∃ l ls', ls = l :: ls' ∧ (Spells h R l.key key ∧ Denotes h R x l.value) ∧
      DenotesEntries h R es ls'

end

def DenotesEntry (h : Memory) (R : Set ℕ) (e : Bytes × Wire) (l : AmqpTableEntry) : Prop :=
  Spells h R l.key e.1 ∧ Denotes h R e.2 l.value

def DenotesTable (h : Memory) (R : Set ℕ) (es : List (Bytes × Wire)) (t : AmqpTable) : Prop :=
  ∃ ls, t.numEntries = es.length ∧ (es ≠ [] → Holds h R t.entries (.entries ls)) ∧
    List.Forall₂ (DenotesEntry h R) es ls

theorem denotesValues_iff {xs : List Wire} {vs : List AmqpFieldValue} :
    DenotesValues h R xs vs ↔ List.Forall₂ (Denotes h R) xs vs := by
  induction xs generalizing vs with
  | nil => rw [DenotesValues, List.forall₂_nil_left_iff]
  | cons x xs ih =>
    rw [DenotesValues, List.forall₂_cons_left_iff]
    constructor
    · rintro ⟨v, vs', rfl, hv, hvs⟩
      exact ⟨v, vs', hv, ih.mp hvs, rfl⟩
    · rintro ⟨v, vs', hv, hvs, rfl⟩
      exact ⟨v, vs', rfl, hv, ih.mpr hvs⟩

theorem denotesEntries_iff {es : List (Bytes × Wire)} {ls : List AmqpTableEntry} :
    DenotesEntries h R es ls ↔ List.Forall₂ (DenotesEntry h R) es ls := by
  induction es generalizing ls with
  | nil => rw [DenotesEntries, List.forall₂_nil_left_iff]
  | cons e es ih =>
    rw [DenotesEntries, List.forall₂_cons_left_iff]
    constructor
    · rintro ⟨l, ls', rfl, hl, hls⟩
      exact ⟨l, ls', hl, ih.mp hls, rfl⟩
    · rintro ⟨l, ls', hl, hls, rfl⟩
      exact ⟨l, ls', rfl, hl, ih.mpr hls⟩

theorem denotes_array {xs : List Wire} {v : AmqpFieldValue} : Denotes h R (.array xs) v ↔
    ∃ a vs, v = .array a ∧ a.numEntries = xs.length ∧
      (xs ≠ [] → Holds h R a.entries (.values vs)) ∧ List.Forall₂ (Denotes h R) xs vs := by
  rw [Denotes]
  simp only [denotesValues_iff]

theorem denotes_table {es : List (Bytes × Wire)} {v : AmqpFieldValue} :
    Denotes h R (.table es) v ↔ ∃ t, v = .table t ∧ DenotesTable h R es t := by
  rw [Denotes]
  simp only [denotesEntries_iff, DenotesTable]
  constructor
  · rintro ⟨t, ls, hv, hlen, hhold, hls⟩
    exact ⟨t, hv, ls, hlen, hhold, hls⟩
  · rintro ⟨t, hv, ls, hlen, hhold, hls⟩
    exact ⟨t, ls, hv, hlen, hhold, hls⟩

/-! ### What is kept is still denoted -/

theorem Holds.moves {p : Ptr} {b : Block} (hp : Holds h R p b) (hk : Moves R S h k) :
    Holds k S p b := by
  obtain ⟨a, ha, rfl, o, hb⟩ := hp
  obtain ⟨haS, hbk⟩ := hk a ha _ hb
  exact ⟨a, haS, rfl, o, hbk⟩

theorem Spells.moves {b : AmqpBytes} {s : Bytes} (hb : Spells h R b s) (hk : Moves R S h k) :
    Spells k S b s :=
  ⟨hb.1, fun hs => (hb.2 hs).moves hk⟩

theorem Denotes.moves {x : Wire} {v : AmqpFieldValue} (hv : Denotes h R x v)
    (hk : Moves R S h k) : Denotes k S x v := by
  induction x using Wire.induct generalizing v with
  | plain w => exact hv
  | utf8 s =>
    obtain ⟨b, rfl, hb⟩ := hv
    exact ⟨b, rfl, hb.moves hk⟩
  | bytes s =>
    obtain ⟨b, rfl, hb⟩ := hv
    exact ⟨b, rfl, hb.moves hk⟩
  | array xs ih =>
    obtain ⟨a, vs, rfl, hlen, hhold, hvs⟩ := denotes_array.mp hv
    refine denotes_array.mpr ⟨a, vs, rfl, hlen, fun hxs => (hhold hxs).moves hk, ?_⟩
    have hall : List.Forall₂ (fun x v => (∀ {v}, Denotes h R x v → Denotes k S x v) ∧
        Denotes h R x v) xs vs := (List.forall₂_and_left xs vs).mpr ⟨ih, hvs⟩
    exact hall.imp fun x v hx => hx.1 hx.2
  | table es ih =>
    obtain ⟨t, rfl, ls, hlen, hhold, hls⟩ := denotes_table.mp hv
    refine denotes_table.mpr ⟨t, rfl, ls, hlen, fun hes => (hhold hes).moves hk, ?_⟩
    have hall : List.Forall₂ (fun e l => (∀ {v}, Denotes h R e.2 v → Denotes k S e.2 v) ∧
        DenotesEntry h R e l) es ls := (List.forall₂_and_left es ls).mpr ⟨ih, hls⟩
    exact hall.imp fun e l he => ⟨he.2.1.moves hk, he.1 he.2.2⟩

theorem DenotesTable.moves {es : List (Bytes × Wire)} {t : AmqpTable} (ht : DenotesTable h R es t)
    (hk : Moves R S h k) : DenotesTable k S es t := by
  obtain ⟨ls, hlen, hhold, hls⟩ := ht
  refine ⟨ls, hlen, fun hes => (hhold hes).moves hk, ?_⟩
  exact hls.imp fun e l hl => ⟨hl.1.moves hk, hl.2.moves hk⟩

theorem Holds.mono {p : Ptr} {b : Block} (hp : Holds h R p b) (hRS : R ⊆ S) (hk : Keeps R h k) :
    Holds k S p b := hp.moves (hk.moves hRS)

theorem Spells.mono {b : AmqpBytes} {s : Bytes} (hb : Spells h R b s) (hRS : R ⊆ S)
    (hk : Keeps R h k) : Spells k S b s := hb.moves (hk.moves hRS)

theorem Denotes.mono {x : Wire} {v : AmqpFieldValue} (hv : Denotes h R x v) (hRS : R ⊆ S)
    (hk : Keeps R h k) : Denotes k S x v := hv.moves (hk.moves hRS)

/-! ### Reading -/

variable {p : Ptr} {b : Block} {i : ℕ}

theorem load_eq (hp : Holds m R p b) : load p m = .ok b m := by
  obtain ⟨a, -, rfl, o, hb⟩ := hp
  apply Ends.eq_ok
  unfold load
  rw [ends_bind, ends_get, Option.bind_some, hb]
  exact ⟨rfl, rfl⟩

theorem loadBytes_eq {b : AmqpBytes} {s : Bytes} (hb : Spells m R b s) :
    loadBytes b m = .ok s m := by
  obtain ⟨hlen, hhold⟩ := hb
  apply Ends.eq_ok
  unfold loadBytes
  split_ifs with h0
  · rw [hlen, List.length_eq_zero_iff] at h0
    exact ⟨h0.symm, rfl⟩
  · have hs : s ≠ [] := by
      rintro rfl
      exact h0 hlen
    rw [ends_bind, ends_of_eq (load_eq (hhold hs))]
    dsimp only
    rw [if_pos hlen.le, hlen, List.take_length]
    exact ⟨rfl, rfl⟩

theorem loadValue_eq {vs : List AmqpFieldValue} {v : AmqpFieldValue}
    (hp : Holds m R p (.values vs)) (hv : vs[i]? = some v) : loadValue p i m = .ok v m := by
  apply Ends.eq_ok
  unfold loadValue
  rw [ends_bind, ends_of_eq (load_eq hp)]
  dsimp only
  rw [hv]
  exact ⟨rfl, rfl⟩

theorem loadEntry_eq {ls : List AmqpTableEntry} {l : AmqpTableEntry}
    (hp : Holds m R p (.entries ls)) (hl : ls[i]? = some l) : loadEntry p i m = .ok l m := by
  apply Ends.eq_ok
  unfold loadEntry
  rw [ends_bind, ends_of_eq (load_eq hp)]
  dsimp only
  rw [hl]
  exact ⟨rfl, rfl⟩

theorem exists_getElem?_of_forall₂ {α β : Type} {r : α → β → Prop} {xs : List α} {ys : List β}
    (h : List.Forall₂ r xs ys) (hi : i < xs.length) : ∃ y, ys[i]? = some y ∧ r xs[i] y := by
  have hys : i < ys.length := h.length_eq ▸ hi
  exact ⟨ys[i], List.getElem?_eq_getElem hys, h.get hi hys⟩

/-- What the values in a table denote is read before the table is. -/
theorem createTable_eq_of {es : List (Bytes × Wire)} {t : AmqpTable}
    (hread : ∀ e ∈ es, ∀ v, Denotes m R e.2 v → createTableValue n v m = .ok (decode e.2) m)
    (ht : DenotesTable m R es t) :
    createTable (n + 1) t m = .ok (ofEntries (decodeEntries es)) m := by
  obtain ⟨ls, hlen, hhold, hls⟩ := ht
  unfold createTable
  rw [hlen]
  conv_rhs => rw [← List.take_length (l := es)]
  apply upTo_of_ok fun i => ofEntries (decodeEntries (es.take i))
  intro i hi
  obtain ⟨l, hl, hkey, hvalue⟩ := exists_getElem?_of_forall₂ hls hi
  have hes : es ≠ [] := List.ne_nil_of_length_pos (Nat.zero_lt_of_lt hi)
  rw [bind_of_ok (loadEntry_eq (hhold hes) hl), bind_of_ok (loadBytes_eq hkey),
    bind_of_ok (hread _ (List.getElem_mem hi) _ hvalue), List.take_succ_eq_append_getElem hi,
    decodeEntries_eq, decodeEntries_eq, List.map_append, ofEntries, ofEntries, List.foldl_append]
  rfl

/-- A value is read as what its tree is decoded to, if the stack is deep enough. -/
theorem createTableValue_eq {x : Wire} {v : AmqpFieldValue} (hx : depth x ≤ n)
    (hv : Denotes m R x v) : createTableValue n v m = .ok (decode x) m := by
  induction x using Wire.induct generalizing n v with
  | plain w =>
    obtain rfl := hv
    obtain ⟨n, rfl⟩ := Nat.exists_eq_add_one_of_ne_zero (Nat.ne_of_gt hx)
    rfl
  | utf8 s =>
    obtain ⟨b, rfl, hb⟩ := hv
    obtain ⟨n, rfl⟩ := Nat.exists_eq_add_one_of_ne_zero (Nat.ne_of_gt hx)
    exact map_of_ok (loadBytes_eq hb)
  | bytes s =>
    obtain ⟨b, rfl, hb⟩ := hv
    obtain ⟨n, rfl⟩ := Nat.exists_eq_add_one_of_ne_zero (Nat.ne_of_gt hx)
    exact map_of_ok (loadBytes_eq hb)
  | array xs ih =>
    obtain ⟨a, vs, rfl, hlen, hhold, hvs⟩ := denotes_array.mp hv
    rw [depth] at hx
    obtain ⟨n, rfl⟩ := Nat.exists_eq_add_of_le' (Nat.le_of_add_left_le hx)
    rw [Nat.add_le_add_iff_right, depthValues_le] at hx
    have hloop := upTo_of_ok (s := m) (n := xs.length) (f := fun i newArray => do
      let value ← createTableValue n (← loadValue a.entries i)
      pure (newArray ++ [value])) (fun i => (xs.take i).map decode) ?_
    · rw [List.take_length, List.take_zero, List.map_nil] at hloop
      unfold createTableValue
      rw [hlen, bind_of_ok hloop, decode, decodeValues_eq]
      rfl
    · intro i hi
      obtain ⟨v, hv, hxv⟩ := exists_getElem?_of_forall₂ hvs hi
      have hxs : xs ≠ [] := List.ne_nil_of_length_pos (Nat.zero_lt_of_lt hi)
      have hmem : xs[i] ∈ xs := List.getElem_mem hi
      rw [bind_of_ok (loadValue_eq (hhold hxs) hv), bind_of_ok (ih _ hmem (hx _ hmem) hxv),
        List.take_succ_eq_append_getElem hi, List.map_append]
      rfl
  | table es ih =>
    obtain ⟨t, rfl, ht⟩ := denotes_table.mp hv
    rw [depth] at hx
    obtain ⟨n, rfl⟩ := Nat.exists_eq_add_of_le' (Nat.le_of_add_left_le hx)
    rw [Nat.add_le_add_iff_right, depthEntries_le] at hx
    rw [decode]
    exact map_of_ok (createTable_eq_of (fun e he v hev => ih e he (hx e he) hev) ht)

theorem createTable_eq {es : List (Bytes × Wire)} {t : AmqpTable} (hes : depthEntries es < n)
    (ht : DenotesTable m R es t) : createTable n t m = .ok (ofEntries (decodeEntries es)) m := by
  obtain ⟨n, rfl⟩ := Nat.exists_eq_add_one_of_ne_zero (Nat.ne_zero_of_lt hes)
  rw [Nat.lt_succ_iff, depthEntries_le] at hes
  exact createTable_eq_of (fun e he v hev => createTableValue_eq (hes e he) hev) ht

end Vs17.Amqp.Tables
