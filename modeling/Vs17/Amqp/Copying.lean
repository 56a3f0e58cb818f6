import Vs17.Amqp.Denotation

/-! # Tables are made and copied

What is made in a pool denotes the tree that it is made from. Nothing else in memory changes, so it
stays what it is for as long as its pool does.
-/

namespace Vs17.Amqp.Tables

open Calls Heap Dictionaries AmqpMemory

variable {m k : Memory} {R : Set ℕ} {pool a n : ℕ}

/-! ### Memory is given out -/

theorem ends_alloc {o : Owner} {b : Block} {Q : ℕ → Memory → Prop} {E : Fault → Memory → Prop} :
    Ends (alloc o b) m Q E ↔ Q m.top (m.alloc o b) := Iff.rfl

theorem modifyBlock_eq {f : Block → Block} {x : Owner × Block} (ha : m.block? a = some x) :
    modifyBlock f (some a) m = .ok () (m.modify a f) := by
  have hends : Ends (modifyBlock f (some a)) m (fun _ t => t = m.modify a f) fun _ _ => False := by
    unfold modifyBlock
    rw [ends_bind, ends_get, ha]
    exact rfl
  exact Ends.eq_ok (hends.mono (fun _ _ ht => ⟨rfl, ht⟩) fun _ _ he => he)

/-- The call gets new memory from the pool, and no other memory changes. It returns what the
property says about these blocks, or there was no memory for it. -/
def Yields {α : Type} (pool : ℕ) (x : Exec α) (m : Memory) (ok : Bool)
    (D : Memory → Set ℕ → α → Prop) : Prop :=
  Ends x m (fun v k => ok = true ∧ Grows (.pool pool) m k ∧ D k {n | m.top ≤ n} v)
    fun e k => ok = false ∧ e = .badAlloc ∧ Grows (.pool pool) m k

theorem Yields.map {α β : Type} {x : Exec α} {ok : Bool} {D : Memory → Set ℕ → α → Prop}
    {D' : Memory → Set ℕ → β → Prop} {f : α → β} (hx : Yields pool x m ok D)
    (hD : ∀ k R v, D k R v → D' k R (f v)) : Yields pool (f <$> x) m ok D' := by
  unfold Yields at hx ⊢
  rw [map_eq_pure_bind, ends_bind]
  exact hx.mono (fun v k hv => ⟨hv.1, hv.2.1, hD _ _ _ hv.2.2⟩) fun _ _ he => he

theorem Yields.of_read {α β : Type} {x : Exec α} {f : α → Exec β} {v : α} {ok : Bool}
    {D : Memory → Set ℕ → β → Prop} (hx : x m = .ok v m) (hf : Yields pool (f v) m ok D) :
    Yields pool (x >>= f) m ok D := by
  unfold Yields
  rw [ends_bind, ends_of_eq hx]
  exact hf

/-! ### Strings -/

section Bytes

variable {s : Bytes} {size : ℕ} {data : Exec Bytes}

theorem block?_store {f : Block → Block} {o : Owner} {b : Block} :
    ((m.alloc o b).modify m.top f).block? m.top = some (o, f b) := by
  rw [block?_modify, if_pos rfl, block?_alloc_top]
  rfl

theorem memcpy_alloc (hs : s ≠ []) : memcpy (some m.top) s (m.alloc (.pool pool) (.bytes [])) =
    .ok () ((m.alloc (.pool pool) (.bytes [])).modify m.top fun _ => .bytes s) := by
  unfold memcpy
  rw [if_neg hs]
  exact modifyBlock_eq block?_alloc_top

theorem spells_store : Spells
    ((m.alloc (.pool pool) (.bytes [])).modify m.top fun _ => .bytes s) {n | m.top ≤ n}
    ⟨s.length, some m.top⟩ s :=
  ⟨rfl, fun _ => ⟨m.top, le_refl m.top, rfl, _, block?_store⟩⟩

variable [AmqpMemory] [Documented]

theorem ends_amqpPoolAlloc {amount : ℕ} {b : Block} {Q : Ptr → Memory → Prop}
    {E : Fault → Memory → Prop} : Ends (amqpPoolAlloc pool amount b) m Q E ↔
      if amount = 0 then Q none m else Q (some m.top) (m.alloc (.pool pool) b) := by
  split_ifs with h
  · rw [h, Documented.pool_alloc_zero]
    rfl
  · rw [Documented.pool_alloc pool b h]
    rfl

theorem yields_createBytes (hsize : size = s.length)
    (hdata : ∀ k, Grows (.pool pool) m k → data k = .ok s k) :
    Yields pool (createBytes pool size data) m true fun k R b => Spells k R b s := by
  unfold Yields createBytes
  rw [Documented.pool_alloc_bytes, bind_assoc, ends_bind, ends_amqpPoolAlloc]
  subst hsize
  split_ifs with h0
  · rw [List.length_eq_zero_iff] at h0
    subst h0
    rw [pure_bind, ends_bind, ends_of_eq (hdata m (Grows.refl ..))]
    exact ⟨rfl, Grows.refl .., rfl, fun hs => absurd rfl hs⟩
  · have hs : s ≠ [] := fun hs => h0 (List.length_eq_zero_iff.mpr hs)
    rw [pure_bind, ends_bind, ends_of_eq (hdata _ grows_alloc), ends_bind,
      ends_of_eq (memcpy_alloc hs)]
    exact ⟨rfl, fills_modify.grows, spells_store⟩

theorem yields_createKey (hsize : size = s.length)
    (hdata : ∀ k, Grows (.pool pool) m k → data k = .ok s k) :
    Yields pool (createKey pool size data) m (!s.isEmpty) fun k R b => Spells k R b s := by
  unfold Yields createKey
  rw [Documented.pool_alloc_bytes, bind_assoc, ends_bind, ends_amqpPoolAlloc]
  subst hsize
  split_ifs with h0
  · rw [List.length_eq_zero_iff] at h0
    subst h0
    exact ⟨rfl, rfl, Grows.refl ..⟩
  · have hs : s ≠ [] := fun hs => h0 (List.length_eq_zero_iff.mpr hs)
    rw [pure_bind, if_neg (by simp)]
    dsimp only
    rw [ends_bind, ends_of_eq (hdata _ grows_alloc), ends_bind, ends_of_eq (memcpy_alloc hs)]
    exact ⟨by simp [hs], fills_modify.grows, spells_store⟩

end Bytes

/-! ### Arrays -/

section Filling

variable {α β : Type} {D : Memory → Set ℕ → β → α → Prop} {wrap : List α → Block}
  {h : Memory} {xs : List β} {x : β} {ok : Bool}

/-- What elements stand for does not change when their blocks are kept. -/
def Stable (D : Memory → Set ℕ → β → α → Prop) : Prop :=
  ∀ ⦃h k R S x v⦄, D h R x v → R ⊆ S → Keeps R h k → D k S x v

/-- The block at `a` has got the elements for the first of the values. -/
structure Filled (D : Memory → Set ℕ → β → α → Prop) (wrap : List α → Block) (pool a : ℕ)
    (h : Memory) (xs : List β) (m : Memory) : Prop where
  fills : Fills (.pool pool) a h m
  elements : ∃ l, m.block? a = some (.pool pool, wrap l) ∧
    List.Forall₂ (D m {n | a < n}) xs l

theorem Filled.lt_top (hm : Filled D wrap pool a h xs m) : a < m.top := by
  obtain ⟨l, hl, -⟩ := hm.elements
  exact Heap.lt_top hl

theorem filled_nil {o : Block} (ho : o = wrap []) :
    Filled D wrap pool m.top (m.alloc (.pool pool) o) [] (m.alloc (.pool pool) o) where
  fills := (Grows.refl ..).fills
  elements := ⟨[], ho ▸ block?_alloc_top, .nil⟩

theorem Filled.add (hD : Stable D) (hm : Filled D wrap pool a h xs m) {y : Exec α}
    {add : α → Block → Block} (hadd : ∀ v l, add v (wrap l) = wrap (l ++ [v]))
    (hy : Yields pool y m ok fun k R v => D k R x v) :
    Ends (do modifyBlock (add (← y)) (some a)) m
      (fun _ k => ok = true ∧ Filled D wrap pool a h (xs ++ [x]) k)
      fun e k => ok = false ∧ e = .badAlloc ∧ Fills (.pool pool) a h k := by
  rw [ends_bind]
  refine hy.mono ?_ fun e k he => ⟨he.1, he.2.1, hm.fills.trans he.2.2.fills⟩
  rintro v k ⟨hok, hk, hv⟩
  obtain ⟨l, hl, hxs⟩ := hm.elements
  have hka : k.block? a = some (.pool pool, wrap l) := (hk.old a hm.lt_top).trans hl
  rw [ends_of_eq (modifyBlock_eq hka)]
  have hkeeps : Keeps {n | a < n} k (k.modify a (add v)) :=
    fills_modify.keeps (o := .pool pool) (lt_irrefl a)
  refine ⟨hok, (hm.fills.trans hk.fills).trans fills_modify, l ++ [v], ?_, ?_⟩
  · rw [block?_modify, if_pos rfl, hka, ← hadd]
    rfl
  · apply List.rel_append
    · exact hxs.imp fun x v hv => hD hv subset_rfl ((hk.keeps _).trans hkeeps)
    · refine .cons (hD hv ?_ ?_) .nil
      · exact fun n hn => lt_of_lt_of_le hm.lt_top hn
      · exact fills_modify.keeps (o := .pool pool) (not_le.mpr hm.lt_top)

/-- The elements are made one after another, and each is written when it is made. -/
theorem ends_upTo_add (xs : List β) (hD : Stable D) {y : ℕ → Exec α} {add : α → Block → Block}
    {c : β → Bool}
    (hadd : ∀ v l, add v (wrap l) = wrap (l ++ [v])) (hh : Filled D wrap pool a h [] h)
    (hy : ∀ i (hi : i < xs.length) k, Fills (.pool pool) a h k →
      Yields pool (y i) k (c xs[i]) fun k R v => D k R xs[i] v) :
    Ends (upTo (fun i _ => do modifyBlock (add (← y i)) (some a)) () xs.length) h
      (fun _ k => xs.all c = true ∧ Filled D wrap pool a h xs k)
      fun e k => xs.all c = false ∧ e = .badAlloc ∧ Fills (.pool pool) a h k := by
  have hloop := ends_upTo (s := h) (n := xs.length) (a := ())
    (f := fun i _ => do modifyBlock (add (← y i)) (some a))
    (E := fun e k => xs.all c = false ∧ e = .badAlloc ∧ Fills (.pool pool) a h k)
    (fun i _ k => (xs.take i).all c = true ∧ Filled D wrap pool a h (xs.take i) k) ⟨rfl, hh⟩ ?_
  · rw [List.take_length] at hloop
    exact hloop
  · rintro i hi - k ⟨hok, hk⟩
    refine (hk.add hD hadd (hy i hi k hk.fills)).mono ?_ fun e l he => ⟨?_, he.2⟩
    · rintro - l ⟨hc, hl⟩
      rw [List.take_succ_eq_append_getElem hi, List.all_append, hok, Bool.true_and]
      exact ⟨by simpa using hc, hl⟩
    · rw [List.all_eq_false]
      exact ⟨xs[i], List.getElem_mem hi, by simp [he.1]⟩

theorem stable_denotes : Stable Denotes := fun _ _ _ _ _ _ hv hRS hk => hv.mono hRS hk

theorem stable_denotesEntry : Stable DenotesEntry :=
  fun _ _ _ _ _ _ hl hRS hk => ⟨hl.1.mono hRS hk, hl.2.mono hRS hk⟩

abbrev FilledValues := Filled Denotes Block.values

abbrev FilledEntries := Filled DenotesEntry Block.entries

theorem FilledValues.add {xs : List Wire} {x : Wire} (hm : FilledValues pool a h xs m)
    {y : Exec AmqpFieldValue} (hy : Yields pool y m ok fun k R v => Denotes k R x v) :
    Ends (do writeValue (some a) (← y)) m
      (fun _ k => ok = true ∧ FilledValues pool a h (xs ++ [x]) k)
      fun e k => ok = false ∧ e = .badAlloc ∧ Fills (.pool pool) a h k :=
  Filled.add stable_denotes hm (fun _ _ => Block.addValue_values) hy

theorem FilledEntries.add {es : List (Bytes × Wire)} {e : Bytes × Wire}
    (hm : FilledEntries pool a h es m) {y : Exec AmqpTableEntry}
    (hy : Yields pool y m ok fun k R l => DenotesEntry k R e l) :
    Ends (do writeEntry (some a) (← y)) m
      (fun _ k => ok = true ∧ FilledEntries pool a h (es ++ [e]) k)
      fun e k => ok = false ∧ e = .badAlloc ∧ Fills (.pool pool) a h k :=
  Filled.add stable_denotesEntry hm (fun _ _ => Block.addEntry_entries) hy

/-- A key comes before its value. -/
theorem yields_entry {key : Bytes} {x : Wire} {y : Exec AmqpBytes}
    {z : AmqpBytes → Exec AmqpFieldValue} {ok' : Bool}
    (hy : Yields pool y m ok fun k R b => Spells k R b key)
    (hz : ∀ k b, Grows (.pool pool) m k → Yields pool (z b) k ok' fun k R v => Denotes k R x v) :
    Yields pool (do let key ← y; let value ← z key; pure ⟨key, value⟩) m (ok && ok')
      fun k R l => DenotesEntry k R (key, x) l := by
  unfold Yields
  rw [ends_bind]
  refine Ends.mono hy ?_ fun e k he => ⟨by rw [he.1, Bool.false_and], he.2⟩
  rintro b k ⟨hok, hk, hb⟩
  rw [ends_bind]
  refine Ends.mono (hz k b hk) ?_ fun e l he =>
    ⟨by rw [he.1, Bool.and_false], he.2.1, hk.trans he.2.2⟩
  rintro v l ⟨hok', hl, hv⟩
  refine ⟨by rw [hok, hok']; rfl, hk.trans hl, hb.mono subset_rfl (hl.keeps _), ?_⟩
  exact hv.mono (fun n hn => hk.top_le.trans hn) (Keeps.refl _)

/-- What was in memory before a block was given out is kept while the block is filled. -/
theorem Fills.keeps_old {h k : Memory} (hk : Fills (.pool pool) a h k) (hR : ∀ n ∈ R, n < a) :
    Keeps R h k := hk.keeps fun ha => lt_irrefl a (hR a ha)

end Filling

/-! ### The pool of a table -/

/-- A pointer to a pool is null, or it is to the memory of a pool. -/
def LivePool (m : Memory) (pool : Option ℕ) : Prop :=
  ∀ p ∈ pool, m.block? p = some (.malloc, .pool)

/-- What is left when a pool has been emptied and deleted. -/
def dropPool (pool : Option ℕ) (m : Memory) : Memory :=
  pool.elim m fun p => (m.releaseOwned (.pool p)).release p

@[simp]
theorem top_dropPool {pool : Option ℕ} : (dropPool pool m).top = m.top := by
  cases pool with
  | none => rfl
  | some p => exact top_release.trans top_releaseOwned

/-- The memory in which a table gets a new pool instead of an old one. -/
def renewPool (pool : Option ℕ) (m : Memory) : Memory := dropPool pool (m.alloc .malloc .pool)

theorem keeps_dropPool {pool : Option ℕ} (hp : LivePool m pool) {o : Owner}
    (ho : o ≠ .malloc) (hop : ∀ p ∈ pool, o ≠ .pool p) :
    Keeps (m.owned o) m (dropPool pool m) := by
  cases pool with
  | none => exact Keeps.refl _
  | some p =>
    apply (keeps_releaseOwned (hop p rfl)).trans
    apply keeps_release
    rintro ⟨b, hb⟩
    rw [hp p rfl] at hb
    cases hb
    exact ho rfl

theorem keeps_renewPool {pool : Option ℕ} (hp : LivePool m pool) {o : Owner}
    (ho : o ≠ .malloc) (hop : ∀ p ∈ pool, o ≠ .pool p) :
    Keeps (m.owned o) m (renewPool pool m) := by
  have hlive : LivePool (m.alloc .malloc .pool) pool :=
    fun p hpool => keeps_alloc {p} p rfl _ (hp p hpool)
  have howned : (m.alloc .malloc .pool).owned o = m.owned o := grows_alloc.owned_of_ne ho
  exact (keeps_alloc _).trans (howned ▸ keeps_dropPool hlive ho hop)

/-! ### `CreateAmqpTable` -/

theorem sizeof_eq_zero {α : Type} {xs : List α} {size : ℕ} (hsize : size ≠ 0) :
    size * xs.length = 0 ↔ xs = [] := by
  rw [Nat.mul_eq_zero, or_iff_right hsize, List.length_eq_zero_iff]

/-- The array is there when its elements are. -/
theorem ends_array {xs : List Wire} {ok : Bool} {fill : Exec Unit} {h : Memory}
    (hh : h = m.alloc (.pool pool) (.values []))
    (hfill : Ends fill h (fun _ k => ok = true ∧ FilledValues pool m.top h xs k)
      fun e k => ok = false ∧ e = .badAlloc ∧ Fills (.pool pool) m.top h k) :
    Ends (do
      fill
      pure (.array ⟨xs.length, some m.top⟩)) h
      (fun v k => ok = true ∧ Grows (.pool pool) m k ∧ Denotes k {n | m.top ≤ n} (.array xs) v)
      fun e k => ok = false ∧ e = .badAlloc ∧ Grows (.pool pool) m k := by
  subst hh
  rw [ends_bind]
  refine hfill.mono ?_ fun e k he => ⟨he.1, he.2.1, he.2.2.grows⟩
  rintro - k ⟨hok, hk⟩
  obtain ⟨vs, hvs, hall⟩ := hk.elements
  refine ⟨hok, hk.fills.grows, denotes_array.mpr ⟨_, vs, rfl, rfl, ?_, ?_⟩⟩
  · exact fun _ => ⟨m.top, le_refl m.top, rfl, _, hvs⟩
  · exact hall.imp fun x v hv =>
      hv.mono (Set.ofPred_subset_ofPred.mpr fun _ => le_of_lt) (Keeps.refl _)

variable [AmqpMemory]

/-- An entry is made before it is written. -/
theorem generateEntries_cons {p : Ptr} {key : Bytes} {x : TableValue} {t : Table} :
    generateEntries pool p ((key, x) :: t) = (do
      let entry ← (do
        let key ← createKey pool key.length (pure key)
        let value ← generateFieldValue pool x
        pure ⟨key, value⟩)
      writeEntry p entry
      generateEntries pool p t) := by
  rw [generateEntries]
  simp only [bind_assoc, pure_bind]

theorem ends_generateValues {h : Memory} {xs : List TableValue} {done : List Wire}
    (ih : ∀ x ∈ xs, ∀ m, Yields pool (generateFieldValue pool x) m (encodable x)
      fun k R v => Denotes k R (encode x) v)
    (hm : FilledValues pool a h done m) :
    Ends (generateValues pool (some a) xs) m
      (fun _ k => xs.all encodable = true ∧ FilledValues pool a h (done ++ xs.map encode) k)
      fun e k => xs.all encodable = false ∧ e = .badAlloc ∧ Fills (.pool pool) a h k := by
  induction xs generalizing done m with
  | nil =>
    rw [List.map_nil, List.append_nil]
    exact ⟨rfl, hm⟩
  | cons x xs ihxs =>
    rw [generateValues, ← bind_assoc, ends_bind, List.all_cons]
    have hx := hm.add (ih x (List.mem_cons_self ..) m)
    refine hx.mono ?_ fun e k he => ⟨by rw [he.1, Bool.false_and], he.2⟩
    rintro - k ⟨hok, hk⟩
    rw [hok, Bool.true_and, List.map_cons, List.append_cons]
    exact ihxs (fun x hx => ih x (List.mem_cons_of_mem _ hx)) hk

variable [Documented]

theorem ends_generateEntries {h : Memory} {t : Table} {done : List (Bytes × Wire)}
    (ih : ∀ e ∈ t, ∀ m, Yields pool (generateFieldValue pool e.2) m (encodable e.2)
      fun k R v => Denotes k R (encode e.2) v)
    (hm : FilledEntries pool a h done m) :
    Ends (generateEntries pool (some a) t) m
      (fun _ k => (t.all fun e => !e.1.isEmpty && encodable e.2) = true ∧
        FilledEntries pool a h (done ++ t.map (Prod.map id encode)) k)
      fun e k => (t.all fun e => !e.1.isEmpty && encodable e.2) = false ∧ e = .badAlloc ∧
        Fills (.pool pool) a h k := by
  induction t generalizing done m with
  | nil =>
    rw [List.map_nil, List.append_nil]
    exact ⟨rfl, hm⟩
  | cons e t iht =>
    obtain ⟨key, x⟩ := e
    have hkey : Yields pool (createKey pool key.length (pure key)) m (!key.isEmpty)
        fun k R b => Spells k R b key := yields_createKey rfl fun _ _ => rfl
    have hentry := yields_entry hkey fun k _ _ => ih (key, x) (List.mem_cons_self ..) k
    rw [generateEntries_cons, ← bind_assoc, ends_bind, List.all_cons]
    refine (hm.add hentry).mono ?_ fun e k he => ⟨by rw [he.1, Bool.false_and], he.2⟩
    rintro - k ⟨hok, hk⟩
    rw [hok, Bool.true_and, List.map_cons, List.append_cons]
    exact iht (fun e he => ih e (List.mem_cons_of_mem _ he)) hk

/-- The table is there when its entries are. -/
theorem yields_createAmqpTableWith {es : List (Bytes × Wire)} {size : ℕ} {ok : Bool}
    {fill : Ptr → Exec Unit} {h : Memory} (hsize : size = es.length)
    (hh : h = m.alloc (.pool pool) (.entries []))
    (hfill : Ends (fill (some m.top)) h
      (fun _ k => ok = true ∧ FilledEntries pool m.top h es k)
      fun e k => ok = false ∧ e = .badAlloc ∧ Fills (.pool pool) m.top h k) :
    Yields pool (createAmqpTableWith pool size fill) m (!es.isEmpty && ok)
      fun k R t => DenotesTable k R es t := by
  subst hsize hh
  unfold Yields createAmqpTableWith
  rw [ends_bind, ends_amqpPoolAlloc]
  by_cases hes : es = []
  · subst hes
    exact ⟨rfl, rfl, Grows.refl ..⟩
  · have hempty : (!es.isEmpty) = true := by simp [hes]
    rw [if_neg (mt (sizeof_eq_zero (by decide)).mp hes), if_neg (Option.some_ne_none _), hempty,
      Bool.true_and]
    dsimp only
    rw [ends_bind]
    refine hfill.mono ?_ fun e k he => ⟨he.1, he.2.1, he.2.2.grows⟩
    rintro - k ⟨hok, hk⟩
    obtain ⟨ls, hls, hall⟩ := hk.elements
    refine ⟨hok, hk.fills.grows, ls, rfl, fun _ => ⟨m.top, le_refl m.top, rfl, _, hls⟩, ?_⟩
    exact hall.imp fun e l hl =>
      stable_denotesEntry hl (Set.ofPred_subset_ofPred.mpr fun _ => le_of_lt) (Keeps.refl _)

/-- `CreateAmqpTableInner`, when the values in the table are known to be made. -/
theorem yields_table {t : Table}
    (ih : ∀ e ∈ t, ∀ m, Yields pool (generateFieldValue pool e.2) m (encodable e.2)
      fun k R v => Denotes k R (encode e.2) v) :
    Yields pool (createAmqpTableInner pool t) m (encodable (.table t))
      fun k R w => DenotesTable k R (encodeEntries t) w := by
  unfold createAmqpTableInner encodable
  rw [encodableEntries_eq, encodeEntries_eq,
    ← List.isEmpty_map (f := (Prod.map id encode : Bytes × TableValue → Bytes × Wire))]
  exact yields_createAmqpTableWith (List.length_map ..).symm rfl
    (ends_generateEntries ih (filled_nil rfl))

theorem yields_generateFieldValue (x : TableValue) (m : Memory) :
    Yields pool (generateFieldValue pool x) m (encodable x)
      fun k R v => Denotes k R (encode x) v := by
  induction x using TableValue.induct generalizing m with
  | scalar v => exact ⟨rfl, Grows.refl .., rfl⟩
  | string s =>
    unfold generateFieldValue encodable
    exact (yields_createBytes rfl fun _ _ => rfl).map fun k R b hb => ⟨b, rfl, hb⟩
  | array xs ih =>
    unfold generateFieldValue encodable encode
    rw [encodableValues_eq, encodeValues_eq]
    unfold Yields
    rw [ends_bind, ends_amqpPoolAlloc]
    by_cases hxs : xs = []
    · subst hxs
      exact ⟨rfl, rfl, Grows.refl ..⟩
    · have hempty : (!xs.isEmpty) = true := by simp [hxs]
      rw [if_neg (mt (sizeof_eq_zero (by decide)).mp hxs), if_neg (Option.some_ne_none _), hempty,
        Bool.true_and]
      dsimp only
      rw [← List.length_map (f := encode)]
      exact ends_array rfl (ends_generateValues ih (filled_nil rfl))
  | table t ih =>
    have htable := yields_table (m := m) ih
    exact htable.map fun k R w hw => denotes_table.mpr ⟨w, rfl, hw⟩

theorem yields_createAmqpTableInner (t : Table) (m : Memory) :
    Yields pool (createAmqpTableInner pool t) m (encodable (.table t))
      fun k R w => DenotesTable k R (encodeEntries t) w :=
  yields_table fun e _ => yields_generateFieldValue e.2

/-! ### `CopyTable` -/

/-- What the values in a table denote is copied before the table is. -/
theorem yields_copyTableInner_of {es : List (Bytes × Wire)} {t : AmqpTable}
    (ih : ∀ e ∈ es, ∀ m v, (∀ n ∈ R, n < m.top) → Denotes m R e.2 v →
      Yields pool (copyValue pool n v) m (copyable e.2) fun k S w => Denotes k S e.2 w)
    (hR : ∀ n ∈ R, n < m.top) (ht : DenotesTable m R es t) :
    Yields pool (copyTableInner pool (n + 1) t) m (copyable (.table es))
      fun k S w => DenotesTable k S es w := by
  obtain ⟨ls, hlen, hhold, hls⟩ := ht
  unfold copyTableInner copyable
  rw [copyableEntries_eq]
  apply yields_createAmqpTableWith hlen rfl
  have hloop := ends_upTo_add es (c := fun e => !e.1.isEmpty && copyable e.2) (y := fun i => do
      let entry ← loadEntry t.entries i
      let key ← createKey pool entry.key.len (loadBytes entry.key)
      let value ← copyValue pool n entry.value
      pure ⟨key, value⟩) stable_denotesEntry (fun _ _ => Block.addEntry_entries)
    (filled_nil rfl : FilledEntries pool _ (m.alloc _ (.entries [])) [] _) ?_
  · simp only [bind_assoc, pure_bind] at hloop
    rw [hlen]
    exact hloop
  · intro i hi k hk
    have hes : es ≠ [] := List.ne_nil_of_length_pos (Nat.zero_lt_of_lt hi)
    have hkeeps : Keeps R m k := (keeps_alloc R).trans (Fills.keeps_old hk hR)
    have hRk : ∀ n ∈ R, n < k.top := fun n hn =>
      (hR n hn).trans_le (grows_alloc.top_le.trans hk.top_le)
    obtain ⟨l, hl, hkey, hvalue⟩ := exists_getElem?_of_forall₂ hls hi
    apply Yields.of_read (loadEntry_eq ((hhold hes).mono subset_rfl hkeeps) hl)
    apply yields_entry
    · apply yields_createKey hkey.1
      intro k' hk'
      exact loadBytes_eq (hkey.mono subset_rfl (hkeeps.trans (hk'.keeps _)))
    · intro k' b hk'
      apply ih _ (List.getElem_mem hi)
      · exact fun n hn => (hRk n hn).trans_le hk'.top_le
      · exact hvalue.mono subset_rfl (hkeeps.trans (hk'.keeps _))

theorem yields_copyValue {x : Wire} {v : AmqpFieldValue} (hx : depth x ≤ n)
    (hR : ∀ n ∈ R, n < m.top) (hv : Denotes m R x v) :
    Yields pool (copyValue pool n v) m (copyable x) fun k S w => Denotes k S x w := by
  induction x using Wire.induct generalizing n v m with
  | plain w =>
    obtain rfl := hv
    obtain ⟨n, rfl⟩ := Nat.exists_eq_add_one_of_ne_zero (Nat.ne_of_gt hx)
    exact ⟨rfl, Grows.refl .., rfl⟩
  | utf8 s =>
    obtain ⟨b, rfl, hb⟩ := hv
    obtain ⟨n, rfl⟩ := Nat.exists_eq_add_one_of_ne_zero (Nat.ne_of_gt hx)
    unfold copyValue copyable
    refine (yields_createBytes hb.1 fun k hk => ?_).map fun k R b hb => ⟨b, rfl, hb⟩
    exact loadBytes_eq (hb.mono subset_rfl (hk.keeps _))
  | bytes s =>
    obtain ⟨b, rfl, hb⟩ := hv
    obtain ⟨n, rfl⟩ := Nat.exists_eq_add_one_of_ne_zero (Nat.ne_of_gt hx)
    unfold copyValue copyable
    refine (yields_createBytes hb.1 fun k hk => ?_).map fun k R b hb => ⟨b, rfl, hb⟩
    exact loadBytes_eq (hb.mono subset_rfl (hk.keeps _))
  | array xs ih =>
    obtain ⟨a, vs, rfl, hlen, hhold, hvs⟩ := denotes_array.mp hv
    rw [depth] at hx
    obtain ⟨n, rfl⟩ := Nat.exists_eq_add_of_le' (Nat.le_of_add_left_le hx)
    rw [Nat.add_le_add_iff_right, depthValues_le] at hx
    have hloop := ends_upTo_add xs (c := copyable)
      (y := fun i => do copyValue pool n (← loadValue a.entries i))
      stable_denotes (fun _ _ => Block.addValue_values)
      (filled_nil rfl : FilledValues pool _ (m.alloc _ (.values [])) [] _) ?_
    · simp only [bind_assoc] at hloop
      unfold copyValue copyable Yields
      rw [copyableValues_eq, hlen, ends_bind, ends_amqpPoolAlloc]
      by_cases hxs : xs = []
      · subst hxs
        exact ⟨rfl, Grows.refl .., denotes_array.mpr ⟨_, [], rfl, rfl, fun h => absurd rfl h, .nil⟩⟩
      · rw [if_neg (mt (sizeof_eq_zero (by decide)).mp hxs)]
        exact ends_array rfl hloop
    · intro i hi k hk
      have hxs : xs ≠ [] := List.ne_nil_of_length_pos (Nat.zero_lt_of_lt hi)
      have hmem : xs[i] ∈ xs := List.getElem_mem hi
      have hkeeps : Keeps R m k := (keeps_alloc R).trans (Fills.keeps_old hk hR)
      have hRk : ∀ n ∈ R, n < k.top := fun n hn =>
        (hR n hn).trans_le (grows_alloc.top_le.trans hk.top_le)
      obtain ⟨v, hv, hxv⟩ := exists_getElem?_of_forall₂ hvs hi
      apply Yields.of_read (loadValue_eq ((hhold hxs).mono subset_rfl hkeeps) hv)
      exact ih _ hmem (hx _ hmem) hRk (hxv.mono subset_rfl hkeeps)
  | table es ih =>
    obtain ⟨t, rfl, ht⟩ := denotes_table.mp hv
    rw [depth] at hx
    obtain ⟨n, rfl⟩ := Nat.exists_eq_add_of_le' (Nat.le_of_add_left_le hx)
    rw [Nat.add_le_add_iff_right, depthEntries_le] at hx
    refine Yields.map (yields_copyTableInner_of ?_ hR ht) fun k R w hw =>
      denotes_table.mpr ⟨w, rfl, hw⟩
    exact fun e he m v hR hv => ih e he (hx e he) hR hv

theorem yields_copyTableInner {es : List (Bytes × Wire)} {t : AmqpTable}
    (hn : depthEntries es < n) (hR : ∀ n ∈ R, n < m.top) (ht : DenotesTable m R es t) :
    Yields pool (copyTableInner pool n t) m (copyable (.table es))
      fun k S w => DenotesTable k S es w := by
  obtain ⟨n, rfl⟩ := Nat.exists_eq_add_one_of_ne_zero (Nat.ne_zero_of_lt hn)
  rw [Nat.lt_succ_iff, depthEntries_le] at hn
  exact yields_copyTableInner_of (fun e he m v => yields_copyValue (hn e he)) hR ht

/-! ### A new pool for a table -/

theorem freePool_eq {pool : Option ℕ} (hp : LivePool m pool) :
    freePool pool m = .ok () (dropPool pool m) := by
  cases pool with
  | none => rfl
  | some p =>
    have hblock : (m.releaseOwned (.pool p)).block? p = some (.malloc, .pool) :=
      block?_releaseOwned_eq_some.mpr ⟨hp p rfl, nofun⟩
    have hends : Ends (freePool (some p)) m (fun _ k => k = dropPool (some p) m)
        fun _ _ => False := by
      unfold freePool free
      dsimp only
      rw [Documented.empty_pool, ends_bind, ends_modify, ends_bind, ends_get, hblock]
      exact rfl
    exact Ends.eq_ok (hends.mono (fun _ _ hk => ⟨rfl, hk⟩) fun _ _ he => he)

theorem ends_newPool {pool : Option ℕ} (hp : LivePool m pool) {Q : ℕ → Memory × Option ℕ → Prop}
    {E : Fault → Memory × Option ℕ → Prop} :
    Ends newPool (m, pool) Q E ↔ Q m.top (renewPool pool m, some m.top) := by
  have hlive : LivePool (m.alloc .malloc .pool) pool :=
    fun p hpool => keeps_alloc {p} p rfl _ (hp p hpool)
  unfold newPool inMemory
  rw [ends_bind, ends_zoom, ends_alloc, ends_bind, ends_get, ends_bind, ends_zoom,
    ends_of_eq (freePool_eq hlive)]
  rfl

/-- There is a new pool, and nothing has changed but that it has got memory. -/
structure Renewed (m : Memory) (pool : Option ℕ) (s : Memory × Option ℕ) : Prop where
  pointer : s.2 = some m.top
  grows : Grows (.pool m.top) (renewPool pool m) s.1

theorem ends_inNewPool {pool : Option ℕ} (hp : LivePool m pool) {f : ℕ → Exec AmqpTable}
    {es : List (Bytes × Wire)} {ok : Bool}
    (hf : Yields m.top (f m.top) (renewPool pool m) ok fun k R w => DenotesTable k R es w) :
    Ends (do
      let pool ← newPool
      inMemory (f pool)) (m, pool)
      (fun w s => ok = true ∧ Renewed m pool s ∧
        DenotesTable s.1 (s.1.owned (.pool m.top)) es w)
      fun e s => ok = false ∧ e = .badAlloc ∧ Renewed m pool s := by
  rw [ends_bind, ends_newPool hp, inMemory, ends_zoom]
  refine Ends.mono hf ?_ fun e k he => ⟨he.1, he.2.1, rfl, he.2.2⟩
  rintro w k ⟨hok, hk, hw⟩
  refine ⟨hok, ⟨rfl, hk⟩, hw.moves ?_⟩
  intro a ha x hx
  obtain ⟨b, hb⟩ := hk.new a ha (Heap.lt_top hx)
  exact ⟨⟨b, hb⟩, hx⟩

theorem ends_createAmqpTable {t : Table} {pool : Option ℕ} (hp : LivePool m pool) (ht : t ≠ []) :
    Ends (createAmqpTable t) (m, pool)
      (fun w s => encodable (.table t) = true ∧ Renewed m pool s ∧
        DenotesTable s.1 (s.1.owned (.pool m.top)) (encodeEntries t) w)
      fun e s => encodable (.table t) = false ∧ e = .badAlloc ∧ Renewed m pool s := by
  unfold createAmqpTable
  rw [if_neg (mt List.length_eq_zero_iff.mp ht)]
  exact ends_inNewPool hp (yields_createAmqpTableInner t _)

theorem ends_copyTable {es : List (Bytes × Wire)} {w : AmqpTable} {pool : Option ℕ} {o : Owner}
    (hp : LivePool m pool) (ho : o ≠ .malloc) (hop : ∀ p ∈ pool, o ≠ .pool p) (hes : es ≠ [])
    (hn : depthEntries es < n) (hw : DenotesTable m (m.owned o) es w) :
    Ends (copyTable n w) (m, pool)
      (fun w s => copyable (.table es) = true ∧ Renewed m pool s ∧
        DenotesTable s.1 (s.1.owned (.pool m.top)) es w)
      fun e s => copyable (.table es) = false ∧ e = .badAlloc ∧ Renewed m pool s := by
  have hlen : w.numEntries ≠ 0 := by
    obtain ⟨ls, hlen, -, -⟩ := hw
    rw [hlen]
    exact mt List.length_eq_zero_iff.mp hes
  unfold copyTable
  rw [if_neg hlen]
  apply ends_inNewPool hp
  have htop : (renewPool pool m).top = m.top + 1 := top_dropPool.trans top_alloc
  have hkept : DenotesTable (renewPool pool m) (m.owned o) es w :=
    hw.moves ((keeps_renewPool hp ho hop).moves subset_rfl)
  refine yields_copyTableInner hn ?_ hkept
  rintro a ⟨b, hb⟩
  rw [htop]
  exact Nat.lt_succ_of_lt (Heap.lt_top hb)

end Vs17.Amqp.Tables
