import Vs17.Monitor.IOStatistic

/-! # The two calls of `getIOStatistic`

The first call gives the first row of each MAC address a slot, until there are as many as adapters.
The second one takes the differences. A MAC address that it does not know goes to the slot behind
those in use, which two rows are written to.
-/

namespace Vs17.Monitor.IOStatistic

open Slots
open CString (bind_ok_iff)

/-- The first row of each MAC address. -/
def firstRows (table : List MibIfRow) : List MibIfRow := records (·.mac) (usableRows table)

/-- The rows that have a slot after the first call. -/
def recorded (size : ℕ) (t₁ : List MibIfRow) : List MibIfRow := (firstRows t₁).take size

/-- Behind the rows `pre`, every usable row that is read before `size` MAC addresses have occurred
has a short address. -/
def ReadsShort (size : ℕ) (pre rows : List MibIfRow) : Prop :=
  ∀ mid r post, rows = mid ++ r :: post → r.usable → (firstRows (pre ++ mid)).length < size →
    r.Short

/-- The row of a MAC address: the first usable one or, if the table has none, the first one. -/
def macRow (table : List MibIfRow) (mac : Bytes) : Option MibIfRow :=
  (rowOf table mac).or (table.find? fun r => r.mac = mac)

/-- If the MAC address of the slot is in both tables, the slot has the differences of its
counters. -/
def Carries (t₁ t₂ : List MibIfRow) (flow : NetFlow) : Prop :=
  ∀ r₁ r₂, macRow t₁ flow.MAC = some r₁ → macRow t₂ flow.MAC = some r₂ →
    ∀ c, (flow.counters c).Delta = r₂.counters c - r₁.counters c

/-- The two calls stay inside the array, and every slot with a MAC address carries the differences
of its counters. -/
def Measures (mv_adapters : List NetAdapter) (t₁ t₂ : List MibIfRow) : Prop :=
  ∃ s₁ s₂, getIOStatistic mv_adapters 0 (returned t₁) (.new mv_adapters) = .ok (0, s₁) ∧
    getIOStatistic mv_adapters 1 (returned t₂) s₁ = .ok (0, s₂) ∧
    ∀ flow ∈ s₂.myNetFlow, flow.MAC ≠ [] → Carries t₁ t₂ flow

/-- There is a slot for every MAC address that needs one, and each that is read is short. -/
structure Safe (mv_adapters : List NetAdapter) (t₁ t₂ : List MibIfRow) : Prop where
  room : mv_adapters ≠ [] ∨ usableRows t₁ = []
  short₁ : ReadsShort mv_adapters.length [] t₁
  short₂ : ∀ r ∈ usableRows t₂, r.Short
  known : (firstRows t₁).length < mv_adapters.length ∨
    ∀ r ∈ usableRows t₂, r.mac ∈ (recorded mv_adapters.length t₁).map (·.mac)

/-- The usable rows whose MAC addresses have no slot. -/
def unknownRows (rs table : List MibIfRow) : List MibIfRow :=
  (usableRows table).filter fun r => r.mac ∉ rs.map (·.mac)

/-- The counters of the first table are those that are taken off in the slot behind those in use,
if its MAC address is there: none after one row, and those of the first row after two rows. -/
def Late (t₁ : List MibIfRow) : List MibIfRow → Prop
  | [] => True
  | [r] => ∀ r₁, macRow t₁ r.mac = some r₁ → ∀ c, r₁.counters c = 0
  | r :: r' :: _ => ∀ r₁, macRow t₁ r'.mac = some r₁ → ∀ c,
      r₁.counters c = if r.mac = r'.mac then r.counters c + r.counters c - r'.counters c
        else r.counters c

/-- The calls return. Of the MAC addresses with a slot, those that the second table has in skipped
rows only have doubled their counters. -/
structure Paired (mv_adapters : List NetAdapter) (t₁ t₂ : List MibIfRow) : Prop
    extends Safe mv_adapters t₁ t₂ where
  skipped : ∀ r ∈ recorded mv_adapters.length t₁, rowOf t₂ r.mac = none →
    ∀ r₂, macRow t₂ r.mac = some r₂ → ∀ c, r₂.counters c = r.counters c + r.counters c
  late : Late t₁ (unknownRows (recorded mv_adapters.length t₁) t₂)

variable {size k : ℕ} {mv_adapters : List NetAdapter} {s : Statistic} {r : MibIfRow}
  {rs us seen pre rows t₁ t₂ : List MibIfRow} {mac : Bytes}

section FirstCall

theorem firstRows_concat_of_usable (hr : r.usable) :
    firstRows (pre ++ [r]) = record (·.mac) (firstRows pre) r := by
  rw [firstRows, usableRows, List.filter_append, List.filter_singleton, hr, cond_true,
    records_concat]
  rfl

variable (pre) in
theorem firstRows_concat_of_not_usable (hr : ¬ r.usable) :
    firstRows (pre ++ [r]) = firstRows pre := by
  rw [firstRows, usableRows, List.filter_append, List.filter_singleton, eq_false_of_ne_true hr,
    cond_false, List.append_nil]
  rfl

theorem prefix_firstRows (pre rows : List MibIfRow) :
    firstRows pre <+: firstRows (pre ++ rows) := by
  rw [firstRows, firstRows, usableRows, usableRows, List.filter_append]
  exact prefix_records

theorem readsShort_cons : ReadsShort size pre (r :: rows) ↔
    (r.usable → (firstRows pre).length < size → r.Short) ∧
      ReadsShort size (pre ++ [r]) rows := by
  constructor
  · intro h
    refine ⟨fun hr hlt => h [] r rows rfl hr (by rwa [List.append_nil]), ?_⟩
    intro mid r' post hrows hr' hlt
    refine h (r :: mid) r' post (by rw [hrows, List.cons_append]) hr' ?_
    rwa [List.append_cons]
  · rintro ⟨hr, hrest⟩ mid r' post hrows hr' hlt
    cases mid with
    | nil =>
      cases hrows
      exact hr hr' (by rwa [List.append_nil] at hlt)
    | cons r₁ mid =>
      cases hrows
      exact hrest mid r' post rfl hr' (by rwa [← List.append_cons])

/-- Nothing more is read when there are as many MAC addresses as adapters. -/
theorem readsShort_of_le (h : size ≤ (firstRows pre).length) : ReadsShort size pre rows := by
  intro mid r post _ _ hlt
  have hle := (prefix_firstRows pre mid).length_le
  omega

/-- The slots behind the first call. -/
def filled (size : ℕ) (rs : List MibIfRow) : Statistic :=
  slots rs [] (List.replicate (size - rs.length) .init)

theorem statisticRow_filled (hr : r.usable) (hshort : r.Short) (hnew : r.mac ∉ rs.map (·.mac))
    (hlt : rs.length < size) : statisticRow size 0 (filled size rs) r =
      .ok (filled size (rs ++ [r]), rs.length + 1 = size) := by
  have hfree : List.replicate (size - rs.length) NetFlow.init =
      .init :: List.replicate (size - (rs ++ [r]).length) .init := by
    rw [← List.replicate_succ, List.length_append, List.length_singleton]
    congr 1
    omega
  rw [filled, hfree, statisticRow_first hr hshort hnew, filled]

/-- The first call from the slots of the rows `pre` on. -/
theorem statisticRows_first_iff (hlt : (firstRows pre).length < size) :
    statisticRows size 0 rows (filled size (firstRows pre)) = .ok s ↔
      ReadsShort size pre rows ∧ s = filled size (recorded size (pre ++ rows)) := by
  induction rows generalizing pre with
  | nil =>
    have hshort : ReadsShort size pre [] := by
      intro mid r post hrows
      simp at hrows
    rw [List.append_nil, recorded, List.take_of_length_le hlt.le, statisticRows]
    simp [hshort, eq_comm]
  | cons r rows ih =>
    rw [readsShort_cons, List.append_cons pre r rows]
    by_cases hr : r.usable
    · by_cases hshort : r.Short
      · rw [and_iff_right fun _ _ => hshort]
        by_cases hmem : r.mac ∈ (firstRows pre).map (·.mac)
        · have hsame : firstRows (pre ++ [r]) = firstRows pre := by
            rw [firstRows_concat_of_usable hr, record, if_pos hmem]
          have hknown : statisticRow size 0 (filled size (firstRows pre)) r =
              .ok (filled size (firstRows pre), false) := statisticRow_known hr hshort hmem
          rw [statisticRows_cons hknown, if_neg Bool.false_ne_true, ← hsame]
          exact ih (hsame ▸ hlt)
        · have hnext : firstRows (pre ++ [r]) = firstRows pre ++ [r] := by
            rw [firstRows_concat_of_usable hr, record, if_neg hmem]
          have hlen : (firstRows (pre ++ [r])).length = (firstRows pre).length + 1 := by
            rw [hnext, List.length_append, List.length_singleton]
          rw [statisticRows_cons (statisticRow_filled hr hshort hmem hlt), ← hnext, ← hlen]
          by_cases hfull : (firstRows (pre ++ [r])).length = size
          · have htake : recorded size (pre ++ [r] ++ rows) = firstRows (pre ++ [r]) := by
              rw [recorded, List.prefix_iff_eq_take.mp (prefix_firstRows (pre ++ [r]) rows), hfull]
            rw [if_pos (decide_eq_true hfull), htake, and_iff_right (readsShort_of_le hfull.ge),
              Except.ok.injEq, eq_comm]
          · rw [if_neg (by simpa using hfull)]
            exact ih (by omega)
      · have herror : statisticRow size 0 (filled size (firstRows pre)) r = .error .overruns :=
          statisticRow_of_not_short hr hshort
        rw [statisticRows, herror]
        constructor
        · intro h
          cases h
        · intro h
          exact absurd (h.1.1 hr hlt) hshort
    · have hsame := firstRows_concat_of_not_usable pre hr
      rw [and_iff_right fun h => absurd h hr, statisticRows_cons (statisticRow_of_not_usable hr),
        if_neg Bool.false_ne_true, ← hsame]
      exact ih (hsame ▸ hlt)

/-- Without adapters there is no slot for any row. -/
theorem statisticRows_zero_iff : statisticRows 0 0 rows (filled 0 []) = .ok s ↔
    usableRows rows = [] ∧ s = filled 0 [] := by
  induction rows with
  | nil => simp [statisticRows, usableRows, eq_comm]
  | cons r rows ih =>
    by_cases hr : r.usable
    · have herror : ∃ fault, statisticRow 0 0 (filled 0 []) r = .error fault := by
        by_cases hshort : r.Short
        · exact ⟨_, statisticRow_full hr hshort List.not_mem_nil⟩
        · exact ⟨_, statisticRow_of_not_short hr hshort⟩
      obtain ⟨fault, herror⟩ := herror
      rw [statisticRows, herror, usableRows, List.filter_cons_of_pos hr]
      constructor
      · intro h
        cases h
      · rintro ⟨h, -⟩
        cases h
    · rw [statisticRows_cons (statisticRow_of_not_usable hr), if_neg Bool.false_ne_true, ih,
        usableRows, usableRows, List.filter_cons_of_neg hr]

theorem getIOStatistic_iff {isCalc : ℤ} {table : List MibIfRow} {s' : Statistic} :
    getIOStatistic mv_adapters isCalc (returned table) s = .ok (0, s') ↔
      statisticRows mv_adapters.length isCalc table s = .ok s' := by
  have hreturned : getIOStatistic mv_adapters isCalc (returned table) s =
      (statisticRows mv_adapters.length isCalc table s).bind fun s => .ok (0, s) := rfl
  rw [hreturned, bind_ok_iff]
  simp

/-- The first call, and what it leaves. -/
theorem getIOStatistic_first_iff :
    getIOStatistic mv_adapters 0 (returned t₁) (.new mv_adapters) = .ok (0, s) ↔
      (mv_adapters ≠ [] ∨ usableRows t₁ = []) ∧ ReadsShort mv_adapters.length [] t₁ ∧
        s = filled mv_adapters.length (recorded mv_adapters.length t₁) := by
  have hnew : Statistic.new mv_adapters = filled mv_adapters.length (firstRows []) := by
    simp [Statistic.new, filled, slots, firstRows, usableRows]
  rw [getIOStatistic_iff, hnew]
  by_cases hnil : mv_adapters = []
  · have hread : ReadsShort 0 [] t₁ := readsShort_of_le (Nat.zero_le _)
    have hfilled : filled 0 (firstRows []) = filled 0 [] := rfl
    rw [hnil, List.length_nil, recorded, List.take_zero, hfilled]
    simpa [hread] using statisticRows_zero_iff
  · have hpos : 0 < mv_adapters.length := List.length_pos_iff.mpr hnil
    have hfirst := @statisticRows_first_iff mv_adapters.length s [] t₁ hpos
    simpa [hnil] using hfirst

end FirstCall

section SecondCall

/-- The slot behind those in use, after these rows without a slot of their own. -/
def lateSlot (us : List MibIfRow) : NetFlow :=
  (us.take 2).foldl (fun flow r => flow.update r.mac r) .init

/-- The slots behind those in use, so many of them. -/
def behind (us : List MibIfRow) : ℕ → List NetFlow
  | 0 => []
  | k + 1 => lateSlot us :: List.replicate k .init

/-- The slots of both calls, with so many behind those in use. -/
def bothSlots (rs seen : List MibIfRow) (k : ℕ) : Statistic :=
  slots rs seen (behind (unknownRows rs seen) k)

/-- The address of the row is short, and there is a slot for it. -/
def HasSlot (rs : List MibIfRow) (k : ℕ) (r : MibIfRow) : Prop :=
  r.Short ∧ (r.mac ∈ rs.map (·.mac) ∨ 0 < k)

theorem behind_nil (k : ℕ) : behind [] k = List.replicate k .init := by
  cases k <;> rfl

theorem filled_eq (size : ℕ) (rs : List MibIfRow) :
    filled size rs = bothSlots rs [] (size - rs.length) := by
  have hnone : unknownRows rs [] = [] := rfl
  rw [filled, bothSlots, hnone, behind_nil]

theorem updated_foldl (us : List MibIfRow) (flow : NetFlow) :
    (us.foldl (fun flow r => flow.update r.mac r) flow).Updated = flow.Updated + us.length := by
  induction us generalizing flow with
  | nil => rfl
  | cons r us ih =>
    have hstep : (flow.update r.mac r).Updated = flow.Updated + 1 := rfl
    rw [List.foldl_cons, ih, List.length_cons, hstep]
    omega

/-- A slot that two rows have been written to is left alone. -/
theorem lateSlot_concat (us : List MibIfRow) (r : MibIfRow) : lateSlot (us ++ [r]) =
    if (lateSlot us).Updated = 2 then lateSlot us else (lateSlot us).update r.mac r := by
  have hupdated : (lateSlot us).Updated = min 2 us.length := by
    rw [lateSlot, updated_foldl, List.length_take]
    exact Nat.zero_add _
  rw [hupdated]
  split_ifs with htwo
  · rw [lateSlot, lateSlot, List.take_append_of_le_length (by omega)]
  · rw [lateSlot, lateSlot, List.take_of_length_le (l := us) (by omega),
      List.take_of_length_le (by rw [List.length_append, List.length_singleton]; omega),
      List.foldl_concat]

theorem unknownRows_concat : unknownRows rs (seen ++ [r]) =
    if r.usable ∧ r.mac ∉ rs.map (·.mac) then unknownRows rs seen ++ [r]
    else unknownRows rs seen := by
  rw [unknownRows, usableRows, List.filter_append, List.filter_append, unknownRows, usableRows]
  by_cases hr : r.usable
  · by_cases hmem : r.mac ∈ rs.map (·.mac)
    · rw [if_neg fun h => h.2 hmem]
      simp [hr, List.mem_map.mp hmem]
    · rw [if_pos ⟨hr, hmem⟩]
      simpa [hr] using hmem
  · simp [hr]

theorem forall_usableRows_cons {P : MibIfRow → Prop} : (∀ r' ∈ usableRows (r :: rows), P r') ↔
    (r.usable → P r) ∧ ∀ r' ∈ usableRows rows, P r' := by
  by_cases hr : r.usable
  · simp [usableRows, hr]
  · simp [usableRows, hr]

theorem hasSlot_of_statisticRow {p : Statistic × Bool} (hr : r.usable)
    (h : statisticRow size 1 (bothSlots rs seen k) r = .ok p) : HasSlot rs k r := by
  have hshort : r.Short := by
    by_contra hlong
    rw [statisticRow_of_not_short hr hlong] at h
    cases h
  refine ⟨hshort, ?_⟩
  by_contra hnot
  obtain ⟨hnew, hk⟩ := not_or.mp hnot
  rw [Nat.eq_zero_of_not_pos hk, bothSlots, behind, statisticRow_full hr hshort hnew] at h
  cases h

variable (hnodup : (rs.map (·.mac)).Nodup)
include hnodup

/-- What a row does in the second call. -/
theorem statisticRow_both (size : ℕ) (seen : List MibIfRow) (hrow : r.usable → HasSlot rs k r) :
    statisticRow size 1 (bothSlots rs seen k) r = .ok (bothSlots rs (seen ++ [r]) k, false) := by
  rw [bothSlots, bothSlots, unknownRows_concat]
  by_cases hr : r.usable
  · obtain ⟨hshort, hslot⟩ := hrow hr
    by_cases hmem : r.mac ∈ rs.map (·.mac)
    · rw [if_neg fun h => h.2 hmem]
      exact statisticRow_second hnodup hr hshort hmem
    · obtain ⟨j, rfl⟩ := Nat.exists_eq_add_of_lt (hslot.resolve_left hmem)
      rw [if_pos ⟨hr, hmem⟩, Nat.zero_add, behind, behind, lateSlot_concat]
      exact statisticRow_unknown hr hshort hmem
  · rw [if_neg fun h => hr h.1, statisticRow_of_not_usable hr,
      slots_concat fun r₁ _ => slotAfter_concat fun h => hr h.1]

theorem statisticRows_second (size : ℕ) (seen : List MibIfRow)
    (hrows : ∀ r ∈ usableRows rows, HasSlot rs k r) :
    statisticRows size 1 rows (bothSlots rs seen k) = .ok (bothSlots rs (seen ++ rows) k) := by
  induction rows generalizing seen with
  | nil =>
    rw [List.append_nil]
    rfl
  | cons r rows ih =>
    obtain ⟨hrow, hrest⟩ := forall_usableRows_cons.mp hrows
    rw [statisticRows_cons (statisticRow_both hnodup size seen hrow), List.append_cons seen r rows]
    exact ih (seen ++ [r]) hrest

/-- No row of the second table has been without a slot, if the call returns. -/
theorem hasSlot_of_statisticRows
    (h : statisticRows size 1 rows (bothSlots rs seen k) = .ok s) :
    ∀ r ∈ usableRows rows, HasSlot rs k r := by
  induction rows generalizing seen with
  | nil => simp [usableRows]
  | cons r rows ih =>
    obtain ⟨p, hstep, hrun⟩ := bind_ok_iff.mp h
    have hrow : r.usable → HasSlot rs k r := fun hr => hasSlot_of_statisticRow hr hstep
    cases hstep.symm.trans (statisticRow_both hnodup size seen hrow)
    exact forall_usableRows_cons.mpr ⟨hrow, ih hrun⟩

end SecondCall

section Measures

theorem nodup_firstRows : ((firstRows t₁).map (·.mac)).Nodup := nodup_records _

theorem nodup_recorded : ((recorded size t₁).map (·.mac)).Nodup :=
  ((List.take_sublist size _).map _).nodup nodup_firstRows

theorem rowOf_of_mem_firstRows (hr : r ∈ firstRows t₁) : rowOf t₁ r.mac = some r := by
  rw [rowOf, ← find?_records]
  exact find?_of_nodup nodup_firstRows hr

theorem macRow_of_some (h : rowOf t₁ mac = some r) : macRow t₁ mac = some r := by
  rw [macRow, h, Option.some_or]

theorem macRow_recorded (hr : r ∈ recorded size t₁) : macRow t₁ r.mac = some r :=
  macRow_of_some (rowOf_of_mem_firstRows (List.mem_of_mem_take hr))

theorem usable_of_mem_recorded (hr : r ∈ recorded size t₁) : r.usable := by
  have hrow := rowOf_of_mem_firstRows (List.mem_of_mem_take hr)
  exact (List.mem_filter.mp (List.mem_of_find?_eq_some hrow)).2

/-- The free slots, if there is one for a row that is without. -/
theorem Safe.hasSlot (h : Safe mv_adapters t₁ t₂) : ∀ r ∈ usableRows t₂,
    HasSlot (recorded mv_adapters.length t₁)
      (mv_adapters.length - (recorded mv_adapters.length t₁).length) r := by
  intro r hr
  refine ⟨h.short₂ r hr, ?_⟩
  rcases h.known with hlt | hknown
  · refine .inr ?_
    rw [recorded, List.length_take]
    omega
  · exact .inl (hknown r hr)

/-- What both calls leave. -/
theorem Safe.both (h : Safe mv_adapters t₁ t₂) :
    getIOStatistic mv_adapters 0 (returned t₁) (.new mv_adapters) =
        .ok (0, filled mv_adapters.length (recorded mv_adapters.length t₁)) ∧
      getIOStatistic mv_adapters 1 (returned t₂)
        (filled mv_adapters.length (recorded mv_adapters.length t₁)) =
          .ok (0, bothSlots (recorded mv_adapters.length t₁) t₂
            (mv_adapters.length - (recorded mv_adapters.length t₁).length)) := by
  refine ⟨getIOStatistic_first_iff.mpr ⟨h.room, h.short₁, rfl⟩, getIOStatistic_iff.mpr ?_⟩
  rw [filled_eq]
  exact statisticRows_second nodup_recorded mv_adapters.length [] h.hasSlot

theorem Measures.safe (h : Measures mv_adapters t₁ t₂) : Safe mv_adapters t₁ t₂ := by
  obtain ⟨s₁, s₂, h₁, h₂, -⟩ := h
  obtain ⟨hroom, hread, rfl⟩ := getIOStatistic_first_iff.mp h₁
  rw [filled_eq] at h₂
  have hslot := hasSlot_of_statisticRows nodup_recorded (getIOStatistic_iff.mp h₂)
  refine ⟨hroom, hread, fun r hr => (hslot r hr).1, ?_⟩
  by_cases hlt : (firstRows t₁).length < mv_adapters.length
  · exact .inl hlt
  · refine .inr fun r hr => (hslot r hr).2.resolve_right ?_
    rw [recorded, List.length_take]
    omega

theorem measures_iff_of_safe (h : Safe mv_adapters t₁ t₂) : Measures mv_adapters t₁ t₂ ↔
    ∀ flow ∈ (bothSlots (recorded mv_adapters.length t₁) t₂
      (mv_adapters.length - (recorded mv_adapters.length t₁).length)).myNetFlow,
      flow.MAC ≠ [] → Carries t₁ t₂ flow := by
  obtain ⟨hfirst, hsecond⟩ := h.both
  constructor
  · rintro ⟨s₁, s₂, h₁, h₂, hall⟩
    cases hfirst.symm.trans h₁
    cases hsecond.symm.trans h₂
    exact hall
  · intro hall
    exact ⟨_, _, hfirst, hsecond, hall⟩

theorem MibIfRow.mac_ne_nil (hr : r.usable) : r.mac ≠ [] := by
  obtain ⟨b, bs, hcons⟩ := List.exists_cons_of_ne_nil (r.ne_nil hr)
  rw [MibIfRow.mac, hcons, ← List.length_pos_iff, length_macText]
  omega

theorem usable_of_mem_unknownRows (hr : r ∈ unknownRows rs t₂) : r.usable :=
  (List.mem_filter.mp (List.mem_filter.mp hr).1).2

theorem MAC_lateSlot (hus : unknownRows rs t₂ ≠ []) : (lateSlot (unknownRows rs t₂)).MAC ≠ [] := by
  have husable : ∀ r ∈ unknownRows rs t₂, r.mac ≠ [] := fun r hr =>
    r.mac_ne_nil (usable_of_mem_unknownRows hr)
  match unknownRows rs t₂, hus, husable with
  | [r], _, h => exact h r (List.mem_singleton_self r)
  | r :: r' :: us, _, h => exact h r' (List.mem_cons_of_mem r (List.mem_cons_self ..))

theorem mem_behind {flow : NetFlow} (hMAC : flow.MAC ≠ []) :
    flow ∈ behind us k ↔ 0 < k ∧ flow = lateSlot us := by
  cases k with
  | zero => simp [behind]
  | succ k =>
    rw [behind, List.mem_cons, or_iff_left, and_iff_right k.succ_pos]
    intro hfree
    rw [List.eq_of_mem_replicate hfree] at hMAC
    exact hMAC rfl

/-- A slot with a MAC address is one of the first call, or the one behind them. -/
theorem forall_bothSlots_iff {P : NetFlow → Prop} (hrs : ∀ r ∈ rs, r.usable)
    (hk : ∀ r ∈ unknownRows rs t₂, 0 < k) :
    (∀ flow ∈ (bothSlots rs t₂ k).myNetFlow, flow.MAC ≠ [] → P flow) ↔
      (∀ r ∈ rs, P (slotAfter t₂ r)) ∧
        (unknownRows rs t₂ ≠ [] → P (lateSlot (unknownRows rs t₂))) := by
  simp only [bothSlots, slots, List.forall_mem_append, List.forall_mem_map]
  apply and_congr
  · refine forall₂_congr fun r hr => ?_
    rw [MAC_slotAfter, forall_prop_of_true (r.mac_ne_nil (hrs r hr))]
  · constructor
    · intro h hus
      obtain ⟨r, hr⟩ := List.exists_mem_of_ne_nil _ hus
      have hMAC := MAC_lateSlot hus
      exact h _ ((mem_behind hMAC).mpr ⟨hk r hr, rfl⟩) hMAC
    · intro h flow hflow hMAC
      obtain ⟨-, rfl⟩ := (mem_behind hMAC).mp hflow
      refine h fun hnil => hMAC ?_
      rw [hnil]
      rfl

theorem carries_iff {flow : NetFlow} {r₂ : MibIfRow} (h : macRow t₂ flow.MAC = some r₂) :
    Carries t₁ t₂ flow ↔ ∀ r₁, macRow t₁ flow.MAC = some r₁ →
      ∀ c, (flow.counters c).Delta = r₂.counters c - r₁.counters c := by
  rw [Carries, h]
  simp

/-- Without a usable row in the second table, a slot keeps the counters of the first one. -/
theorem carries_slotAfter_iff (hr : r ∈ recorded size t₁) : Carries t₁ t₂ (slotAfter t₂ r) ↔
    (rowOf t₂ r.mac = none → ∀ r₂, macRow t₂ r.mac = some r₂ →
      ∀ c, r₂.counters c = r.counters c + r.counters c) := by
  rw [Carries, MAC_slotAfter, macRow_recorded hr]
  cases hrow : rowOf t₂ r.mac with
  | some r₂ =>
    rw [slotAfter_of_some hrow, macRow_of_some hrow]
    refine iff_of_true ?_ fun h => absurd h (Option.some_ne_none r₂)
    rintro _ _ ⟨⟩ ⟨⟩ c
    rfl
  | none =>
    have hkept (c : IfCounter) (x : UInt64) :
        ((firstSlot r).counters c).Delta = x - r.counters c ↔ x = r.counters c + r.counters c := by
      have hdelta : ((firstSlot r).counters c).Delta = r.counters c - 0 := rfl
      rw [hdelta]
      grind
    rw [slotAfter_of_none hrow, forall_prop_of_true rfl]
    constructor
    · exact fun h r₂ hr₂ c => (hkept c _).mp (h r r₂ rfl hr₂ c)
    · rintro h _ r₂ ⟨⟩ hr₂ c
      exact (hkept c _).mpr (h r₂ hr₂ c)

/-- Of an unknown MAC address the first unknown row counts. -/
theorem rowOf_unknown (hmac : mac ∉ rs.map (·.mac)) :
    rowOf t₂ mac = (unknownRows rs t₂).find? fun r => r.mac = mac := by
  rw [rowOf, unknownRows, List.find?_filter]
  congr 1
  funext r
  by_cases hr : r.mac = mac
  · simp [hr, hmac]
  · simp [hr]

theorem carries_lateSlot_iff (hus : unknownRows rs t₂ ≠ []) :
    Carries t₁ t₂ (lateSlot (unknownRows rs t₂)) ↔ Late t₁ (unknownRows rs t₂) := by
  have hrow : ∀ r ∈ unknownRows rs t₂, rowOf t₂ r.mac =
      (unknownRows rs t₂).find? fun r' => r'.mac = r.mac := fun r hr =>
    rowOf_unknown (by simpa using (List.mem_filter.mp hr).2)
  match unknownRows rs t₂, hus, hrow with
  | [r], _, h =>
    have hr : macRow t₂ (lateSlot [r]).MAC = some r :=
      macRow_of_some ((h r (List.mem_singleton_self r)).trans (by simp))
    have hdelta (c : IfCounter) : ((lateSlot [r]).counters c).Delta = r.counters c - 0 := rfl
    rw [carries_iff hr, Late]
    refine forall₃_congr fun r₁ _ c => ?_
    rw [hdelta]
    grind
  | r :: r' :: us, _, h =>
    have hr : macRow t₂ (lateSlot (r :: r' :: us)).MAC =
        some (if r.mac = r'.mac then r else r') := by
      refine macRow_of_some ((h r' (List.mem_cons_of_mem r (List.mem_cons_self ..))).trans ?_)
      by_cases hsame : r.mac = r'.mac
      · simp [hsame]
      · simp [hsame]
    have hdelta (c : IfCounter) : ((lateSlot (r :: r' :: us)).counters c).Delta =
        r'.counters c - r.counters c := rfl
    rw [carries_iff hr, Late]
    refine forall₃_congr fun r₁ _ c => ?_
    rw [hdelta]
    split_ifs <;> grind

theorem Safe.measures_iff_paired (h : Safe mv_adapters t₁ t₂) :
    Measures mv_adapters t₁ t₂ ↔ Paired mv_adapters t₁ t₂ := by
  have hk : ∀ r ∈ unknownRows (recorded mv_adapters.length t₁) t₂,
      0 < mv_adapters.length - (recorded mv_adapters.length t₁).length := by
    intro r hr
    obtain ⟨hr, hnew⟩ := List.mem_filter.mp hr
    exact (h.hasSlot r hr).2.resolve_left (by simpa using hnew)
  rw [measures_iff_of_safe h, forall_bothSlots_iff (fun r => usable_of_mem_recorded) hk]
  constructor
  · rintro ⟨hfirst, hlate⟩
    refine ⟨h, fun r hr => (carries_slotAfter_iff hr).mp (hfirst r hr), ?_⟩
    by_cases hus : unknownRows (recorded mv_adapters.length t₁) t₂ = []
    · rw [hus]
      trivial
    · exact (carries_lateSlot_iff hus).mp (hlate hus)
  · rintro ⟨-, hskipped, hlate⟩
    exact ⟨fun r hr => (carries_slotAfter_iff hr).mpr (hskipped r hr),
      fun hus => (carries_lateSlot_iff hus).mpr hlate⟩

theorem Measures.paired (h : Measures mv_adapters t₁ t₂) : Paired mv_adapters t₁ t₂ :=
  h.safe.measures_iff_paired.mp h

/-- The counters are measured exactly if both calls stay inside the array, no counters are kept
that the second table has in a skipped row only, and none are taken off for a late row that are
not those of its MAC address. -/
theorem measures_iff (mv_adapters : List NetAdapter) (t₁ t₂ : List MibIfRow) :
    Measures mv_adapters t₁ t₂ ↔ Paired mv_adapters t₁ t₂ :=
  ⟨Measures.paired, fun h => h.toSafe.measures_iff_paired.mpr h⟩

end Measures

/-- An adapter with one address, as it is before its speeds are known. -/
def adapter : NetAdapter where
  MTU := 1500
  name := []
  FriendlyName := []
  describe := []
  MAC := macText [2, 0, 0, 0, 0, 1]
  transmitSpeed := 0
  recvSpeed := 0
  address := [⟨24, 2, [49, 48, 46, 48, 46, 48, 46, 49], []⟩]

/-- An interface that is up, with this last byte of its address. -/
def interfaceUp (b : UInt8) (octets : UInt64) : MibIfRow :=
  ⟨1, 1, [2, 0, 0, 0, 0, b], fun _ => octets⟩

/-- An interface that is not up. -/
def interfaceDown (b : UInt8) (octets : UInt64) : MibIfRow :=
  ⟨2, 1, [2, 0, 0, 0, 0, b], fun _ => octets⟩

/-- With one adapter and two interfaces the second call leaves the array, also if nothing has
changed. Without adapters the first call does. An interface that goes down keeps its counters, and
one that comes up carries all of them. -/
theorem not_measures_twoInterfaces :
    (∃ s₁, getIOStatistic [adapter] 0 (returned [interfaceUp 1 100, interfaceUp 2 100])
        (.new [adapter]) = .ok (0, s₁) ∧
      getIOStatistic [adapter] 1 (returned [interfaceUp 1 100, interfaceUp 2 100]) s₁ =
        .error .outOfBounds) ∧
      getIOStatistic [] 0 (returned [interfaceUp 1 100]) (.new []) = .error .outOfBounds ∧
      ¬ Measures [adapter] [interfaceUp 1 100, interfaceUp 2 100]
        [interfaceUp 1 100, interfaceUp 2 100] ∧
      ¬ Measures [adapter] [interfaceUp 1 100] [interfaceDown 1 110] ∧
      ¬ Measures [adapter] [interfaceDown 1 5000] [interfaceUp 1 5010] := by
  refine ⟨⟨_, rfl, rfl⟩, rfl, fun h => ?_, fun h => ?_, fun h => ?_⟩
  · rcases h.safe.known with hlt | hknown
    · exact absurd hlt (by decide)
    · have hmem := hknown (interfaceUp 2 100) (List.mem_cons_of_mem _ (List.mem_cons_self ..))
      exact absurd hmem (by decide)
  · have hkept := h.paired.skipped (interfaceUp 1 100) (List.mem_cons_self ..) rfl _ rfl .InOctets
    exact absurd hkept (by decide)
  · have hlate := h.paired.late _ rfl .InOctets
    exact absurd hlate (by decide)

end Vs17.Monitor.IOStatistic
