import Vs17.Library.CString
import Vs17.Library.Slots

/-! # Network counters

`getIOStatistic` fills an array of as many slots as there are adapters from a table of interfaces.
The first call gives each MAC address a slot, and the second one finds the slots again and takes
the differences of the counters.
-/

namespace Vs17.Monitor.IOStatistic

open Words Slots

inductive Fault
  | outOfBounds
  | overruns
  deriving DecidableEq, Repr

inductive IfCounter
  | InOctets
  | InUcastOctets
  | InUcastPkts
  | InNUcastPkts
  | InDiscards
  | InErrors
  | OutOctets
  | OutUcastOctets
  | OutUcastPkts
  | OutNUcastPkts
  | OutDiscards
  | OutErrors
  deriving DecidableEq, Repr

structure UInt64Delta where
  Value : UInt64
  Delta : UInt64
  deriving DecidableEq, Repr

def updateDelta (d : UInt64Delta) (newValue : UInt64) : UInt64Delta :=
  ⟨newValue, newValue - d.Value⟩

structure NetFlow where
  Updated : ℕ
  MAC : Bytes
  counters : IfCounter → UInt64Delta

def NetFlow.init : NetFlow := ⟨0, [], fun _ => ⟨0, 0⟩⟩

structure NetAddress where
  prefixLength : ℤ
  sa_family : ℤ
  ip : Bytes
  gateway : Bytes
  deriving DecidableEq, Repr

/-- The three names are wide strings. -/
structure NetAdapter where
  MTU : ℤ
  name : List UInt16
  FriendlyName : List UInt16
  describe : List UInt16
  MAC : Bytes
  transmitSpeed : UInt64
  recvSpeed : UInt64
  address : List NetAddress
  deriving DecidableEq, Repr

structure MibIfRow where
  OperStatus : ℕ
  AdminStatus : ℕ
  PhysicalAddress : Bytes
  counters : IfCounter → UInt64

def ifOperStatusUp : ℕ := 1
def mibIfAdminStatusDown : ℕ := 2
def colon : UInt8 := 58

/-- A digit of `%X`. -/
def hexDigit (n : UInt8) : UInt8 := if n < 10 then 48 + n else 55 + n

/-- `%.2X` of a byte. -/
def hexByte (b : UInt8) : Bytes := [hexDigit (b / 16), hexDigit (b % 16)]

/-- The loop that prints a physical address behind what is in `tmpMAC`, an array of 64 bytes. -/
def printMAC : Bytes → Bytes → Except Fault Bytes
  | [], tmpMAC => .ok tmpMAC
  | b :: bs, tmpMAC =>
    let tmpMAC := tmpMAC ++ hexByte b ++ if bs = [] then [] else [colon]
    if tmpMAC.length < 64 then printMAC bs tmpMAC else .error .overruns

/-- The array `myNetFlow`, and the number of its slots in use. -/
structure Statistic where
  myNetFlow : List NetFlow
  nMAC : ℕ

def MibIfRow.usable (pIfRow : MibIfRow) : Bool :=
  pIfRow.OperStatus == ifOperStatusUp && pIfRow.AdminStatus != mibIfAdminStatusDown &&
    pIfRow.PhysicalAddress != []

/-- A slot after a row has been written to it. -/
def NetFlow.update (flow : NetFlow) (strMac : Bytes) (pIfRow : MibIfRow) : NetFlow where
  Updated := flow.Updated + 1
  MAC := strMac
  counters c := updateDelta (flow.counters c) (pIfRow.counters c)

/-- A read of the array. -/
def access {α : Type} : Option α → Except Fault α
  | some x => .ok x
  | none => .error .outOfBounds

/-- A round of the loop, for so many adapters, and whether the loop is left behind it. -/
def statisticRow (size : ℕ) (isCalc : ℤ) (s : Statistic) (pIfRow : MibIfRow) :
    Except Fault (Statistic × Bool) :=
  if pIfRow.usable then do
    let strMac ← printMAC pIfRow.PhysicalAddress []
    let n ← access (search s.myNetFlow (fun flow => flow.MAC = strMac) 0 s.nMAC)
    if isCalc = 0 ∧ n < s.nMAC then
      return (s, false)
    else do
      let flow ← access s.myNetFlow[n]?
      if isCalc = 1 ∧ flow.Updated = 2 then
        return (s, false)
      else
        let myNetFlow := s.myNetFlow.set n (flow.update strMac pIfRow)
        if isCalc = 0 then
          return (⟨myNetFlow, s.nMAC + 1⟩, s.nMAC + 1 = size)
        else
          return (⟨myNetFlow, s.nMAC⟩, false)
  else
    .ok (s, false)

def statisticRows (size : ℕ) (isCalc : ℤ) : List MibIfRow → Statistic → Except Fault Statistic
  | [], s => .ok s
  | pIfRow :: rows, s => do
    let (s, leave) ← statisticRow size isCalc s pIfRow
    if leave then return s else statisticRows size isCalc rows s

/-- What one call meets: whether memory is allocated, whether the first query succeeds, and what
the second one gives. -/
structure IfTable where
  allocated : Bool
  first : Bool
  second : Option (List MibIfRow)

def getIOStatistic (mv_adapters : List NetAdapter) (isCalc : ℤ) (pIfTable2 : IfTable)
    (s : Statistic) : Except Fault (ℤ × Statistic) :=
  if !pIfTable2.allocated then .ok (1, s)
  else if !pIfTable2.first then .ok (-1, s)
  else
    match pIfTable2.second with
    | none => .ok (-2, s)
    | some table => do
      let s ← statisticRows mv_adapters.length isCalc table s
      return (0, s)

/-- A call that the table is returned to. -/
def returned (table : List MibIfRow) : IfTable := ⟨true, true, some table⟩

/-- The array as `getIOSpeed` allocates it. -/
def Statistic.new (mv_adapters : List NetAdapter) : Statistic :=
  ⟨List.replicate mv_adapters.length .init, 0⟩

/-- The text of a physical address. -/
def macText : Bytes → Bytes
  | [] => []
  | [b] => hexByte b
  | b :: bs => hexByte b ++ colon :: macText bs

def MibIfRow.mac (pIfRow : MibIfRow) : Bytes := macText pIfRow.PhysicalAddress

def usableRows (table : List MibIfRow) : List MibIfRow := table.filter (·.usable)

/-- The first usable row with this MAC address. -/
def rowOf (table : List MibIfRow) (mac : Bytes) : Option MibIfRow :=
  (usableRows table).find? fun r => r.mac = mac

/-- The text of the address fits into `tmpMAC`. -/
def MibIfRow.Short (pIfRow : MibIfRow) : Prop := pIfRow.PhysicalAddress.length ≤ 21

variable {size : ℕ} {isCalc : ℤ} {s s' : Statistic} {r r₁ r₂ : MibIfRow}
  {rs seen rows : List MibIfRow} {free : List NetFlow} {mac : Bytes}

section PrintMAC

variable {b : UInt8} {bs tmpMAC : Bytes}

theorem length_macText (b : UInt8) (bs : Bytes) :
    (macText (b :: bs)).length = 3 * bs.length + 2 := by
  induction bs generalizing b with
  | nil => rfl
  | cons b' bs ih =>
    rw [macText, List.length_append, List.length_cons, ih, List.length_cons, hexByte]
    · simp only [List.length_cons, List.length_nil]
      omega
    · simp

theorem printMAC_eq (b : UInt8) (bs tmpMAC : Bytes) : printMAC (b :: bs) tmpMAC =
    if tmpMAC.length + (macText (b :: bs)).length < 64 then .ok (tmpMAC ++ macText (b :: bs))
    else .error .overruns := by
  induction bs generalizing b tmpMAC with
  | nil =>
    rw [printMAC, if_pos rfl, List.append_nil, macText, List.length_append]
    rfl
  | cons b' bs ih =>
    have hlen := length_macText b' bs
    have htext : macText (b :: b' :: bs) = hexByte b ++ colon :: macText (b' :: bs) := rfl
    have hhex : (hexByte b).length = 2 := rfl
    rw [printMAC, if_neg (List.cons_ne_nil _ _), htext]
    simp only [ih, List.length_append, List.length_cons, List.length_nil, hhex, hlen]
    by_cases htotal : tmpMAC.length + (2 + (3 * bs.length + 2 + 1)) < 64
    · rw [if_pos (by omega), if_pos (by omega), if_pos htotal]
      simp
    · rw [if_neg htotal]
      split_ifs with hfits hrest
      · omega
      · rfl
      · rfl

end PrintMAC

theorem MibIfRow.ne_nil (hr : r.usable) : r.PhysicalAddress ≠ [] := by
  rw [MibIfRow.usable, Bool.and_eq_true] at hr
  simpa using hr.2

theorem MibIfRow.short_iff (hr : r.usable) : r.Short ↔ r.mac.length < 64 := by
  obtain ⟨b, bs, hcons⟩ := List.exists_cons_of_ne_nil (r.ne_nil hr)
  rw [MibIfRow.Short, MibIfRow.mac, hcons, length_macText, List.length_cons]
  omega

theorem printMAC_usable (hr : r.usable) : printMAC r.PhysicalAddress [] =
    if r.mac.length < 64 then .ok r.mac else .error .overruns := by
  obtain ⟨b, bs, hcons⟩ := List.exists_cons_of_ne_nil (r.ne_nil hr)
  rw [MibIfRow.mac, hcons, printMAC_eq, List.length_nil, Nat.zero_add, List.nil_append]

theorem printMAC_of_short (hr : r.usable) (hshort : r.Short) :
    printMAC r.PhysicalAddress [] = .ok r.mac := by
  rw [printMAC_usable hr, if_pos ((r.short_iff hr).mp hshort)]

theorem printMAC_of_not_short (hr : r.usable) (hlong : ¬ r.Short) :
    printMAC r.PhysicalAddress [] = .error .overruns := by
  rw [printMAC_usable hr, if_neg fun h => hlong ((r.short_iff hr).mpr h)]

theorem rowOf_concat : rowOf (seen ++ [r]) mac =
    (rowOf seen mac).or (if r.usable ∧ r.mac = mac then some r else none) := by
  rw [rowOf, usableRows, List.filter_append, List.find?_append, rowOf, usableRows]
  congr 1
  by_cases hr : r.usable
  · simp [hr, List.find?_singleton]
  · simp [hr]

/-- What the first call writes to a slot. -/
def firstSlot (r : MibIfRow) : NetFlow := NetFlow.init.update r.mac r

/-- What the slot holds after these rows of the second table. -/
def slotAfter (seen : List MibIfRow) (r : MibIfRow) : NetFlow :=
  match rowOf seen r.mac with
  | none => firstSlot r
  | some r₂ => (firstSlot r).update r.mac r₂

/-- The slots of these rows, and free ones. -/
def slots (rs seen : List MibIfRow) (free : List NetFlow) : Statistic :=
  ⟨rs.map (slotAfter seen) ++ free, rs.length⟩

theorem slotAfter_of_none (h : rowOf seen r.mac = none) : slotAfter seen r = firstSlot r := by
  rw [slotAfter, h]

theorem slotAfter_of_some (h : rowOf seen r.mac = some r₂) :
    slotAfter seen r = (firstSlot r).update r.mac r₂ := by
  rw [slotAfter, h]

@[simp] theorem MAC_slotAfter : (slotAfter seen r).MAC = r.mac := by
  rw [slotAfter]
  split <;> rfl

variable (seen free) in
theorem getElem?_slots {n : ℕ} (hn : n < rs.length) :
    (slots rs seen free).myNetFlow[n]? = some (slotAfter seen rs[n]) := by
  simp [slots, List.getElem?_append_left, hn]

theorem getElem?_slots_length {flow : NetFlow} :
    (slots rs seen (flow :: free)).myNetFlow[rs.length]? = some flow := by
  simp [slots]

theorem search_slots (rs seen : List MibIfRow) (free : List NetFlow) (mac : Bytes) :
    search (slots rs seen free).myNetFlow (fun flow => flow.MAC = mac) 0 rs.length =
      some ((rs.map (·.mac)).findIdx fun k => k = mac) := by
  have hkeys : ((slots rs seen free).myNetFlow.take (rs.map (·.mac)).length).map NetFlow.MAC =
      rs.map (·.mac) := by
    have hlen : (rs.map (·.mac)).length = (rs.map (slotAfter seen)).length := by simp
    rw [slots, hlen, List.take_left, List.map_map]
    exact List.map_congr_left fun r _ => MAC_slotAfter
  have hsearch := search_key hkeys mac
  rwa [List.length_map] at hsearch

theorem statisticRows_cons {leave : Bool} (h : statisticRow size isCalc s r = .ok (s', leave)) :
    statisticRows size isCalc (r :: rows) s =
      if leave then .ok s' else statisticRows size isCalc rows s' := by
  rw [statisticRows, h]
  rfl

theorem statisticRow_of_not_usable (hr : ¬ r.usable) :
    statisticRow size isCalc s r = .ok (s, false) := if_neg hr

theorem statisticRow_of_not_short (hr : r.usable) (hlong : ¬ r.Short) :
    statisticRow size isCalc s r = .error .overruns := by
  rw [statisticRow, if_pos hr, printMAC_of_not_short hr hlong]
  rfl

/-- A row that a slot is looked up for. -/
theorem statisticRow_slots (hr : r.usable) (hshort : r.Short) {n : ℕ}
    (hn : (rs.map (·.mac)).findIdx (fun k => k = r.mac) = n) :
    statisticRow size isCalc (slots rs seen free) r =
      if isCalc = 0 ∧ n < rs.length then .ok (slots rs seen free, false)
      else (access (slots rs seen free).myNetFlow[n]?).bind fun flow =>
        if isCalc = 1 ∧ flow.Updated = 2 then .ok (slots rs seen free, false)
        else
          let myNetFlow := (slots rs seen free).myNetFlow.set n (flow.update r.mac r)
          if isCalc = 0 then .ok (⟨myNetFlow, rs.length + 1⟩, rs.length + 1 = size)
          else .ok (⟨myNetFlow, rs.length⟩, false) := by
  have hsearch := search_slots rs seen free r.mac
  rw [hn] at hsearch
  have hnMAC : (slots rs seen free).nMAC = rs.length := rfl
  rw [statisticRow, if_pos hr, printMAC_of_short hr hshort]
  simp only [hnMAC, hsearch, access, bind, Except.bind, pure, Except.pure]

theorem exists_findIdx (hmem : mac ∈ rs.map (·.mac)) : ∃ n, ∃ h : n < rs.length,
    (rs.map (·.mac)).findIdx (fun k => k = mac) = n ∧ rs[n].mac = mac := by
  have hlt : (rs.map (·.mac)).findIdx (fun k => k = mac) < (rs.map (·.mac)).length :=
    List.findIdx_lt_length_of_exists ⟨mac, hmem, by simp⟩
  have hfound := List.findIdx_getElem (w := hlt)
  rw [List.getElem_map, decide_eq_true_iff] at hfound
  exact ⟨_, by rwa [List.length_map] at hlt, rfl, hfound⟩

theorem findIdx_of_not_mem (hnew : mac ∉ rs.map (·.mac)) :
    (rs.map (·.mac)).findIdx (fun k => k = mac) = rs.length := by
  rw [← List.length_map (f := fun r : MibIfRow => r.mac), List.findIdx_eq_length]
  intro k hk
  exact decide_eq_false fun heq => hnew (heq ▸ hk)

theorem statisticRow_known (hr : r.usable) (hshort : r.Short) (hmem : r.mac ∈ rs.map (·.mac)) :
    statisticRow size 0 (slots rs seen free) r = .ok (slots rs seen free, false) := by
  obtain ⟨n, hlt, hn, -⟩ := exists_findIdx hmem
  rw [statisticRow_slots hr hshort hn, if_pos ⟨rfl, hlt⟩]

theorem statisticRow_first (hr : r.usable) (hshort : r.Short) (hnew : r.mac ∉ rs.map (·.mac)) :
    statisticRow size 0 (slots rs [] (.init :: free)) r =
      .ok (slots (rs ++ [r]) [] free, rs.length + 1 = size) := by
  have hset : (slots rs [] (.init :: free)).myNetFlow.set rs.length (firstSlot r) =
      (rs ++ [r]).map (slotAfter []) ++ free := by
    have hr : slotAfter [] r = firstSlot r := rfl
    simp [slots, hr]
  rw [statisticRow_slots hr hshort (findIdx_of_not_mem hnew), if_neg (by simp),
    getElem?_slots_length]
  rw [access, Except.bind, if_neg (by simp), if_pos rfl]
  rw [← firstSlot, hset, slots, List.length_append, List.length_singleton]

/-- Behind the last slot there is nothing to read or to write. -/
theorem statisticRow_full (hr : r.usable) (hshort : r.Short) (hnew : r.mac ∉ rs.map (·.mac)) :
    statisticRow size isCalc (slots rs seen []) r = .error .outOfBounds := by
  have hnone : (slots rs seen []).myNetFlow[rs.length]? = none := by simp [slots]
  rw [statisticRow_slots hr hshort (findIdx_of_not_mem hnew), if_neg (by simp), hnone]
  rfl

theorem slotAfter_concat (h : ¬ (r.usable ∧ r.mac = r₁.mac)) :
    slotAfter (seen ++ [r]) r₁ = slotAfter seen r₁ := by
  have hrow : rowOf (seen ++ [r]) r₁.mac = rowOf seen r₁.mac := by
    rw [rowOf_concat, if_neg h, Option.or_none]
  rw [slotAfter, slotAfter, hrow]

theorem slots_concat (h : ∀ r₁ ∈ rs, slotAfter (seen ++ [r]) r₁ = slotAfter seen r₁) :
    slots rs (seen ++ [r]) free = slots rs seen free := by
  rw [slots, slots, List.map_congr_left h]

/-- A row whose MAC address has been seen changes no slot. -/
theorem slotAfter_concat_of_some (h : rowOf seen r.mac = some r₂) :
    slotAfter (seen ++ [r]) r₁ = slotAfter seen r₁ := by
  by_cases hmac : r.mac = r₁.mac
  · rw [slotAfter, slotAfter, rowOf_concat, ← hmac, h, Option.some_or]
  · exact slotAfter_concat fun hr => hmac hr.2

variable (seen) in
/-- A row changes the slot of its MAC address only. -/
theorem map_slotAfter_concat (hnodup : (rs.map (·.mac)).Nodup) {n : ℕ} (hn : n < rs.length)
    (hmac : rs[n].mac = r.mac) : (rs.map (slotAfter seen)).set n (slotAfter (seen ++ [r]) rs[n]) =
      rs.map (slotAfter (seen ++ [r])) := by
  have hn' : n < (rs.map (·.mac)).length := by simpa using hn
  apply List.ext_getElem (by simp)
  intro i _ hi
  have hi' : i < (rs.map (·.mac)).length := by simpa using hi
  rw [List.getElem_set, List.getElem_map, List.getElem_map]
  split_ifs with hin
  · subst hin
    rfl
  · refine (slotAfter_concat fun hr => hin ?_).symm
    have hsame : (rs.map (·.mac))[n] = (rs.map (·.mac))[i] := by
      rw [List.getElem_map, List.getElem_map, hmac, hr.2]
    exact hnodup.getElem_inj_iff.mp hsame

/-- The second call takes the difference for the first row of a MAC address, and skips others. -/
theorem statisticRow_second (hnodup : (rs.map (·.mac)).Nodup) (hr : r.usable) (hshort : r.Short)
    (hmem : r.mac ∈ rs.map (·.mac)) :
    statisticRow size 1 (slots rs seen free) r = .ok (slots rs (seen ++ [r]) free, false) := by
  obtain ⟨n, hlt, hn, hmac⟩ := exists_findIdx hmem
  rw [statisticRow_slots hr hshort hn, if_neg (by simp), getElem?_slots seen free hlt, access,
    Except.bind]
  cases hrow : rowOf seen r.mac with
  | some r₂ =>
    have hupdated : (slotAfter seen rs[n]).Updated = 2 := by
      rw [slotAfter_of_some (hmac ▸ hrow)]
      rfl
    rw [if_pos ⟨rfl, hupdated⟩, slots_concat fun r₁ _ => slotAfter_concat_of_some hrow]
  | none =>
    have hfirst : slotAfter seen rs[n] = firstSlot rs[n] := slotAfter_of_none (hmac ▸ hrow)
    have hnext : slotAfter (seen ++ [r]) rs[n] = (firstSlot rs[n]).update r.mac r := by
      have hrow' : rowOf (seen ++ [r]) rs[n].mac = some r := by
        rw [rowOf_concat, hmac, hrow, if_pos ⟨hr, rfl⟩, Option.none_or]
      rw [slotAfter_of_some hrow', hmac]
    have hset := map_slotAfter_concat seen hnodup hlt hmac
    rw [hnext] at hset
    rw [hfirst, if_neg (by simp [firstSlot, NetFlow.update, NetFlow.init]), if_neg (by decide)]
    simp [slots, List.set_append_left, hlt, hset]

/-- A MAC address without a slot is written to the first free one, unless two rows have been. -/
theorem statisticRow_unknown {flow : NetFlow} (hr : r.usable) (hshort : r.Short)
    (hnew : r.mac ∉ rs.map (·.mac)) : statisticRow size 1 (slots rs seen (flow :: free)) r =
      .ok (slots rs (seen ++ [r])
        ((if flow.Updated = 2 then flow else flow.update r.mac r) :: free), false) := by
  have hsame (free' : List NetFlow) : slots rs (seen ++ [r]) free' = slots rs seen free' :=
    slots_concat fun r₁ hr₁ => slotAfter_concat fun h =>
      hnew (List.mem_map.mpr ⟨r₁, hr₁, h.2.symm⟩)
  have hset (flow' : NetFlow) : (slots rs seen (flow :: free)).myNetFlow.set rs.length flow' =
      (slots rs seen (flow' :: free)).myNetFlow := by
    simp [slots]
  rw [statisticRow_slots hr hshort (findIdx_of_not_mem hnew), if_neg (by simp),
    getElem?_slots_length, access, Except.bind, hsame]
  by_cases htwo : flow.Updated = 2
  · rw [if_pos ⟨rfl, htwo⟩, if_pos htwo]
  · rw [if_neg fun h => htwo h.2, if_neg htwo, if_neg (by decide), hset]
    rfl

end Vs17.Monitor.IOStatistic
