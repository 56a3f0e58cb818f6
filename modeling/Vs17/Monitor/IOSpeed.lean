import Vs17.Monitor.IOCalls

/-! # Network speeds

`getIOSpeed` calls `getIOStatistic` twice, a second apart, and looks for the slot of each adapter.
The loop over the adapters works on copies of them.
-/

namespace Vs17.Monitor.IOStatistic

open Words Slots
open CString (bind_ok_iff)

def kbytes : UInt64 := 1024

def speed (delta : UInt64) : UInt64 := delta * 8 / kbytes

/-- What is printed for an adapter. -/
structure SpeedLine where
  FriendlyName : List UInt16
  MAC : Bytes
  recvSpeed : UInt64
  transmitSpeed : UInt64
  ip : Bytes
  deriving DecidableEq, Repr

/-- The search for the slot of an adapter, and what is assigned if there is one. -/
def updateSpeed (myNetFlow : List NetFlow) (size : ℕ) (adapters : NetAdapter) :
    Except Fault NetAdapter := do
  let n ← access (search myNetFlow (fun flow => flow.MAC = adapters.MAC) 0 size)
  if n < size then
    let flow ← access myNetFlow[n]?
    return { adapters with
      recvSpeed := speed (flow.counters .InOctets).Delta
      transmitSpeed := speed (flow.counters .OutOctets).Delta }
  else
    return adapters

def printSpeed (adapters : NetAdapter) : Except Fault SpeedLine := do
  let address ← access adapters.address[0]?
  return ⟨adapters.FriendlyName, adapters.MAC, adapters.recvSpeed, adapters.transmitSpeed,
    address.ip⟩

/-- A round of the loop. Its variable is a copy of the adapter, and only the copy is assigned to. -/
def speedRound (myNetFlow : List NetFlow) (size : ℕ) (adapters : NetAdapter) :
    Except Fault SpeedLine := do
  let adapters ← updateSpeed myNetFlow size adapters
  printSpeed adapters

/-- The adapters behind the call, and what has been printed. -/
def getIOSpeed (mv_adapters : List NetAdapter) (table₁ table₂ : IfTable) :
    Except Fault (List NetAdapter × List SpeedLine) := do
  let (_, s) ← getIOStatistic mv_adapters 0 table₁ (.new mv_adapters)
  let (_, s) ← getIOStatistic mv_adapters 1 table₂ s
  let printed ← mv_adapters.mapM (speedRound s.myNetFlow mv_adapters.length)
  return (mv_adapters, printed)

/-- An adapter with the speeds of its MAC address. -/
def withSpeeds (t₁ t₂ : List MibIfRow) (a : NetAdapter) : NetAdapter :=
  match rowOf t₁ a.MAC, rowOf t₂ a.MAC with
  | some r₁, some r₂ =>
    { a with
      recvSpeed := speed (r₂.counters .InOctets - r₁.counters .InOctets)
      transmitSpeed := speed (r₂.counters .OutOctets - r₁.counters .OutOctets) }
  | _, _ => a

/-- After the call each stored adapter has its speeds, and is as before otherwise. -/
def StoresSpeeds (mv_adapters : List NetAdapter) (t₁ t₂ : List MibIfRow) : Prop :=
  ∃ printed, getIOSpeed mv_adapters (returned t₁) (returned t₂) =
    .ok (mv_adapters.map (withSpeeds t₁ t₂), printed)

/-- The MAC addresses of the adapters are different, and are those of each table. They have been
printed into an array of 64 bytes. -/
structure Matching (mv_adapters : List NetAdapter) (t₁ t₂ : List MibIfRow) : Prop where
  nodup : (mv_adapters.map (·.MAC)).Nodup
  macs₁ : ∀ mac, mac ∈ (usableRows t₁).map (·.mac) ↔ mac ∈ mv_adapters.map (·.MAC)
  macs₂ : ∀ mac, mac ∈ (usableRows t₂).map (·.mac) ↔ mac ∈ mv_adapters.map (·.MAC)
  fits : ∀ a ∈ mv_adapters, a.MAC.length < 64

variable {mv_adapters stored : List NetAdapter} {t₁ t₂ : List MibIfRow} {a : NetAdapter}
  {printed : List SpeedLine} {table₁ table₂ : IfTable}

section Copies

theorem exists_of_mapM {α β : Type} {f : α → Except Fault β} {xs : List α} {ys : List β}
    (h : xs.mapM f = .ok ys) : ∀ x ∈ xs, ∃ y, f x = .ok y := by
  induction xs generalizing ys with
  | nil => simp
  | cons x xs ih =>
    rw [List.mapM_cons] at h
    obtain ⟨y, hy, h⟩ := bind_ok_iff.mp h
    obtain ⟨ys', hys', -⟩ := bind_ok_iff.mp h
    exact List.forall_mem_cons.mpr ⟨⟨y, hy⟩, ih hys'⟩

theorem mapM_eq_map {α β : Type} {f : α → Except Fault β} {g : α → β} {xs : List α}
    (h : ∀ x ∈ xs, f x = .ok (g x)) : xs.mapM f = .ok (xs.map g) := by
  induction xs with
  | nil => rfl
  | cons x xs ih =>
    obtain ⟨hx, hxs⟩ := List.forall_mem_cons.mp h
    rw [List.mapM_cons, hx, ih hxs]
    rfl

theorem address_updateSpeed {myNetFlow : List NetFlow} {size : ℕ} {a' : NetAdapter}
    (h : updateSpeed myNetFlow size a = .ok a') : a'.address = a.address := by
  obtain ⟨n, -, h⟩ := bind_ok_iff.mp h
  split_ifs at h with hn
  · obtain ⟨flow, -, h⟩ := bind_ok_iff.mp h
    cases h
    rfl
  · cases h
    rfl

/-- Whatever the tables are, the stored adapters are those before the call, and each has an
address. -/
theorem stored_eq (h : getIOSpeed mv_adapters table₁ table₂ = .ok (stored, printed)) :
    stored = mv_adapters ∧ ∀ a ∈ mv_adapters, a.address ≠ [] := by
  obtain ⟨s₁, -, h⟩ := bind_ok_iff.mp h
  obtain ⟨s₂, -, h⟩ := bind_ok_iff.mp h
  obtain ⟨lines, hlines, h⟩ := bind_ok_iff.mp h
  cases h
  refine ⟨rfl, fun a ha hnil => ?_⟩
  obtain ⟨line, hline⟩ := exists_of_mapM hlines a ha
  obtain ⟨a', ha', hprint⟩ := bind_ok_iff.mp hline
  obtain ⟨address, haccess, -⟩ := bind_ok_iff.mp hprint
  rw [address_updateSpeed ha', hnil] at haccess
  cases haccess

end Copies

section Speeds

namespace Matching

variable (h : Matching mv_adapters t₁ t₂)
include h

theorem short {r : MibIfRow} (hr : r.usable) (hmac : r.mac ∈ mv_adapters.map (·.MAC)) :
    r.Short := by
  obtain ⟨a, ha, hMAC⟩ := List.mem_map.mp hmac
  exact (r.short_iff hr).mpr (hMAC ▸ h.fits a ha)

theorem length_firstRows : (firstRows t₁).length = mv_adapters.length := by
  have hperm : ((firstRows t₁).map (·.mac)).Perm (mv_adapters.map (·.MAC)) := by
    rw [List.perm_ext_iff_of_nodup nodup_firstRows h.nodup]
    intro mac
    rw [firstRows, mem_keys_records, h.macs₁]
  simpa using hperm.length_eq

theorem recorded_eq : recorded mv_adapters.length t₁ = firstRows t₁ :=
  List.take_of_length_le h.length_firstRows.le

/-- There is a slot for each MAC address. -/
theorem safe : Safe mv_adapters t₁ t₂ := by
  have hshort {t : List MibIfRow} (hmacs : ∀ mac, mac ∈ (usableRows t).map (·.mac) ↔
      mac ∈ mv_adapters.map (·.MAC)) : ∀ r ∈ usableRows t, r.Short := by
    intro r hr
    exact h.short (List.mem_filter.mp hr).2 ((hmacs r.mac).mp (List.mem_map_of_mem hr))
  constructor
  · by_cases hnil : mv_adapters = []
    · refine .inr (List.eq_nil_iff_forall_not_mem.mpr fun r hr => ?_)
      have hmem := (h.macs₁ r.mac).mp (List.mem_map_of_mem hr)
      rw [hnil] at hmem
      cases hmem
    · exact .inl hnil
  · intro mid r post hrows hr _
    refine hshort h.macs₁ r (List.mem_filter.mpr ⟨?_, hr⟩)
    rw [hrows]
    exact List.mem_append_right _ (List.mem_cons_self ..)
  · exact hshort h.macs₂
  · refine .inr fun r hr => ?_
    rw [h.recorded_eq, firstRows, mem_keys_records, h.macs₁, ← h.macs₂]
    exact List.mem_map_of_mem hr

/-- The slot of an adapter is found, and holds the differences of its counters. -/
theorem updateSpeed_eq (free : List NetFlow) (ha : a ∈ mv_adapters) :
    updateSpeed (slots (firstRows t₁) t₂ free).myNetFlow mv_adapters.length a =
      .ok (withSpeeds t₁ t₂ a) := by
  have hmem : a.MAC ∈ mv_adapters.map (·.MAC) := List.mem_map_of_mem ha
  have hkey : a.MAC ∈ (firstRows t₁).map (·.mac) := by
    rwa [firstRows, mem_keys_records, h.macs₁]
  obtain ⟨n, hlt, hn, hfound⟩ := exists_findIdx hkey
  have hsearch := search_slots (firstRows t₁) t₂ free a.MAC
  rw [hn] at hsearch
  have hflow := getElem?_slots t₂ free hlt
  have hrow₁ : rowOf t₁ a.MAC = some (firstRows t₁)[n] := by
    rw [← hfound]
    exact rowOf_of_mem_firstRows (List.getElem_mem hlt)
  obtain ⟨r₂, hrow₂⟩ : ∃ r₂, rowOf t₂ a.MAC = some r₂ := by
    rw [← Option.isSome_iff_exists, rowOf, ← mem_keys_iff, h.macs₂]
    exact hmem
  have hslot : slotAfter t₂ (firstRows t₁)[n] =
      (firstSlot (firstRows t₁)[n]).update (firstRows t₁)[n].mac r₂ :=
    slotAfter_of_some (hfound ▸ hrow₂)
  rw [← h.length_firstRows, updateSpeed, hsearch]
  simp only [access, bind, Except.bind, if_pos hlt, hflow, hslot, withSpeeds, hrow₁, hrow₂]
  rfl

end Matching

end Speeds

/-- The line for an adapter. -/
def line (a : NetAdapter) : SpeedLine :=
  ⟨a.FriendlyName, a.MAC, a.recvSpeed, a.transmitSpeed, a.address.head?.elim [] (·.ip)⟩

theorem printSpeed_eq (ha : a.address ≠ []) : printSpeed a = .ok (line a) := by
  obtain ⟨address, rest, hcons⟩ := List.exists_cons_of_ne_nil ha
  simp [printSpeed, line, hcons, access, bind, Except.bind, pure, Except.pure]

theorem address_withSpeeds : (withSpeeds t₁ t₂ a).address = a.address := by
  rw [withSpeeds]
  split <;> rfl

/-- The speeds are printed, and the stored adapters are left as they are. -/
theorem Matching.getIOSpeed_eq (h : Matching mv_adapters t₁ t₂)
    (haddress : ∀ a ∈ mv_adapters, a.address ≠ []) :
    getIOSpeed mv_adapters (returned t₁) (returned t₂) =
      .ok (mv_adapters, mv_adapters.map fun a => line (withSpeeds t₁ t₂ a)) := by
  obtain ⟨hfirst, hsecond⟩ := h.safe.both
  rw [h.recorded_eq] at hfirst hsecond
  rw [bothSlots] at hsecond
  generalize behind _ _ = free at hsecond
  have hround : ∀ a ∈ mv_adapters,
      speedRound (slots (firstRows t₁) t₂ free).myNetFlow mv_adapters.length a =
        .ok (line (withSpeeds t₁ t₂ a)) := by
    intro a ha
    have haddress' : (withSpeeds t₁ t₂ a).address ≠ [] := by
      rw [address_withSpeeds]
      exact haddress a ha
    rw [speedRound, h.updateSpeed_eq free ha]
    exact printSpeed_eq haddress'
  have hlines := mapM_eq_map hround
  rw [getIOSpeed, hfirst]
  simp only [bind, Except.bind, hsecond, hlines]
  rfl

/-- The adapter has its speeds already. -/
def Settled (t₁ t₂ : List MibIfRow) (a : NetAdapter) : Prop :=
  ∀ r₁ r₂, rowOf t₁ a.MAC = some r₁ → rowOf t₂ a.MAC = some r₂ →
    a.recvSpeed = speed (r₂.counters .InOctets - r₁.counters .InOctets) ∧
      a.transmitSpeed = speed (r₂.counters .OutOctets - r₁.counters .OutOctets)

theorem withSpeeds_eq_self_iff : withSpeeds t₁ t₂ a = a ↔ Settled t₁ t₂ a := by
  rw [withSpeeds, Settled]
  cases rowOf t₁ a.MAC with
  | none => simp
  | some r₁ =>
    cases rowOf t₂ a.MAC with
    | none => simp
    | some r₂ =>
      obtain ⟨mtu, name, friendlyName, describe, mac, transmitSpeed, recvSpeed, address⟩ := a
      simp [eq_comm, and_comm]

/-- The stored adapters have their speeds exactly if they have had them before, and each has an
address to print. -/
theorem storesSpeeds_iff (h : Matching mv_adapters t₁ t₂) : StoresSpeeds mv_adapters t₁ t₂ ↔
    ∀ a ∈ mv_adapters, a.address ≠ [] ∧ Settled t₁ t₂ a := by
  have hself : mv_adapters.map (withSpeeds t₁ t₂) = mv_adapters ↔
      ∀ a ∈ mv_adapters, withSpeeds t₁ t₂ a = a := by
    simpa using List.map_inj_left (g := id)
  constructor
  · rintro ⟨printed, hrun⟩ a ha
    obtain ⟨hstored, haddress⟩ := stored_eq hrun
    exact ⟨haddress a ha, withSpeeds_eq_self_iff.mp (hself.mp hstored a ha)⟩
  · intro hall
    have hsame : mv_adapters.map (withSpeeds t₁ t₂) = mv_adapters :=
      hself.mpr fun a ha => withSpeeds_eq_self_iff.mpr (hall a ha).2
    refine ⟨mv_adapters.map fun a => line (withSpeeds t₁ t₂ a), ?_⟩
    rw [hsame, h.getIOSpeed_eq fun a ha => (hall a ha).1]

theorem matching_adapter (octets₁ octets₂ : UInt64) :
    Matching [adapter] [interfaceUp 1 octets₁] [interfaceUp 1 octets₂] := by
  constructor
  · exact List.nodup_singleton _
  · exact fun mac => Iff.rfl
  · exact fun mac => Iff.rfl
  · decide

/-- Without any traffic the speeds stay 0. -/
theorem storesSpeeds_iff_idle :
    StoresSpeeds [adapter] [interfaceUp 1 100] [interfaceUp 1 100] := by
  refine (storesSpeeds_iff (matching_adapter 100 100)).mpr fun a ha => ?_
  cases List.mem_singleton.mp ha
  refine ⟨by decide, fun r₁ r₂ hr₁ hr₂ => ?_⟩
  cases hr₁
  cases hr₂
  decide

/-- 1000 Kbit are printed for the second between the calls, and 0 are stored. -/
theorem not_storesSpeeds_adapter :
    getIOSpeed [adapter] (returned [interfaceUp 1 100]) (returned [interfaceUp 1 128100]) =
        .ok ([adapter], [⟨[], adapter.MAC, 1000, 1000, [49, 48, 46, 48, 46, 48, 46, 49]⟩]) ∧
      ¬ StoresSpeeds [adapter] [interfaceUp 1 100] [interfaceUp 1 128100] := by
  refine ⟨rfl, fun ⟨printed, hrun⟩ => ?_⟩
  have hstored := (stored_eq hrun).1
  exact absurd (congrArg (List.map (·.recvSpeed)) hstored) (by decide)

end Vs17.Monitor.IOStatistic
