import Vs17.Net.Wintun

/-! # Packets come out of the rings as they went in

The positions of the packets in a ring count on without end, and the head and the tail are their
remainders. `write_wintun` may have read an old head, which makes its ring look fuller than it is,
and `read_wintun` an old tail, which makes its ring look emptier.
-/

namespace Vs17.Net

open Words Rings Runs

theorem and_align {n : ℕ} (h : n < 2 ^ 32) : n &&& 4294967292 = n / 4 * 4 := by
  apply Nat.eq_of_testBit_eq
  intro i
  have hmask : (4294967292 : ℕ) = (2 ^ 30 - 1) <<< 2 := by decide
  have hshift : n / 4 * 4 = (n >>> 2) <<< 2 := by
    rw [Nat.shiftLeft_eq, Nat.shiftRight_eq_div_pow]
  rw [Nat.testBit_and, hmask, hshift, Nat.testBit_shiftLeft, Nat.testBit_shiftLeft,
    Nat.testBit_two_pow_sub_one, Nat.testBit_shiftRight]
  by_cases hi : 2 ≤ i
  · have hback : 2 + (i - 2) = i := by omega
    by_cases hin : i - 2 < 30
    · simp [hi, hin, hback]
    · have hout : n.testBit i = false :=
        Nat.testBit_lt_two_pow (h.trans_le (Nat.pow_le_pow_right (by decide) (by omega)))
      simp [hi, hin, hback, hout]
  · simp [hi]

theorem toNat_wrap (v : UInt32) : (wintunRingWrap v).toNat = v.toNat % wintunRingCapacity := by
  unfold wintunRingWrap
  rw [UInt32.toNat_and]
  exact Nat.and_two_pow_sub_one_eq_mod v.toNat 23

/-- The positions that a record takes up. -/
def span (record : Bytes) : ℕ := (record.length + 3) / 4 * 4

theorem le_span (record : Bytes) : record.length ≤ span record := by
  unfold span
  omega

theorem dvd_span (record : Bytes) : 4 ∣ span record := Dvd.intro_left _ rfl

theorem length_tunPacket (packet : Bytes) : (tunPacket packet).length = 4 + packet.length := by
  simp [tunPacket]

theorem span_pos (packet : Bytes) : 4 ≤ span (tunPacket packet) := by
  unfold span
  rw [length_tunPacket]
  omega

theorem toNat_align {n : ℕ} (h : n ≤ wintunMaxPacketSize) :
    (alignedPacketSize n).toNat = (4 + n + 3) / 4 * 4 := by
  unfold wintunMaxPacketSize at h
  unfold alignedPacketSize wintunRingPacketAlign tunPacketHeader
  rw [UInt32.toNat_and, UInt32.toNat_add, UInt32.toNat_ofNat']
  have hmask : (~~~3 : UInt32).toNat = 4294967292 := by decide
  have hthree : (3 : UInt32).toNat = 3 := by decide
  rw [hmask, hthree, and_align (Nat.mod_lt _ (by decide))]
  omega

/-- The number of positions that the packets take up. -/
def taken (queue : List Bytes) : ℕ := extent span (queue.map tunPacket)

@[simp] theorem taken_nil : taken [] = 0 := rfl

@[simp] theorem taken_cons (packet : Bytes) (queue : List Bytes) :
    taken (packet :: queue) = span (tunPacket packet) + taken queue := by
  simp [taken]

@[simp] theorem taken_append (queue queue' : List Bytes) :
    taken (queue ++ queue') = taken queue + taken queue' := by
  simp [taken]

theorem dvd_taken (queue : List Bytes) : 4 ∣ taken queue := by
  induction queue with
  | nil => exact dvd_zero 4
  | cons packet queue ih =>
    rw [taken_cons]
    exact Nat.dvd_add (dvd_span _) ih

section Ring

/-- The packets of the queue are in the ring, from this position on: those that have been stored
and not been taken yet. -/
structure Holds (ring : TunRing) (stored taken' : List Bytes) (base : ℕ) (queue : List Bytes) :
    Prop where
  eq_append : stored = taken' ++ queue
  head : ring.head.toNat = base % wintunRingCapacity
  tail : ring.tail.toNat = (base + taken queue) % wintunRingCapacity
  room : taken queue + 4 ≤ wintunRingCapacity
  data : Stored wintunRingCapacity span ring.data base (queue.map tunPacket)
  short : ∀ packet ∈ queue, packet.length ≤ wintunMaxPacketSize
  aligned : 4 ∣ base
  memory : ring.data.length = wintunRingCapacity + wintunRingTrailingBytes

/-- What a call of `write_wintun` has read, or has stored. -/
def WriteKept (ring : TunRing) (base : ℕ) (queue : List Bytes) : WritePc → Prop
  | .idle => True
  | .loaded packet head tail => packet.length ≤ wintunMaxPacketSize ∧ tail = ring.tail ∧
      ∃ old ≤ base, head.toNat = old % wintunRingCapacity ∧
        base + taken queue + 4 ≤ old + wintunRingCapacity
  | .stored packet tail => packet.length ≤ wintunMaxPacketSize ∧
      taken (queue ++ [packet]) + 4 ≤ wintunRingCapacity ∧
      tail.toNat = (base + taken (queue ++ [packet])) % wintunRingCapacity ∧
      Stored wintunRingCapacity span ring.data base ((queue ++ [packet]).map tunPacket)

/-- What a call of `read_wintun` has read, or has taken. -/
def ReadKept (ring : TunRing) (base : ℕ) (queue : List Bytes) : ReadPc → Prop
  | .idle => True
  | .loaded head tail => head = ring.head ∧ ∃ seen rest, queue = seen ++ rest ∧
      tail.toNat = (base + taken seen) % wintunRingCapacity
  | .taken head content => ∃ rest, queue = content :: rest ∧
      head.toNat = (base + span (tunPacket content)) % wintunRingCapacity

variable {ring ring' : TunRing} {stored taken' queue rest : List Bytes} {base : ℕ}
  {packet data : Bytes} {head tail : UInt32}

theorem lt_capacity {v : UInt32} {p : ℕ} (h : v.toNat = p % wintunRingCapacity) :
    v.toNat < wintunRingCapacity := by
  rw [h]
  exact Nat.mod_lt _ (by decide)

/-- The room behind the tail, from a head that may be old. -/
theorem toNat_bufSpace {old v : ℕ} (hhead : head.toNat = old % wintunRingCapacity)
    (htail : tail.toNat = v % wintunRingCapacity) (hle : old ≤ v)
    (hroom : v + 4 ≤ old + wintunRingCapacity) :
    (wintunRingWrap (head - tail - 4)).toNat = old + wintunRingCapacity - 4 - v := by
  have hfour : (4 : UInt32).toNat = 4 := by decide
  rw [toNat_wrap, UInt32.toNat_sub, UInt32.toNat_sub, hfour]
  unfold wintunRingCapacity at *
  omega

/-- The positions from the head up to a tail that may be old. -/
theorem toNat_contentLen {n : ℕ} (hhead : head.toNat = base % wintunRingCapacity)
    (htail : tail.toNat = (base + n) % wintunRingCapacity) (hn : n < wintunRingCapacity) :
    (wintunRingWrap (tail - head)).toNat = n := by
  rw [toNat_wrap, UInt32.toNat_sub]
  unfold wintunRingCapacity at *
  omega

/-- What is read at the position of a packet. -/
theorem load_of_region {p : ℕ} (hsize : packet.length < 2 ^ 32)
    (h : region data p (tunPacket packet).length = tunPacket packet) :
    load 4 p data = packet.length ∧ region data (p + 4) packet.length = packet := by
  have hlength := length_tunPacket packet
  constructor
  · have hload : (data.drop p).take 4 = toLE 4 packet.length := by
      have htake := congrArg (List.take 4) h
      rw [region, List.take_take, Nat.min_eq_left (by omega)] at htake
      exact htake.trans (List.take_left' (by simp))
    rw [load, hload, ofLE_toLE]
    exact Nat.mod_eq_of_lt hsize
  · have hdrop := congrArg (List.drop 4) h
    rw [region, List.drop_take, List.drop_drop, hlength, Nat.add_sub_cancel_left] at hdrop
    rw [region, hdrop]
    exact List.drop_left' (by simp)

namespace Holds

variable (h : Holds ring stored taken' base queue)
include h

/-- What is behind the records does not matter. -/
theorem of_data (hdata : Stored wintunRingCapacity span data base (queue.map tunPacket))
    (hlength : data.length = ring.data.length) :
    Holds { ring with data := data } stored taken' base queue :=
  ⟨h.eq_append, h.head, h.tail, h.room, hdata, h.short, h.aligned, hlength.trans h.memory⟩

/-- The tail is moved behind a packet that has been stored. -/
theorem push (hsize : packet.length ≤ wintunMaxPacketSize)
    (hroom : taken (queue ++ [packet]) + 4 ≤ wintunRingCapacity)
    (htail : tail.toNat = (base + taken (queue ++ [packet])) % wintunRingCapacity)
    (hdata : Stored wintunRingCapacity span data base ((queue ++ [packet]).map tunPacket))
    (hlength : data.length = ring.data.length) :
    Holds { ring with tail := tail, data := data } (stored ++ [packet]) taken' base
      (queue ++ [packet]) := by
  refine ⟨by simp [h.eq_append], h.head, htail, hroom, hdata, ?_, h.aligned,
    hlength.trans h.memory⟩
  simpa [or_imp, forall_and, hsize] using h.short

/-- What storing a packet behind the tail makes of the data, where there is room for it. -/
theorem blit_spec (hsize : packet.length ≤ wintunMaxPacketSize)
    (hroom : taken (queue ++ [packet]) + 4 ≤ wintunRingCapacity) :
    ring.tail.toNat + (tunPacket packet).length ≤ ring.data.length ∧
      (wintunRingWrap (ring.tail + alignedPacketSize packet.length)).toNat =
        (base + taken (queue ++ [packet])) % wintunRingCapacity ∧
      Stored wintunRingCapacity span (blit ring.tail.toNat (tunPacket packet) ring.data) base
        ((queue ++ [packet]).map tunPacket) := by
  have htail := h.tail
  have htaillt := lt_capacity htail
  have haligned := toNat_align hsize
  have hlength := length_tunPacket packet
  have htotal : taken (queue ++ [packet]) = taken queue + span (tunPacket packet) := by simp
  have hspan : span (tunPacket packet) = (4 + packet.length + 3) / 4 * 4 := by
    rw [span, length_tunPacket]
  have hmemory : ring.tail.toNat + (tunPacket packet).length ≤ ring.data.length := by
    -- the tail is a multiple of four below the capacity
    have hfour := Nat.dvd_add h.aligned (dvd_taken queue)
    rw [h.memory, hlength]
    unfold wintunRingCapacity wintunRingTrailingBytes wintunMaxPacketSize at *
    omega
  refine ⟨hmemory, ?_, ?_⟩
  · rw [toNat_wrap, UInt32.toNat_add, haligned, htail, htotal, ← hspan]
    unfold wintunRingCapacity
    omega
  · rw [htail] at hmemory ⊢
    rw [List.map_append]
    refine h.data.push le_span ?_ hmemory
    change taken queue + span (tunPacket packet) ≤ wintunRingCapacity
    omega

/-- There is room for a packet that fits in what is seen from an old head. -/
theorem room_of_not_gt {old : ℕ} (hsize : packet.length ≤ wintunMaxPacketSize)
    (hhead : head.toNat = old % wintunRingCapacity) (hold : old ≤ base)
    (hroom : base + taken queue + 4 ≤ old + wintunRingCapacity)
    (hfits : alignedPacketSize packet.length ≤ wintunRingWrap (head - ring.tail - 4)) :
    taken (queue ++ [packet]) + 4 ≤ wintunRingCapacity := by
  rw [UInt32.le_iff_toNat_le, toNat_align hsize,
    toNat_bufSpace hhead h.tail (by omega) hroom] at hfits
  rw [taken_append, taken_cons, taken_nil, Nat.add_zero, span, length_tunPacket]
  omega

theorem head_eq_tail_iff : ring.head = ring.tail ↔ taken' = stored := by
  have hhead := h.head
  have htail := h.tail
  have hroom := h.room
  rw [h.eq_append, List.self_eq_append_right, ← UInt32.toNat_inj]
  constructor
  · intro heq
    cases queue with
    | nil => rfl
    | cons packet queue =>
      have hspan := span_pos packet
      rw [taken_cons] at htail hroom
      unfold wintunRingCapacity at *
      omega
  · rintro rfl
    rw [hhead, htail]
    rfl

end Holds

/-- The head is moved behind the first packet. -/
theorem Holds.pop (h : Holds ring stored taken' base (packet :: rest))
    (hhead : head.toNat = (base + span (tunPacket packet)) % wintunRingCapacity) :
    Holds { ring with head := head } stored (taken' ++ [packet])
      (base + span (tunPacket packet)) rest := by
  have htotal := h.room
  have htail := h.tail
  rw [taken_cons] at htotal
  rw [taken_cons, ← Nat.add_assoc] at htail
  exact ⟨by simp [h.eq_append], hhead, htail, by omega, h.data.2,
    fun p hp => h.short p (List.mem_cons_of_mem packet hp),
    Nat.dvd_add h.aligned (dvd_span _), h.memory⟩

/-- What lies at the head is the first packet, and the head can be moved behind it. -/
theorem Holds.front (h : Holds ring stored taken' base (packet :: rest)) :
    region ring.data ring.head.toNat (tunPacket packet).length = tunPacket packet ∧
      packet.length ≤ wintunMaxPacketSize ∧
      (wintunRingWrap (ring.head + alignedPacketSize packet.length)).toNat =
        (base + span (tunPacket packet)) % wintunRingCapacity := by
  have hsize : packet.length ≤ wintunMaxPacketSize := h.short packet (List.mem_cons_self ..)
  have hfront : region ring.data (base % wintunRingCapacity) (tunPacket packet).length =
      tunPacket packet := (h.data : _ ∧ _).1
  refine ⟨by rwa [h.head], hsize, ?_⟩
  rw [toNat_wrap, UInt32.toNat_add, toNat_align hsize, h.head, span, length_tunPacket]
  unfold wintunRingCapacity
  omega

/-- The driver takes the first packet. -/
theorem Holds.driverTakes (h : Holds ring stored taken' base queue)
    (hd : DriverTakes ring packet ring') : ∃ rest head, queue = packet :: rest ∧
      head.toNat = (base + span (tunPacket packet)) % wintunRingCapacity ∧
      ring' = { ring with head := head } := by
  obtain ⟨hne, hsize, hregion, rfl⟩ := hd
  cases queue with
  | nil => exact absurd (h.head_eq_tail_iff.mpr (by simpa using h.eq_append.symm)) hne
  | cons first rest =>
    obtain ⟨hfront, hfirst, hhead⟩ := h.front
    -- the length at the head is that of the first packet
    obtain ⟨hload, hpacket⟩ := load_of_region (hsize.trans_lt (by decide)) hregion
    obtain ⟨hload', hpacket'⟩ := load_of_region (hfirst.trans_lt (by decide)) hfront
    have hlength : packet.length = first.length := hload.symm.trans hload'
    obtain rfl : packet = first := by rw [← hpacket, ← hpacket', hlength]
    exact ⟨rest, _, rfl, hhead, rfl⟩

/-- If there is a packet in the ring, the driver can take it. -/
theorem Holds.exists_driverTakes (h : Holds ring stored taken' base queue)
    (hne : taken' ≠ stored) : ∃ packet ring', DriverTakes ring packet ring' ∧
      taken' ++ [packet] <+: stored := by
  cases queue with
  | nil => exact absurd (by simpa using h.eq_append.symm) hne
  | cons packet rest =>
    obtain ⟨hfront, hsize, -⟩ := h.front
    refine ⟨packet, _, ⟨fun heq => hne (h.head_eq_tail_iff.mp heq), hsize, hfront, rfl⟩, rest, ?_⟩
    simp [h.eq_append]

/-- The driver stores a packet. -/
theorem Holds.driverStores (h : Holds ring stored taken' base queue)
    (hd : DriverStores ring packet ring') :
    Holds ring' (stored ++ [packet]) taken' base (queue ++ [packet]) := by
  obtain ⟨hsize, hfits, rfl⟩ := hd
  have hroom := h.room_of_not_gt hsize h.head le_rfl (by have := h.room; omega) hfits
  obtain ⟨-, htail, hdata⟩ := h.blit_spec hsize hroom
  exact h.push hsize hroom htail hdata (length_blit _ _ _)

/-- What a call of `write_wintun` has read or stored is right also when a packet is taken. -/
theorem WriteKept.pop {pc : WritePc} (h : WriteKept ring base (packet :: rest) pc) :
    WriteKept { ring with head := head } (base + span (tunPacket packet)) rest pc := by
  cases pc with
  | idle => trivial
  | loaded packet' head' tail =>
    obtain ⟨hsize, htail, old, hold, hhead, hroom⟩ := h
    rw [taken_cons, ← Nat.add_assoc] at hroom
    exact ⟨hsize, htail, old, by omega, hhead, hroom⟩
  | stored packet' tail =>
    obtain ⟨hsize, htotal, htail, hdata⟩ := h
    rw [List.cons_append, taken_cons] at htotal htail
    rw [← Nat.add_assoc] at htail
    exact ⟨hsize, by omega, htail, hdata.2⟩

/-- What a call of `read_wintun` has read or taken is right also when a packet is stored. -/
theorem ReadKept.push {pc : ReadPc} (h : ReadKept ring base queue pc) :
    ReadKept { ring with tail := tail, data := data } base (queue ++ [packet]) pc := by
  cases pc with
  | idle => trivial
  | loaded head tail' =>
    obtain ⟨hhead, seen, rest, rfl, htail⟩ := h
    exact ⟨hhead, seen, rest ++ [packet], List.append_assoc .., htail⟩
  | taken head content =>
    obtain ⟨rest, rfl, hhead⟩ := h
    exact ⟨rest ++ [packet], rfl, hhead⟩

end Ring

namespace Wintun

variable {s t : Wintun} {e : Event} {tr : List (Wintun × Event)} {bufInit : Buffer} {base : ℕ}
  {queue : List Bytes}

/-- The receive ring holds what `write_wintun` has written and the driver has not taken. -/
def ReceiveKept (s : Wintun) : Prop := ∃ base queue,
  Holds s.receiveRing s.written s.delivered base queue ∧
    WriteKept s.receiveRing base queue s.write

/-- The send ring holds what the driver has stored and `read_wintun` has not got. -/
def SendKept (s : Wintun) : Prop := ∃ base queue,
  Holds s.sendRing s.posted s.got base queue ∧ ReadKept s.sendRing base queue s.read

structure Kept (s : Wintun) : Prop where
  receive : s.ReceiveKept
  send : s.SendKept
  sound : s.failed = false

/-- A packet is stored where there is room for it, and nothing else happens to the ring. -/
theorem store_spec {packet : Bytes} {head tail : UInt32}
    (h : Holds s.receiveRing s.written s.delivered base queue)
    (hw : WriteKept s.receiveRing base queue (.loaded packet head tail)) :
    s.store packet head tail = some { s with write := .idle } ∨
      ∃ data tail', s.store packet head tail = some { s with
          receiveRing := { s.receiveRing with data := data }, write := .stored packet tail' } ∧
        Holds { s.receiveRing with data := data } s.written s.delivered base queue ∧
        WriteKept { s.receiveRing with data := data } base queue (.stored packet tail') := by
  obtain ⟨hsize, rfl, old, hold, hhead, hroom⟩ := hw
  have hheadlt := lt_capacity hhead
  have htaillt := lt_capacity h.tail
  unfold store
  split
  · exact .inl rfl
  · rw [if_neg (by omega)]
    dsimp only
    split
    · exact .inl rfl
    · next hfits =>
      have htotal := h.room_of_not_gt hsize hhead hold hroom (UInt32.not_lt.mp hfits)
      obtain ⟨hmemory, htail, hdata⟩ := h.blit_spec hsize htotal
      have hqueue := hdata
      rw [List.map_append] at hqueue
      rw [if_neg (Nat.not_lt.mpr hmemory)]
      exact .inr ⟨_, _, rfl, h.of_data (stored_append.mp hqueue).1 (length_blit _ _ _), hsize,
        htotal, htail, hdata⟩

/-- The packet at the head is taken when one has been seen, and nothing is reported. -/
theorem take_spec {head tail : UInt32} (h : Holds s.sendRing s.posted s.got base queue)
    (hroom : bufInit.offset + wintunMaxPacketSize ≤ bufInit.capacity)
    (hr : ReadKept s.sendRing base queue (.loaded head tail)) :
    head = tail ∧ s.take bufInit head tail = { s with read := .idle } ∨
      ∃ packet head', s.take bufInit head tail = { s with read := .taken head' packet } ∧
        ReadKept s.sendRing base queue (.taken head' packet) := by
  obtain ⟨rfl, seen, rest, rfl, htail⟩ := hr
  have hhead := h.head
  have hheadlt := lt_capacity hhead
  have htaillt := lt_capacity htail
  have htotal := h.room
  rw [taken_append] at htotal
  have hlen := toNat_contentLen hhead htail (by omega)
  unfold take
  rw [if_neg (by omega)]
  cases seen with
  | nil =>
    have heq : s.sendRing.head = tail := UInt32.toNat.inj (by simpa [hhead] using htail.symm)
    exact .inl ⟨heq, by rw [if_pos heq]⟩
  | cons packet seen =>
    have hspan := span_pos packet
    have hspan' : span (tunPacket packet) = (4 + packet.length + 3) / 4 * 4 := by
      rw [span, length_tunPacket]
    rw [taken_cons] at hlen htotal
    rw [List.cons_append] at h
    obtain ⟨hfront, hsize, hmoved⟩ := h.front
    obtain ⟨hload, hregion⟩ := load_of_region (hsize.trans_lt (by decide)) hfront
    refine .inr ⟨packet, _, ?_, seen ++ rest, rfl, hmoved⟩
    have hne : s.sendRing.head ≠ tail := by
      intro heq
      have hzero : (wintunRingWrap (tail - s.sendRing.head)).toNat = 0 := by
        simp [toNat_wrap, heq]
      omega
    have hput : (bufPut bufInit.clear packet).content = packet := by
      have hsafe : bufSafe bufInit.clear packet.length := by
        refine ⟨hsize.trans_lt (by decide), ?_⟩
        simp only [Buffer.clear, List.length_nil]
        omega
      simpa [Buffer.clear] using (bufPut_of_safe hsafe).1
    dsimp only
    rw [if_neg hne, if_neg (by unfold tunPacketHeader; omega), hload,
      if_neg (Nat.not_lt.mpr hsize), if_neg, tunPacketHeader, hregion, hput]
    rw [gt_iff_lt, UInt32.lt_iff_toNat_lt, toNat_align hsize, ← hspan', hlen]
    omega

section Steps

/-- A packet is short enough for the end that reads. -/
def Fits (_ : Wintun) : Event → Prop
  | .call (.write packet) => packet.length ≤ wintunMaxPacketSize
  | _ => True

/-- No step of the program fails, and it keeps the rings. -/
theorem Kept.exists_handle {c : Call} (h : Kept s)
    (hroom : bufInit.offset + wintunMaxPacketSize ≤ bufInit.capacity) (hp : s.Pending c)
    (hfits : s.Fits (.call c)) : ∃ t, s.handle bufInit c = some t ∧ Kept t := by
  obtain ⟨⟨base, queue, hring, hw⟩, hsend, hsound⟩ := h
  have hreceive : s.ReceiveKept := ⟨base, queue, hring, hw⟩
  cases c with
  | write packet =>
    have hfree := hring.room
    exact ⟨_, rfl, ⟨base, queue, hring, hfits, rfl, base, le_rfl, hring.head, by omega⟩, hsend,
      hsound⟩
  | store =>
    obtain ⟨packet, head, tail, hpc⟩ := hp
    simp only [handle, hpc]
    rcases store_spec hring (hpc ▸ hw) with heq | ⟨data, tail', heq, hring', hw'⟩
    · exact ⟨_, heq, ⟨base, queue, hring, trivial⟩, hsend, hsound⟩
    · exact ⟨_, heq, ⟨base, queue, hring', hw'⟩, hsend, hsound⟩
  | moveTail =>
    obtain ⟨packet, tail, hpc⟩ := hp
    rw [hpc] at hw
    obtain ⟨hsize, htotal, htail, hdata⟩ := hw
    simp only [handle, hpc]
    exact ⟨_, rfl, ⟨base, queue ++ [packet], hring.push hsize htotal htail hdata rfl, trivial⟩,
      hsend, hsound⟩
  | read =>
    obtain ⟨base', queue', hring', -⟩ := hsend
    exact ⟨_, rfl, hreceive, ⟨base', queue', hring', rfl, queue', [], by simp, hring'.tail⟩, hsound⟩
  | take =>
    obtain ⟨head, tail, hpc⟩ := hp
    obtain ⟨base', queue', hring', hr⟩ := hsend
    simp only [handle, hpc]
    rcases take_spec hring' hroom (hpc ▸ hr) with ⟨-, heq⟩ | ⟨packet, head', heq, hr'⟩
    · rw [heq]
      exact ⟨_, rfl, hreceive, ⟨base', queue', hring', trivial⟩, hsound⟩
    · rw [heq]
      exact ⟨_, rfl, hreceive, ⟨base', queue', hring', hr'⟩, hsound⟩
  | moveHead =>
    obtain ⟨head, content, hpc⟩ := hp
    obtain ⟨base', queue', hring', hr⟩ := hsend
    rw [hpc] at hr
    obtain ⟨rest, rfl, hhead⟩ := hr
    simp only [handle, hpc]
    exact ⟨_, rfl, hreceive, ⟨_, rest, hring'.pop hhead, trivial⟩, hsound⟩

theorem Kept.step (h : Kept s)
    (hroom : bufInit.offset + wintunMaxPacketSize ≤ bufInit.capacity) (hs : Step bufInit s e t)
    (hfits : s.Fits e) : Kept t := by
  cases e with
  | call c =>
    obtain ⟨hp, ht⟩ := hs
    obtain ⟨u, hu, hkept⟩ := h.exists_handle hroom hp hfits
    cases hu.symm.trans ht
    exact hkept
  | driverTakes packet =>
    obtain ⟨ring, hd, rfl⟩ := hs
    obtain ⟨⟨base, queue, hring, hw⟩, hsend, hsound⟩ := h
    obtain ⟨rest, head, rfl, hhead, rfl⟩ := hring.driverTakes hd
    exact ⟨⟨_, rest, hring.pop hhead, hw.pop⟩, hsend, hsound⟩
  | driverStores packet =>
    obtain ⟨ring, hd, rfl⟩ := hs
    obtain ⟨hreceive, ⟨base, queue, hring, hr⟩, hsound⟩ := h
    refine ⟨hreceive, ⟨base, queue ++ [packet], hring.driverStores hd, ?_⟩, hsound⟩
    obtain ⟨-, -, rfl⟩ := hd
    exact hr.push

theorem kept_of_run {receiveData sendData : Bytes}
    (h : Run (Step bufInit) (create receiveData sendData) tr s)
    (hroom : bufInit.offset + wintunMaxPacketSize ≤ bufInit.capacity)
    (hreceive : receiveData.length = wintunRingCapacity + wintunRingTrailingBytes)
    (hsend : sendData.length = wintunRingCapacity + wintunRingTrailingBytes)
    (hfits : AllSteps Fits tr) : Kept s := by
  have hempty {data : Bytes} (hdata : data.length = wintunRingCapacity + wintunRingTrailingBytes) :
      Holds ⟨0, 0, data⟩ [] [] 0 [] :=
    ⟨rfl, rfl, rfl, by decide, trivial, by simp, dvd_zero 4, hdata⟩
  refine ((h.restrict hfits).invariant (I := Kept) ?_ ?_).2
  · exact ⟨⟨0, [], hempty hreceive, trivial⟩, ⟨0, [], hempty hsend, trivial⟩, rfl⟩
  · exact fun s e t hs hst => hs.step hroom hst.1 hst.2

/-- A call of `read_wintun` that is not interrupted. -/
def readOnce : List Call := [.read, .take, .moveHead]

/-- It takes the next packet, if there is one. -/
theorem Kept.readOnce (h : Kept s)
    (hroom : bufInit.offset + wintunMaxPacketSize ≤ bufInit.capacity) (hne : s.got ≠ s.posted) :
    ∃ packet t, readOnce.foldlM (handle bufInit) s = some t ∧ t.got = s.got ++ [packet] ∧
      t.got <+: s.posted := by
  obtain ⟨base, queue, hring, -⟩ := h.send
  have hloaded : ReadKept s.sendRing base queue (.loaded s.sendRing.head s.sendRing.tail) :=
    ⟨rfl, queue, [], by simp, hring.tail⟩
  have htake := @take_spec { s with read := .loaded s.sendRing.head s.sendRing.tail } bufInit base
    queue _ _ hring hroom hloaded
  rcases htake with ⟨heq, -⟩ | ⟨packet, head', heq, rest, rfl, -⟩
  · exact absurd (hring.head_eq_tail_iff.mp heq) hne
  · refine ⟨packet, { s with
      sendRing := { s.sendRing with head := head' }, read := .idle, got := s.got ++ [packet] }, ?_,
      rfl, rest, by simp [hring.eq_append]⟩
    simp [Wintun.readOnce, handle, heq]

/-- As long as `write_wintun` is given no packet longer than `WINTUN_MAX_PACKET_SIZE`, the buffers
of `read_wintun` have room for one, and the driver moves its ends of the rings as it is taken to:
nothing is stored beyond the data and no error is reported, in whatever order the steps are made.
What the driver takes are the packets that `write_wintun` has accepted, and what `read_wintun` gets
are those that the driver has stored, in order and unchanged. A ring is empty exactly when all of
its packets have been taken, and otherwise the next one can be. -/
theorem run_fifo {receiveData sendData : Bytes}
    (h : Run (Step bufInit) (create receiveData sendData) tr s)
    (hroom : bufInit.offset + wintunMaxPacketSize ≤ bufInit.capacity)
    (hreceive : receiveData.length = wintunRingCapacity + wintunRingTrailingBytes)
    (hsend : sendData.length = wintunRingCapacity + wintunRingTrailingBytes)
    (hfits : AllSteps Fits tr) :
    s.failed = false ∧
      (∀ c, s.Pending c → s.Fits (.call c) → ∃ t, s.handle bufInit c = some t) ∧
      (s.delivered <+: s.written ∧ s.got <+: s.posted) ∧
      (s.receiveRing.head = s.receiveRing.tail ↔ s.delivered = s.written) ∧
      (s.sendRing.head = s.sendRing.tail ↔ s.got = s.posted) ∧
      (s.delivered ≠ s.written → ∃ packet ring, DriverTakes s.receiveRing packet ring ∧
        s.delivered ++ [packet] <+: s.written) ∧
      (s.got ≠ s.posted → ∃ packet t, readOnce.foldlM (handle bufInit) s = some t ∧
        t.got = s.got ++ [packet] ∧ t.got <+: s.posted) := by
  have hkept := kept_of_run h hroom hreceive hsend hfits
  obtain ⟨base, queue, hring, -⟩ := hkept.receive
  obtain ⟨base', queue', hring', -⟩ := hkept.send
  refine ⟨hkept.sound, fun c hp hf => ?_, ⟨⟨queue, hring.eq_append.symm⟩,
    ⟨queue', hring'.eq_append.symm⟩⟩, hring.head_eq_tail_iff, hring'.head_eq_tail_iff,
    hring.exists_driverTakes, hkept.readOnce hroom⟩
  obtain ⟨t, ht, -⟩ := hkept.exists_handle hroom hp hf
  exact ⟨t, ht⟩

/-- A buffer for one packet. -/
def packetBuffer : Buffer := ⟨wintunMaxPacketSize, 0, [], Nat.zero_le _⟩

/-- The memory of an empty ring. -/
def zeros : Bytes := List.replicate (wintunRingCapacity + wintunRingTrailingBytes) 0

/-- The smallest IP packet. -/
def smallest : Bytes := 0x45 :: List.replicate 19 0

/-- The driver has stored a packet. -/
def onePosted : Wintun :=
  { create zeros zeros with
    sendRing := ⟨0, wintunRingWrap (0 + alignedPacketSize smallest.length),
      blit 0 (tunPacket smallest) zeros⟩
    posted := [smallest] }

/-- Behind the driver's packet a call of `write_wintun` has begun, and `read_wintun` gets the
packet. -/
theorem run_fifo_posted : ∃ s : Wintun, s.posted = [smallest] ∧ s.got = [] ∧
    s.write = .loaded smallest 0 0 ∧ ∃ packet t, readOnce.foldlM (handle packetBuffer) s = some t ∧
      t.got = [packet] ∧ t.got <+: [smallest] := by
  have hzeros : zeros.length = wintunRingCapacity + wintunRingTrailingBytes :=
    List.length_replicate
  have hstores : Step packetBuffer (create zeros zeros) (.driverStores smallest) onePosted :=
    ⟨onePosted.sendRing, ⟨by decide, by decide, rfl⟩, rfl⟩
  have hwrite : Step packetBuffer onePosted (.call (.write smallest))
      { onePosted with write := .loaded smallest 0 0 } := ⟨rfl, rfl⟩
  have hfifo := run_fifo ((Run.start.next hstores).next hwrite) le_rfl hzeros hzeros
    (by simp [AllSteps, Fits, smallest, wintunMaxPacketSize])
  exact ⟨_, rfl, rfl, rfl, hfifo.2.2.2.2.2.2 (List.cons_ne_nil _ _).symm⟩

end Steps

end Wintun

end Vs17.Net
