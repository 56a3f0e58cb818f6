import Vs17.Library.Rings
import Vs17.Library.Runs
import Vs17.Net.Buffer

/-! # The rings of the wintun device

Two rings lie in memory that the program shares with the driver of the device. `write_wintun`
stores packets in the receive ring, where the driver takes them, and `read_wintun` takes packets
from the send ring, where the driver stores them. A call reads the head and the tail of its ring,
stores or copies a packet, and moves its own end of the ring. In between come the steps of the
driver and those of a call on the other ring, which may be in another thread.
-/

namespace Vs17.Net

open Words Rings Runs

def wintunRingCapacity : ℕ := 0x800000

def wintunRingTrailingBytes : ℕ := 0x10000

def wintunMaxPacketSize : ℕ := 0xffff

/-- `sizeof(struct TUN_PACKET_HEADER)` -/
def tunPacketHeader : ℕ := 4

def wintunRingWrap (value : UInt32) : UInt32 := value &&& 0x7fffff

def wintunRingPacketAlign (size : UInt32) : UInt32 := (size + 3) &&& ~~~3

/-- `TUN_RING`, with the data and the bytes that trail it. -/
structure TunRing where
  head : UInt32
  tail : UInt32
  data : Bytes

/-- The version of an IP packet decides how long it must be at least. Whatever lies where an
empty packet would begin, its length is too small. -/
def isIpPacketValid (packet : Bytes) : Bool :=
  match packet with
  | [] => false
  | versionLen :: _ =>
    if versionLen >>> 4 = 4 then decide (20 ≤ packet.length)
    else if versionLen >>> 4 = 6 then decide (40 ≤ packet.length)
    else false

/-- A packet as it lies in a ring. -/
def tunPacket (packet : Bytes) : Bytes := toLE 4 packet.length ++ packet

/-- The size of a packet in a ring. -/
def alignedPacketSize (size : ℕ) : UInt32 :=
  wintunRingPacketAlign (UInt32.ofNat (tunPacketHeader + size))

/-- Where a call of `write_wintun` stands. -/
inductive WritePc
  | idle
  | loaded (packet : Bytes) (head tail : UInt32)
  | stored (packet : Bytes) (tail : UInt32) -- the tail is about to be moved
  deriving DecidableEq, Repr

/-- Where a call of `read_wintun` stands. -/
inductive ReadPc
  | idle
  | loaded (head tail : UInt32)
  | taken (head : UInt32) (content : Bytes) -- the head is about to be moved
  deriving DecidableEq, Repr

section Driver

/-- The driver takes the packet at the head of a ring. Its code is not part of the program: it is
taken to move the head behind the packet, and to leave the tail and the data alone. -/
def DriverTakes (ring : TunRing) (packet : Bytes) (ring' : TunRing) : Prop :=
  ring.head ≠ ring.tail ∧ packet.length ≤ wintunMaxPacketSize ∧
    region ring.data ring.head.toNat (tunPacket packet).length = tunPacket packet ∧
    ring' = { ring with head := wintunRingWrap (ring.head + alignedPacketSize packet.length) }

/-- The driver stores a packet behind the tail of a ring. It is taken to do so where there is
room, with the distance that `write_wintun` keeps, and to move the tail behind the packet. -/
def DriverStores (ring : TunRing) (packet : Bytes) (ring' : TunRing) : Prop :=
  packet.length ≤ wintunMaxPacketSize ∧
    alignedPacketSize packet.length ≤ wintunRingWrap (ring.head - ring.tail - 4) ∧
    ring' = { ring with
      tail := wintunRingWrap (ring.tail + alignedPacketSize packet.length)
      data := blit ring.tail.toNat (tunPacket packet) ring.data }

end Driver

/-- The rings, and where a call on each of them stands. The last fields are history: the packets
whose calls of `write_wintun` have returned their length, those that the driver has taken, those
that it has stored, what the calls of `read_wintun` have left in the buffer when they moved the
head, and whether a call has reported an error. -/
structure Wintun where
  receiveRing : TunRing
  sendRing : TunRing
  write : WritePc
  read : ReadPc
  written : List Bytes
  delivered : List Bytes
  posted : List Bytes
  got : List Bytes
  failed : Bool

namespace Wintun

/-- What `write_wintun` does with the head and the tail it has read. There is no result where it
stores beyond the data. -/
def store (s : Wintun) (packet : Bytes) (head tail : UInt32) : Option Wintun :=
  if ¬ isIpPacketValid packet then some { s with write := .idle }
  else if wintunRingCapacity ≤ head.toNat ∨ wintunRingCapacity ≤ tail.toNat then
    some { s with write := .idle, failed := true }
  else
    let bufSpace := wintunRingWrap (head - tail - 4)
    if alignedPacketSize packet.length > bufSpace then some { s with write := .idle }
    else if s.receiveRing.data.length < tail.toNat + (tunPacket packet).length then none
    else
      some { s with
        receiveRing := { s.receiveRing with
          data := blit tail.toNat (tunPacket packet) s.receiveRing.data }
        write := .stored packet (wintunRingWrap (tail + alignedPacketSize packet.length)) }

/-- What `read_wintun` does with the head and the tail it has read. -/
def take (bufInit : Buffer) (s : Wintun) (head tail : UInt32) : Wintun :=
  if wintunRingCapacity ≤ head.toNat ∨ wintunRingCapacity ≤ tail.toNat then
    { s with read := .idle, failed := true }
  else if head = tail then { s with read := .idle }
  else
    let contentLen := wintunRingWrap (tail - head)
    if contentLen.toNat < tunPacketHeader then { s with read := .idle, failed := true }
    else
      let size := load 4 head.toNat s.sendRing.data
      if wintunMaxPacketSize < size then { s with read := .idle, failed := true }
      else if alignedPacketSize size > contentLen then { s with read := .idle, failed := true }
      else
        let buf := bufPut bufInit.clear
          (region s.sendRing.data (head.toNat + tunPacketHeader) size)
        { s with read := .taken (wintunRingWrap (head + alignedPacketSize size)) buf.content }

/-- The steps of the program. -/
inductive Call
  | write (packet : Bytes) -- `write_wintun` is called, and reads the head and the tail
  | store
  | moveTail
  | read -- `read_wintun` is called, and reads the head and the tail
  | take
  | moveHead
  deriving DecidableEq, Repr

inductive Event
  | call (c : Call)
  | driverTakes (packet : Bytes)
  | driverStores (packet : Bytes)
  deriving DecidableEq, Repr

def Pending (s : Wintun) : Call → Prop
  | .write _ => s.write = .idle
  | .store => ∃ packet head tail, s.write = .loaded packet head tail
  | .moveTail => ∃ packet tail, s.write = .stored packet tail
  | .read => s.read = .idle
  | .take => ∃ head tail, s.read = .loaded head tail
  | .moveHead => ∃ head content, s.read = .taken head content

/-- What a step of the program makes of the rings and its calls. -/
def handle (bufInit : Buffer) (s : Wintun) : Call → Option Wintun
  | .write packet =>
    some { s with write := .loaded packet s.receiveRing.head s.receiveRing.tail }
  | .store =>
    match s.write with
    | .loaded packet head tail => s.store packet head tail
    | _ => some s
  | .moveTail =>
    match s.write with
    | .stored packet tail =>
      some { s with
        receiveRing := { s.receiveRing with tail := tail }
        write := .idle
        written := s.written ++ [packet] }
    | _ => some s
  | .read => some { s with read := .loaded s.sendRing.head s.sendRing.tail }
  | .take =>
    match s.read with
    | .loaded head tail => some (s.take bufInit head tail)
    | _ => some s
  | .moveHead =>
    match s.read with
    | .taken head content =>
      some { s with
        sendRing := { s.sendRing with head := head }
        read := .idle
        got := s.got ++ [content] }
    | _ => some s

def Step (bufInit : Buffer) (s : Wintun) : Event → Wintun → Prop
  | .call c, t => s.Pending c ∧ s.handle bufInit c = some t
  | .driverTakes packet, t => ∃ ring, DriverTakes s.receiveRing packet ring ∧
      t = { s with receiveRing := ring, delivered := s.delivered ++ [packet] }
  | .driverStores packet, t => ∃ ring, DriverStores s.sendRing packet ring ∧
      t = { s with sendRing := ring, posted := s.posted ++ [packet] }

/-- Empty rings over this memory. -/
def create (receiveData sendData : Bytes) : Wintun :=
  ⟨⟨0, 0, receiveData⟩, ⟨0, 0, sendData⟩, .idle, .idle, [], [], [], [], false⟩

end Wintun

end Vs17.Net
