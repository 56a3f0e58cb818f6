import Vs17.Asio.MsgDefine

/-! # Messages of the test clients

The device test functions write header fields, text and trailer into a local buffer
and send the front of it. The announced length counts the management header, the
text and the trailer, but not the `Overload`.
-/

namespace Vs17.Asio

open Words

/-- Assigning a `short` to an `int` member extends the sign. -/
def shortToInt (n : ℕ) : ℕ :=
  if n % 65536 < 32768 then n % 65536 else 4294967296 - 65536 + n % 65536

/-- The trailer `0xeeeeeeee`. -/
def endtag : Bytes := toLE 4 0xeeeeeeee

/-- What a device test function sends: the fields it fills in, and a text that fits
its local buffer. No client's buffer is larger than that of `testConfigManager`. -/
structure DeviceMessage where
  bufferSize : ℕ
  tag : ℕ
  taskNo : ℕ
  deviceNo : ℕ
  cmdType : ℕ
  cmd : ℕ
  msg : Bytes
  bufferSize_le : bufferSize ≤ 6553
  tag_ne : tag ≠ 0x6012
  fits : Overload.sizeof + DeviceMngHead.sizeof + msg.length + 4 ≤ bufferSize

namespace DeviceMessage

/-- The value the client puts into `Overload.len`. -/
def len (m : DeviceMessage) : ℕ := DeviceMngHead.sizeof + m.msg.length + 4

/-- The client's buffer once all fields, the text and the trailer are written. -/
def buffer (m : DeviceMessage) : Bytes :=
  let head := Overload.sizeof
  let json := Overload.sizeof + DeviceMngHead.sizeof
  List.replicate m.bufferSize 0
    |> Overload.tag.set 0 (htons m.tag)
    |> DeviceMngHead.begin.set head 0xffffffff
    |> DeviceMngHead.taskNo.set head (htonl m.taskNo)
    |> DeviceMngHead.deviceNo.set head (htonl m.deviceNo)
    |> DeviceMngHead.cmdType.set head (htons m.cmdType)
    |> DeviceMngHead.cmd.set head (htonl m.cmd)
    |> DeviceMngHead.ret.set head (htons 0)
    |> Overload.len.set 0 (htons m.len)
    |> DeviceMngHead.len.set head (htonl (shortToInt m.msg.length))
    |> blit json m.msg
    |> blit (json + m.msg.length) endtag

/-- `std::string(buffer, sizeof(Overload) + len)`, the bytes sent. -/
def data (m : DeviceMessage) : Bytes := m.buffer.take (Overload.sizeof + m.len)

@[simp] theorem length_buffer (m : DeviceMessage) : m.buffer.length = m.bufferSize := by
  simp [buffer]

theorem length_data (m : DeviceMessage) : m.data.length = 32 + m.msg.length := by
  have hfits := m.fits
  simp only [data, len, List.length_take, length_buffer, Overload.sizeof, DeviceMngHead.sizeof]
    at hfits ⊢
  omega

/-- The server reads the length the client wrote. -/
theorem announced_data (m : DeviceMessage) : announced m.data = m.len := by
  have hfits := m.fits
  have hle := m.bufferSize_le
  simp only [Overload.sizeof, DeviceMngHead.sizeof] at hfits
  have hlen : m.len < 65536 := by
    simp only [len, DeviceMngHead.sizeof]
    omega
  rw [announced, data, Field.get_take (by simp [Overload.len, Overload.sizeof]), buffer,
    Field.get_blit_of_le (by exact Nat.le_add_right_of_le (by decide)),
    Field.get_blit_of_le (by decide), Field.get_set_of_disjoint (by decide),
    Field.get_set_self (by simp [Overload.len]; omega)]
  exact (ntohs_htons_mod _).trans (Nat.mod_eq_of_lt hlen)

end DeviceMessage

end Vs17.Asio
