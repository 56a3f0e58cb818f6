import Vs17.Asio.Connection
import Vs17.Asio.TestClient

/-! # Framing of a byte stream

The messages passed on over any number of reads are the frames of the bytes received
so far, and what is kept is the rest. Conference frames arrive whole and in order
under every division of the stream. The device test clients announce four bytes less
than they send where the server expects twenty-eight more than is announced, so no
division of their stream delivers a message.
-/

namespace Vs17.Asio

open Framing AsyncConnection

/-- `Receives k c₀ chunks c ms`: reads without error deliver the chunks to `c₀`,
which becomes `c` and has passed on `ms`. -/
inductive Receives (k : Cutter) (c₀ : AsyncConnection) :
    List Bytes → AsyncConnection → List Bytes → Prop
  | start : Receives k c₀ [] c₀ []
  | read {chunks ms ms' : List Bytes} {chunk : Bytes} {c c' : AsyncConnection}
      {h : c.readPos + chunk.length ≤ maxMsg} :
      Receives k c₀ chunks c ms → complete k c false chunk h = .ok (c', ms') →
      Receives k c₀ (chunks ++ [chunk]) c' (ms ++ ms')

/-- Each chunk fits the region free when it is delivered. -/
def Fits (k : Cutter) (c₀ : AsyncConnection) (chunks : List Bytes) : Prop :=
  ∀ pre chunk c ms, pre ++ [chunk] <+: chunks → Receives k c₀ pre c ms →
    c.readPos + chunk.length ≤ maxMsg

variable {k : Cutter} {c₀ c : AsyncConnection} {chunks ms : List Bytes}

theorem Receives.splits (hk : Stable k.cut) (hc : c₀.connected = true) (hs : Settled k c₀)
    (h : Receives k c₀ chunks c ms) :
    Splits k.cut (c₀.received ++ chunks.flatten) ms c.received ∧ c.connected = true ∧
      Settled k c := by
  induction h with
  | start => exact ⟨by simpa using .wait hs.cut, hc, hs⟩
  | read _ hok ih =>
    obtain ⟨hsplit, hc', hs'⟩ := ih
    obtain ⟨hnext, hc'', hs''⟩ := splits_of_complete hc' hs' hok
    refine ⟨?_, hc'', hs''⟩
    have happ := hsplit.append hk hnext
    simpa using happ

/-- Reads go through as long as the bytes received so far split into frames. -/
theorem Receives.of_splits (hk : Stable k.cut) (hc : c₀.connected = true) (hs : Settled k c₀)
    (hfit : Fits k c₀ chunks)
    (hsplit : ∀ pre, pre <+: chunks →
      ∃ fs r, Splits k.cut (c₀.received ++ pre.flatten) fs r) :
    ∃ c ms, Receives k c₀ chunks c ms := by
  induction chunks using List.reverseRecOn with
  | nil => exact ⟨c₀, [], .start⟩
  | append_singleton chunks chunk ih =>
    have hpre : chunks <+: chunks ++ [chunk] := List.prefix_append _ _
    obtain ⟨c, ms, hr⟩ := ih (fun pre ch c ms hp => hfit pre ch c ms (hp.trans hpre))
      (fun pre hp => hsplit pre (hp.trans hpre))
    obtain ⟨hs₁, hc₁, hset⟩ := hr.splits hk hc hs
    obtain ⟨fs, r, hs₂⟩ := hsplit _ List.prefix_rfl
    have hs₃ : Splits k.cut ((c₀.received ++ chunks.flatten) ++ chunk) fs r := by
      simpa using hs₂
    obtain ⟨gs, -, hnext⟩ := hs₁.resume hk hs₃
    obtain ⟨c', hok, -⟩ :=
      complete_of_splits hc₁ hset (hfit chunks chunk c ms List.prefix_rfl hr) hnext
    exact ⟨c', _, hr.read hok⟩

/-- A frame of the conference protocol: it announces its own length. -/
structure ConferenceFrame where
  bytes : Bytes
  announced_eq : announced bytes = bytes.length
  length_ge : Overload.sizeof + ConferenceMngHead.sizeof ≤ bytes.length

theorem ConferenceFrame.delimits (f : ConferenceFrame) :
    Delimits conferenceCutter.cut f.bytes :=
  delimits_conference f.announced_eq (lt_of_lt_of_le (by decide) f.length_ge)

/-- The bytes of a list of conference frames. -/
def ConferenceFrame.stream (frames : List ConferenceFrame) : List Bytes :=
  frames.map ConferenceFrame.bytes

/-- A prefix of a stream of conference frames is cut into whole frames, and what is
left is shorter than the receive buffer. -/
theorem splits_conference {frames : List ConferenceFrame} {b : Bytes}
    (h : b <+: (ConferenceFrame.stream frames).flatten) :
    ∃ ms r, Splits conferenceCutter.cut b ms r ∧ ms <+: ConferenceFrame.stream frames ∧
      r.length < maxMsg := by
  have hd : ∀ f ∈ ConferenceFrame.stream frames, Delimits conferenceCutter.cut f := by
    intro f hf
    obtain ⟨g, -, rfl⟩ := List.mem_map.mp hf
    exact g.delimits
  obtain ⟨ms, hs, r, heq, hsplit, hr⟩ := Splits.of_prefix cut_nil hd h
  refine ⟨ms, r, hsplit, ⟨hs, heq.symm⟩, ?_⟩
  rcases hr with ⟨rfl, -⟩ | ⟨f, hf, hrf, -⟩
  · simp [maxMsg]
  · have hmem : f ∈ ConferenceFrame.stream frames := by
      rw [heq]
      exact List.mem_append_right _ (List.mem_of_mem_head? hf)
    obtain ⟨g, -, rfl⟩ := List.mem_map.mp hmem
    have hlt := announced_lt g.bytes
    have hle := hrf.length_le
    rw [g.announced_eq] at hlt
    exact lt_of_le_of_lt hle hlt

/-- Conference frames are delivered under every division of their stream. -/
theorem conferenceStream_delivered {frames : List ConferenceFrame} {chunks : List Bytes}
    {b : ReadBuffer} (hstream : chunks.flatten = (ConferenceFrame.stream frames).flatten)
    (hfit : Fits conferenceCutter (create b) chunks) :
    ∀ pre, pre <+: chunks → ∃ c ms, Receives conferenceCutter (create b) pre c ms ∧
      ms <+: ConferenceFrame.stream frames ∧
      pre.flatten = ms.flatten ++ c.readBuffer.bytes.take c.readPos ∧
      c.readPos = pre.flatten.length - ms.flatten.length ∧ c.readPos < maxMsg ∧
      (pre = chunks → ms = ConferenceFrame.stream frames) := by
  have hpre : ∀ pre, pre <+: chunks →
      pre.flatten <+: (ConferenceFrame.stream frames).flatten := by
    rintro pre ⟨post, rfl⟩
    exact ⟨post.flatten, by rw [← hstream, List.flatten_append]⟩
  intro pre hp
  obtain ⟨c, ms, hr⟩ := Receives.of_splits conferenceCutter_stable rfl
    (settled_create _ b) (fun p ch c ms hp' => hfit p ch c ms (hp'.trans hp))
    (fun p hp' => by
      obtain ⟨ms, r, hs, -⟩ := splits_conference (hpre p (hp'.trans hp))
      exact ⟨ms, r, by simpa using hs⟩)
  obtain ⟨hs, -, -⟩ := hr.splits conferenceCutter_stable rfl (settled_create _ b)
  rw [received_create, List.nil_append] at hs
  obtain ⟨ms', r, hs', hms, hlt⟩ := splits_conference (hpre pre hp)
  obtain ⟨rfl, rfl⟩ := hs.deterministic hs'
  have hflat := hs.flatten_append
  refine ⟨c, ms, hr, hms, hflat.symm, ?_, by rwa [length_received] at hlt, ?_⟩
  · rw [← hflat, List.length_append, length_received]
    omega
  · rintro rfl
    have hall : Splits conferenceCutter.cut pre.flatten (ConferenceFrame.stream frames) [] := by
      rw [hstream]
      refine Splits.of_frames cut_nil fun f hf => ?_
      obtain ⟨g, -, rfl⟩ := List.mem_map.mp hf
      exact g.delimits
    exact (hs.deterministic hall).1

/-- Everything fits while the whole stream is no longer than the buffer. -/
theorem fits_of_length (hk : Stable k.cut) (b : ReadBuffer)
    (h : chunks.flatten.length ≤ maxMsg) : Fits k (create b) chunks := by
  rintro pre chunk c ms ⟨post, rfl⟩ hr
  obtain ⟨hs, -, -⟩ := hr.splits hk rfl (settled_create k b)
  have hlen := congrArg List.length hs.flatten_append
  simp only [received_create, List.nil_append, List.length_append, length_received,
    List.flatten_append, List.flatten_singleton] at hlen h
  omega

/-- A conference request with an empty object for its text. -/
def emptyRequest : ConferenceFrame where
  bytes := [0x60, 0x12, 0, 28, 1, 2, 8, 5, 6, 0, 0, 0, 0, 24, 0, 0, 0, 0, 0, 0, 0, 0, 0, 1, 0, 1,
    0x7b, 0x7d]
  announced_eq := by decide
  length_ge := by decide

theorem conferenceStream_delivered_twoReads : ∃ c,
    Receives conferenceCutter (create .zero)
      [emptyRequest.bytes.take 3, emptyRequest.bytes.drop 3] c [emptyRequest.bytes] := by
  obtain ⟨c, ms, hr, -, -, -, -, hall⟩ :=
    @conferenceStream_delivered [emptyRequest]
      [emptyRequest.bytes.take 3, emptyRequest.bytes.drop 3] .zero (by decide)
      (fits_of_length conferenceCutter_stable _ (by decide)) _ List.prefix_rfl
  obtain rfl := hall rfl
  exact ⟨c, hr⟩

/-- The bytes of a list of device messages. -/
def DeviceMessage.stream (msgs : List DeviceMessage) : List Bytes :=
  msgs.map DeviceMessage.data

/-- The reads of a fresh connection pass on exactly these messages and keep nothing. -/
def Delivered (k : Cutter) (b : ReadBuffer) (chunks msgs : List Bytes) : Prop :=
  ∃ c, Receives k (create b) chunks c msgs ∧ c.received = []

/-- A message on its own is announced longer than it is, and stays in the buffer. -/
theorem DeviceMessage.kept (m : DeviceMessage) (b : ReadBuffer) :
    ∃ c, Receives deviceCutter (create b) [m.data] c [] ∧ c.received = m.data := by
  have hcut : deviceCutter.cut m.data = none := by
    rw [cut_eq_none, announced_data, length_data]
    right
    simp only [deviceCutter, len, DeviceMngHead.sizeof]
    omega
  have hfit : (create b).readPos + m.data.length ≤ maxMsg := by
    have hfits := m.fits
    have hle := m.bufferSize_le
    rw [length_data]
    simp only [create, maxMsg, Overload.sizeof, DeviceMngHead.sizeof] at hfits ⊢
    omega
  have hsplit : Splits deviceCutter.cut ((create b).received ++ m.data) [] m.data := by
    rw [received_create, List.nil_append]
    exact .wait hcut
  obtain ⟨c, hok, -, -, hr⟩ := complete_of_splits rfl (settled_create deviceCutter b) hfit hsplit
  exact ⟨c, Receives.start.read hok, hr⟩

/-- No division of a nonempty stream of device messages delivers them. -/
theorem DeviceMessage.not_delivered {m : DeviceMessage} {msgs : List DeviceMessage}
    {b : ReadBuffer} {chunks : List Bytes}
    (hstream : chunks.flatten = (stream (m :: msgs)).flatten) :
    ¬ Delivered deviceCutter b chunks (stream (m :: msgs)) := by
  rintro ⟨c, hr, -⟩
  obtain ⟨hs, -, -⟩ := hr.splits deviceCutter_stable rfl (settled_create _ b)
  rw [received_create, List.nil_append, hstream] at hs
  -- the first cut is what the first message announces, and its `Overload` excluded
  have hcut := hs.head_length
  obtain ⟨-, -, hlen⟩ := cut_eq_some.mp hcut
  have hle : Overload.sizeof ≤ m.data.length := by
    rw [length_data]; simp [Overload.sizeof]; omega
  rw [stream, List.map_cons, List.flatten_cons, announced_append hle, announced_data,
    length_data] at hlen
  simp only [deviceCutter, len, DeviceMngHead.sizeof] at hlen
  omega

/-- The device messages are delivered only when there are none. -/
theorem deviceStream_delivered_iff {msgs : List DeviceMessage} {b : ReadBuffer}
    {chunks : List Bytes} (hstream : chunks.flatten = (DeviceMessage.stream msgs).flatten)
    (hne : ∀ chunk ∈ chunks, chunk ≠ []) :
    Delivered deviceCutter b chunks (DeviceMessage.stream msgs) ↔ msgs = [] := by
  cases msgs with
  | nil =>
    have hnil : chunks = [] := by
      cases chunks with
      | nil => rfl
      | cons chunk chunks =>
        have hc : chunk = [] := by
          simp only [DeviceMessage.stream, List.map_nil, List.flatten_nil, List.flatten_cons,
            List.append_eq_nil_iff] at hstream
          exact hstream.1
        exact absurd hc (hne chunk (by simp))
    subst hnil
    exact iff_of_true ⟨create b, .start, rfl⟩ rfl
  | cons m msgs =>
    exact iff_of_false (DeviceMessage.not_delivered hstream) (by simp)

/-- The first message of `testDeviceManager`. -/
def deviceQuery : DeviceMessage where
  bufferSize := 4096
  tag := 0x6020
  taskNo := 0
  deviceNo := 456
  cmdType := 2
  cmd := 101
  msg := "\x7b\"name\":\"gg\",\"pageno\":2,\"pagecount\":3\x7d".toUTF8.toList
  bufferSize_le := by decide
  tag_ne := by decide
  fits := by decide +kernel

theorem deviceStream_delivered_iff_twoReads :
    ¬ Delivered deviceCutter .zero [deviceQuery.data.take 4, deviceQuery.data.drop 4]
      (DeviceMessage.stream [deviceQuery]) := by
  have hlen := deviceQuery.length_data
  have hstream : [deviceQuery.data.take 4, deviceQuery.data.drop 4].flatten =
      (DeviceMessage.stream [deviceQuery]).flatten := by simp [DeviceMessage.stream]
  have hne : ∀ chunk ∈ [deviceQuery.data.take 4, deviceQuery.data.drop 4], chunk ≠ [] := by
    intro chunk hchunk
    apply List.ne_nil_of_length_pos
    simp only [List.mem_cons, List.not_mem_nil, or_false] at hchunk
    rcases hchunk with heq | heq
    · rw [heq, List.length_take]
      omega
    · rw [heq, List.length_drop]
      omega
  rw [deviceStream_delivered_iff hstream hne]
  exact List.cons_ne_nil _ _

/-- A message received in one read stays in the buffer, and is not delivered. -/
theorem deviceQuery_not_delivered :
    (∃ c, Receives deviceCutter (create .zero) [deviceQuery.data] c [] ∧
      c.received = deviceQuery.data) ∧
    ¬ Delivered deviceCutter .zero [deviceQuery.data] (DeviceMessage.stream [deviceQuery]) :=
  ⟨deviceQuery.kept .zero, DeviceMessage.not_delivered rfl⟩

end Vs17.Asio
