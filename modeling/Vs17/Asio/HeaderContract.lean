import Vs17.Asio.Cutting
import Vs17.Asio.Streams
import Vs17.Asio.MsgProcess

/-! # What the handlers may rely on

A handler reads an `Overload` and a management header in the message it is given.
The cutters compare the buffer with the management header alone and never look at a
lower bound of the announced length, so a message may end before its header does.
-/

namespace Vs17.Asio

open Framing AsyncConnection Runs

/-- A message that `msgGet` puts on the queue when this read completes. -/
def Queues (p : Processor) (c : AsyncConnection) (e : Completion) (m : Bytes) : Prop :=
  (c.connected && !e.err) = true ∧ 0 < e.chunk.length ∧
    Enqueues p.cutter (c.received ++ e.chunk) c.mqRecv m

/-- Every queued message holds both headers, and its handler reads inside it. -/
def HoldsHeaders (p : Processor) (c : AsyncConnection) (e : Completion) : Prop :=
  ∀ m, Queues p c e m → Overload.sizeof + p.headSize ≤ m.length ∧
    ∀ response, p.msgProcessWith response m ≠ .error .pastEnd

/-- A frame cut at the front of these bytes does not end before its headers do: a
conference frame is announced no shorter, and a device frame has them in the buffer. -/
def HeadersInside (t : Bytes) : Processor → Prop
  | .conferenceDistributor =>
    ConferenceMngHead.sizeof < t.length → announced t ≤ t.length →
      Overload.sizeof + ConferenceMngHead.sizeof ≤ announced t
  | _ =>
    DeviceMngHead.sizeof < t.length → DeviceMngHead.sizeof + announced t ≤ t.length →
      Overload.sizeof + DeviceMngHead.sizeof ≤ t.length

def Covered (p : Processor) (b : Bytes) : Prop :=
  ∀ t, Boundary p.cutter.cut b t → HeadersInside t p

/-- The bytes this read hands to `msgGet` are covered. -/
def ReadCovered (p : Processor) (c : AsyncConnection) (e : Completion) : Prop :=
  (c.connected && !e.err) = true → 0 < e.chunk.length → Covered p (c.received ++ e.chunk)

variable {p : Processor} {c : AsyncConnection} {e : Completion}

theorem conference_headersInside_iff {t : Bytes} :
    HeadersInside t .conferenceDistributor ↔ ∀ n, conferenceCutter.cut t = some n →
      Overload.sizeof + ConferenceMngHead.sizeof ≤ (t.take n).length := by
  rw [forall_cut_iff]
  refine forall₂_congr fun _ hneed => ?_
  have hlen : (t.take (conferenceCutter.size (announced t))).length = announced t :=
    List.length_take_of_le hneed
  rw [hlen]

/-- A device frame is cut four bytes longer than is asked for, so only the end of the
buffer can cut its header short. -/
theorem device_headersInside_iff {t : Bytes} :
    HeadersInside t .deviceManager ↔ ∀ n, deviceCutter.cut t = some n →
      Overload.sizeof + DeviceMngHead.sizeof ≤ (t.take n).length := by
  rw [forall_cut_iff]
  refine forall₂_congr fun _ _ => ?_
  simp only [List.length_take, deviceCutter, Overload.sizeof, DeviceMngHead.sizeof]
  omega

theorem headersInside_iff (p : Processor) {t : Bytes} :
    HeadersInside t p ↔ ∀ n, p.cutter.cut t = some n →
      Overload.sizeof + p.headSize ≤ (t.take n).length := by
  cases p with
  | conferenceDistributor => exact conference_headersInside_iff
  | _ => exact device_headersInside_iff

theorem holdsHeaders_iff : HoldsHeaders p c e ↔ ReadCovered p c e := by
  constructor
  · intro h hopen hpos t ht
    refine (headersInside_iff p).mpr fun n hn => (h _ ⟨hopen, hpos, ?_⟩).1
    exact enqueues_iff.mpr ⟨t, n, ht, hn, rfl⟩
  · rintro h m ⟨hopen, hpos, hm⟩
    obtain ⟨t, n, ht, hn, rfl⟩ := enqueues_iff.mp hm
    have hl := (headersInside_iff p).mp (h hopen hpos t ht) n hn
    exact ⟨hl, fun _ => p.msgProcessWith_ne_error hl _⟩

/-- In the reads of a run, and in one more that may end it, every queued message holds the
headers of its handler exactly when every read is covered. It takes no invariant of the run. -/
theorem run_holdsHeaders_iff (p : Processor) (tr : List (AsyncConnection × Completion)) :
    AllSteps (HoldsHeaders p) tr ↔ AllSteps (ReadCovered p) tr :=
  forall₂_congr fun _ _ => holdsHeaders_iff

theorem run_holdsHeaders_iff_emptyRequest :
    AllSteps (HoldsHeaders .conferenceDistributor)
      ([] ++ [(create .zero, ⟨false, emptyRequest.bytes⟩)]) := by
  apply (run_holdsHeaders_iff _ _).mpr
  refine allSteps_append.mpr ⟨by simp [AllSteps], fun _ _ t ht => ?_⟩
  have hcut : conferenceCutter.cut emptyRequest.bytes = some 28 := by decide
  -- the frame, and behind it the end of the buffer
  rcases boundary_iff.mp ht with rfl | ⟨n, hn, ht⟩
  · exact fun _ _ => by decide
  · obtain rfl := Option.some.inj (hcut.symm.trans hn)
    rcases boundary_iff.mp ht with rfl | ⟨n, hn, -⟩
    · exact fun hl => absurd hl (by decide)
    · exact absurd (cut_nil.symm.trans hn) (by simp)

/-- A conference frame of four announced bytes and the nineteen that let it be cut. -/
def shortFrame : Bytes := [0x60, 0x12, 0, 4] ++ List.replicate 19 0

/-- The first read queues four bytes, and the handler reads past their end. -/
theorem shortFrame_pastEnd :
    Processor.conferenceDistributor.msgProcess [0x60, 0x12, 0, 4] = .error .pastEnd ∧
    Queues .conferenceDistributor (create .zero) ⟨false, shortFrame⟩ [0x60, 0x12, 0, 4] ∧
    ¬ HoldsHeaders .conferenceDistributor (create .zero) ⟨false, shortFrame⟩ := by
  have hcut : conferenceCutter.cut shortFrame = some 4 := by decide
  have hq : Queues .conferenceDistributor (create .zero) ⟨false, shortFrame⟩
      [0x60, 0x12, 0, 4] := by
    refine ⟨rfl, by decide, enqueues_iff.mpr ⟨shortFrame, 4, ?_, hcut, rfl⟩⟩
    rw [received_create, List.nil_append]
    exact .start
  exact ⟨rfl, hq, fun h => absurd (h _ hq).1 (by decide)⟩

end Vs17.Asio
