import Vs17.Asio.Connection

/-! # Room in the receive buffer

After a read the kept bytes are shorter than the frame being waited for. A conference
frame is announced in full by sixteen bits and always fits `read_buffer_`; a device
frame may be announced longer than the buffer, which then fills up.
-/

namespace Vs17.Asio

open Framing AsyncConnection Runs

/-- The next `do_read` of an open connection offers a region that is not empty. -/
def HasRoom (c : AsyncConnection) : Prop :=
  c.readPos < maxMsg ∧ ∀ off len, c.doRead = some (off, len) → 0 < len

/-- The read fills the buffer to its end, and the frame at the front is announced
too long for the buffer. -/
def FillsUp (c : AsyncConnection) (e : Completion) : Prop :=
  (c.connected && !e.err) = true ∧ c.readPos + e.chunk.length = maxMsg ∧
    maxMsg < DeviceMngHead.sizeof + announced (c.received ++ e.chunk)

variable {k : Cutter} {c c' : AsyncConnection} {e : Completion}

theorem hasRoom_iff : HasRoom c ↔ c.readPos < maxMsg := by
  refine ⟨And.left, fun h => ⟨h, fun off len hd => ?_⟩⟩
  simp only [doRead, Option.ite_none_right_eq_some, Option.some.injEq, Prod.mk.injEq] at hd
  omega

theorem settled_of_completes (hs : Settled k c) (h : Completes k c e c') : Settled k c' :=
  (completes_cases hs h).1

/-- Nothing can be cut off a full buffer exactly when all of it is kept. -/
theorem readPos_eq_maxMsg_iff (hs : Settled k c) (hroom : c.readPos < maxMsg)
    (h : Completes k c e c') :
    c'.readPos = maxMsg ↔ (c.connected && !e.err) = true ∧
      c.readPos + e.chunk.length = maxMsg ∧ k.cut (c.received ++ e.chunk) = none := by
  rcases (completes_cases hs h).2 with ⟨hopen, hpos, -⟩ | ⟨hopen, -, hfit, ms, hsplit⟩
  · simp only [hopen, hpos, Bool.false_eq_true, false_and, iff_false]
    omega
  · have hlen := congrArg List.length hsplit.flatten_append
    have hrest := hsplit.length_rest_eq_iff
    simp only [List.length_append, length_received] at hlen hrest
    rw [hopen, ← hrest]
    simp only [true_and]
    omega

theorem hasRoom_iff_of_completes (hs : Settled k c) (hroom : HasRoom c)
    (h : Completes k c e c') :
    HasRoom c' ↔ ¬ ((c.connected && !e.err) = true ∧
      c.readPos + e.chunk.length = maxMsg ∧ k.cut (c.received ++ e.chunk) = none) := by
  rw [hasRoom_iff] at hroom ⊢
  rw [← readPos_eq_maxMsg_iff hs hroom h]
  exact (c'.readPos_le).lt_iff_ne

theorem length_received_append (h : c.readPos + e.chunk.length = maxMsg) :
    (c.received ++ e.chunk).length = maxMsg := by
  rw [List.length_append, length_received, h]

/-- Sixteen bits cannot announce a conference frame longer than the buffer. -/
theorem hasRoom_of_completes_conference (hs : Settled conferenceCutter c) (hroom : HasRoom c)
    (h : Completes conferenceCutter c e c') : HasRoom c' := by
  apply (hasRoom_iff_of_completes hs hroom h).mpr
  rintro ⟨-, hfull, hcut⟩
  have hlt := announced_lt (c.received ++ e.chunk)
  rw [cut_eq_none, length_received_append hfull] at hcut
  rcases hcut with hcut | hcut
  · exact absurd hcut (by decide)
  · exact absurd (hcut.trans hlt) (by decide)

theorem hasRoom_of_completes_device_iff (hs : Settled deviceCutter c) (hroom : HasRoom c)
    (h : Completes deviceCutter c e c') : HasRoom c' ↔ ¬ FillsUp c e := by
  rw [hasRoom_iff_of_completes hs hroom h, not_iff_not]
  refine and_congr_right fun _ => and_congr_right fun hfull => ?_
  rw [cut_eq_none, length_received_append hfull]
  exact or_iff_right (by decide)

/-- A device connection keeps room exactly as long as no read fills it up, a
conference connection always does. -/
theorem readBuffer_hasRoom (b : ReadBuffer) :
    (∀ tr c, Run (Completes deviceCutter) (create b) tr c →
      (Throughout HasRoom tr c ↔ AllSteps (fun c e => ¬ FillsUp c e) tr)) ∧
    (∀ tr c, Run (Completes conferenceCutter) (create b) tr c → Throughout HasRoom tr c) := by
  have hstart : HasRoom (create b) := hasRoom_iff.mpr (Nat.zero_lt_succ _)
  constructor
  · intro tr c h
    exact h.throughout_iff (settled_create deviceCutter b)
      (fun _ _ _ => settled_of_completes) hstart
      (fun _ _ _ => hasRoom_of_completes_device_iff)
  · intro tr c h
    have hinv : Throughout (fun c => Settled conferenceCutter c ∧ HasRoom c) tr c :=
      h.invariant ⟨settled_create _ b, hstart⟩ fun _ _ _ hi hc =>
        ⟨settled_of_completes hi.1 hc, hasRoom_of_completes_conference hi.1 hi.2 hc⟩
    exact hinv.imp fun _ hi => hi.2

/-- A read that brings no more than a tag. -/
def tagRead : Completion := ⟨false, [0x60, 0x20]⟩

theorem readBuffer_hasRoom_tagRead : ∃ c,
    Run (Completes deviceCutter) (create .zero) [(create .zero, tagRead)] c ∧
      Throughout HasRoom [(create .zero, tagRead)] c := by
  have hfit : (create .zero).readPos + tagRead.chunk.length ≤ maxMsg := by
    simp [create, maxMsg, tagRead]
  have hcut : deviceCutter.cut tagRead.chunk = none := by decide
  obtain ⟨c, hc, -, -⟩ :=
    completes_of_splits rfl (settled_create deviceCutter .zero) hfit (.wait hcut)
  have hrun : Run (Completes deviceCutter) (create .zero) ([] ++ [(create .zero, tagRead)]) c :=
    .next .start hc
  refine ⟨c, hrun, ((readBuffer_hasRoom .zero).1 _ c hrun).mpr ?_⟩
  simp [AllSteps, FillsUp, create, maxMsg, tagRead]

/-- A full buffer that starts with a device frame of 65535 announced bytes. -/
def longFrame : Bytes := [0x60, 0x20, 0xff, 0xff] ++ List.replicate 65532 0

theorem longFrame_fills : ∃ c,
    Run (Completes deviceCutter) (create .zero) [(create .zero, ⟨false, longFrame⟩)] c ∧
      ¬ HasRoom c := by
  have hlen : longFrame.length = maxMsg := by
    rw [longFrame, List.length_append, List.length_replicate]
    rfl
  have hann : announced longFrame = 65535 := by
    rw [longFrame, announced_append (by decide)]
    decide
  have hcut : deviceCutter.cut longFrame = none := by
    rw [cut_eq_none, hlen, hann]
    exact .inr (by decide)
  have hfit : (create .zero).readPos + longFrame.length ≤ maxMsg := by
    rw [hlen]
    exact (Nat.zero_add _).le
  obtain ⟨c, hc, -, hr⟩ := completes_of_splits rfl (settled_create deviceCutter .zero) hfit
    (.wait hcut)
  refine ⟨c, .next .start hc, ?_⟩
  rw [hasRoom_iff, ← length_received, hr, received_create, List.nil_append, hlen]
  exact lt_irrefl _

end Vs17.Asio
