import Vs17.Asio.MsgGet

/-! # What `msgGet` makes of arbitrary bytes

The buffers on which each `msgGet` returns with a consumed prefix, and the messages
it puts on the queue, in terms of the positions at which cutting arrives.
-/

namespace Vs17.Asio

open Framing

variable {k : Cutter} {buff : Bytes}

theorem cutsPrefix_iff_splits : CutsPrefix k buff ↔ ∃ fs r, Splits k.cut buff fs r := by
  constructor
  · intro h
    obtain ⟨ret, fs, hget, -, -⟩ := h []
    obtain ⟨fs', r, hs, -, -⟩ := msgGet_returns_iff.mp hget
    exact ⟨fs', r, hs⟩
  · rintro ⟨fs, r, hs⟩ q
    have hb := hs.flatten_append
    have hl : fs.flatten.length + r.length = buff.length := by
      rw [← List.length_append, hb]
    refine ⟨fs.flatten.length, fs, msgGet_returns_iff.mpr ⟨fs, r, hs, rfl, hl⟩, by omega, ?_⟩
    rw [← hb, List.take_left]

theorem cutsPrefix_iff_boundary :
    CutsPrefix k buff ↔ ∀ t, Boundary k.cut buff t → k.head < t.length →
      k.need (announced t) ≤ t.length →
        0 < k.size (announced t) ∧ k.size (announced t) ≤ t.length := by
  rw [cutsPrefix_iff_splits, Splits.exists_iff]
  refine forall_congr' fun t => forall_comm.trans (forall_congr' fun _ => ?_)
  exact forall_cut_iff

/-- The device cutter fails where a frame ends one to four bytes behind the buffer,
the conference cutter where a frame of length zero is announced. -/
theorem msgGet_cutsPrefix_iff (buff : Bytes) :
    (CutsPrefix deviceCutter buff ↔
      ∀ t, Boundary deviceCutter.cut buff t → DeviceMngHead.sizeof < t.length →
        ¬ (DeviceMngHead.sizeof + announced t ≤ t.length ∧
          t.length < DeviceMngHead.sizeof + announced t + 4)) ∧
    (CutsPrefix conferenceCutter buff ↔
      ∀ t, Boundary conferenceCutter.cut buff t → ConferenceMngHead.sizeof < t.length →
        announced t ≠ 0) := by
  rw [cutsPrefix_iff_boundary, cutsPrefix_iff_boundary]
  constructor
  · refine forall₃_congr fun t _ _ => ?_
    simp only [deviceCutter]
    omega
  · refine forall₃_congr fun t _ hl => ?_
    simp only [conferenceCutter]
    simp only [conferenceCutter] at hl
    omega

/-- Twenty-five zero bytes: the device cutter throws, the conference cutter never ends. -/
theorem not_cutsPrefix_zeros :
    ¬ CutsPrefix deviceCutter (List.replicate 25 0) ∧
      ¬ CutsPrefix conferenceCutter (List.replicate 25 0) := by
  constructor
  · intro h
    obtain ⟨ret, fs, hget, -⟩ := h []
    have hthrow : msgGet deviceCutter (List.replicate 25 0) [] =
        some (.throws [List.replicate 25 0]) := by decide
    cases hthrow.symm.trans hget
  · intro h
    obtain ⟨ret, fs, hget, -⟩ := h []
    have hspin : msgGet conferenceCutter (List.replicate 25 0) [] = none := by decide
    cases hspin.symm.trans hget

theorem boundary_of_reaches {q : List Bytes} {s : MsgGetState}
    (h : Loop.Reaches (msgGetBody k buff) ⟨buff, q, 0⟩ s) : Boundary k.cut buff s.tmp := by
  refine h.invariant (I := fun s => Boundary k.cut buff s.tmp) .start fun s s' hs hb => ?_
  obtain ⟨n, hn, -, rfl⟩ := msgGetBody_eq_inl.mp hb
  exact .next hs hn

/-- Where cutting passes the end of the buffer nothing is left and nothing is cut. -/
theorem reaches_of_boundary (q : List Bytes) {t : Bytes} (h : Boundary k.cut buff t) :
    t = [] ∨ ∃ s, Loop.Reaches (msgGetBody k buff) ⟨buff, q, 0⟩ s ∧ s.tmp = t := by
  induction h with
  | start => exact .inr ⟨_, .refl, rfl⟩
  | @next t n _ hn ih =>
    rcases ih with rfl | ⟨s, hs, rfl⟩
    · simp at hn
    · rcases Nat.lt_or_ge s.tmp.length n with hlt | hge
      · exact .inl (List.drop_eq_nil_of_le hlt.le)
      · exact .inr ⟨_, hs.tail (msgGetBody_eq_inl.mpr ⟨n, hn, hge, rfl⟩), rfl⟩

/-- The messages put on the queue are the cuts made along the way. -/
theorem enqueues_iff {q : List Bytes} {m : Bytes} :
    Enqueues k buff q m ↔ ∃ t n, Boundary k.cut buff t ∧ k.cut t = some n ∧ m = t.take n := by
  constructor
  · rintro ⟨s, hs, ⟨s', hb, hq⟩ | hb⟩
    · obtain ⟨n, hn, -, rfl⟩ := msgGetBody_eq_inl.mp hb
      exact ⟨s.tmp, n, boundary_of_reaches hs, hn, by simpa using hq.symm⟩
    · obtain ⟨n, hn, -, hq⟩ := msgGetBody_eq_throws.mp hb
      exact ⟨s.tmp, n, boundary_of_reaches hs, hn, by simpa using hq⟩
  · rintro ⟨t, n, ht, hn, rfl⟩
    rcases reaches_of_boundary q ht with rfl | ⟨s, hs, rfl⟩
    · simp at hn
    · refine ⟨s, hs, ?_⟩
      rcases Nat.lt_or_ge s.tmp.length n with hlt | hge
      · exact .inr (msgGetBody_eq_throws.mpr ⟨n, hn, hlt, rfl⟩)
      · exact .inl ⟨_, msgGetBody_eq_inl.mpr ⟨n, hn, hge, rfl⟩, rfl⟩

end Vs17.Asio
