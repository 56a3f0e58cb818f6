import Vs17.Asio.MsgDefine
import Vs17.Library.Framing
import Vs17.Library.Loop

/-! # The frame cutter `msgGet`

`BaseProcess::msgGet` and `ConferenceDistributor::msgGet` run the same loop with
different sizes. The loop ends normally exactly when the buffer splits into frames;
it throws where a cut passes the end of the buffer and never ends where a frame of
length zero is announced.
-/

namespace Vs17.Asio

open Framing Words

/-- The sizes that tell the two `msgGet` loops apart, for an announced length: the
bytes that must be there before a frame is cut, and the bytes that are cut. -/
structure Cutter where
  head : ℕ
  need : ℕ → ℕ
  size : ℕ → ℕ

/-- `BaseProcess::msgGet`, with `DeviceMngHead` as the default header. -/
def deviceCutter : Cutter where
  head := DeviceMngHead.sizeof
  need len := DeviceMngHead.sizeof + len
  size len := DeviceMngHead.sizeof + len + 4

/-- `ConferenceDistributor::msgGet`. -/
def conferenceCutter : Cutter where
  head := ConferenceMngHead.sizeof
  need len := len
  size len := len

structure MsgGetState where
  tmp : Bytes
  qRecv : List Bytes
  handleLen : ℕ
  deriving DecidableEq

/-- How `msgGet` ends: with a return value, or with `std::out_of_range` from `substr`. -/
inductive Ending
  | returns (ret : ℕ) (qRecv : List Bytes)
  | throws (qRecv : List Bytes)
  deriving DecidableEq

/-- `std::string::substr(pos)`, which throws when `pos` is past the end. -/
def substr (b : Bytes) (pos : ℕ) : Option Bytes :=
  if pos ≤ b.length then some (b.drop pos) else none

/-- One round of the `while` loop over `tmp`. -/
def msgGetBody (k : Cutter) (buff : Bytes) (s : MsgGetState) : MsgGetState ⊕ Ending :=
  if k.head < s.tmp.length then
    let len := announced s.tmp
    if 65536 < len then .inr (.returns buff.length s.qRecv)
    else if s.tmp.length < k.need len then .inr (.returns s.handleLen s.qRecv)
    else
      let qRecv := s.qRecv ++ [s.tmp.take (k.size len)]
      match substr s.tmp (k.size len) with
      | none => .inr (.throws qRecv)
      | some tmp => .inl ⟨tmp, qRecv, s.handleLen + k.size len⟩
  else .inr (.returns s.handleLen s.qRecv)

/-- `msgGet`, with one round of fuel for each byte and one more; `none` stands for a
loop that never ends. -/
def msgGet (k : Cutter) (buff : Bytes) (qRecv : List Bytes) : Option Ending :=
  if buff.length ≤ k.head then some (.returns 0 qRecv)
  else Loop.run (msgGetBody k buff) (buff.length + 1) ⟨buff, qRecv, 0⟩

/-- The cut the loop makes at a position of the buffer. -/
def Cutter.cut (k : Cutter) (t : Bytes) : Option ℕ :=
  if t.length ≤ k.head ∨ t.length < k.need (announced t) then none
  else some (k.size (announced t))

/-- A message that some round of the loop puts on the queue, also when a later step
of the same round throws. -/
def Enqueues (k : Cutter) (buff : Bytes) (qRecv : List Bytes) (m : Bytes) : Prop :=
  ∃ s, Loop.Reaches (msgGetBody k buff) ⟨buff, qRecv, 0⟩ s ∧
    ((∃ s', msgGetBody k buff s = .inl s' ∧ s'.qRecv = s.qRecv ++ [m]) ∨
      msgGetBody k buff s = .inr (.throws (s.qRecv ++ [m])))

/-- `msgGet` returns a count inside the buffer, and the messages it adds to the queue
are that many bytes from the front of the buffer. -/
def CutsPrefix (k : Cutter) (buff : Bytes) : Prop :=
  ∀ qRecv, ∃ ret fs, msgGet k buff qRecv = some (.returns ret (qRecv ++ fs)) ∧
    ret ≤ buff.length ∧ fs.flatten = buff.take ret

section Cut

variable {k : Cutter} {t : Bytes} {n : ℕ}

theorem cut_eq_some :
    k.cut t = some n ↔
      k.head < t.length ∧ k.need (announced t) ≤ t.length ∧ n = k.size (announced t) := by
  unfold Cutter.cut
  split <;> simp <;> omega

theorem cut_eq_none :
    k.cut t = none ↔ t.length ≤ k.head ∨ t.length < k.need (announced t) := by
  simp only [Cutter.cut, ite_eq_left_iff, reduceCtorEq, imp_false, not_not]

/-- What every cut at this position satisfies, in terms of the announced length. -/
theorem forall_cut_iff {P : ℕ → Prop} :
    (∀ n, k.cut t = some n → P n) ↔
      (k.head < t.length → k.need (announced t) ≤ t.length → P (k.size (announced t))) := by
  constructor
  · intro h hl hneed
    exact h _ (cut_eq_some.mpr ⟨hl, hneed, rfl⟩)
  · intro h n hn
    obtain ⟨hl, hneed, rfl⟩ := cut_eq_some.mp hn
    exact h hl hneed

@[simp] theorem cut_nil : k.cut [] = none := by simp [cut_eq_none]

/-- Later bytes do not move a cut when the header covers the `Overload`. -/
theorem cut_stable (h : Overload.sizeof ≤ k.head) : Stable k.cut := by
  intro b c n _ hn
  obtain ⟨hhead, hneed, rfl⟩ := cut_eq_some.mp hn
  have ha : announced (b ++ c) = announced b := announced_append (by omega)
  exact cut_eq_some.mpr ⟨by simp; omega, by rw [ha]; simp; omega, by rw [ha]⟩

theorem deviceCutter_stable : Stable deviceCutter.cut := cut_stable (by decide)

theorem conferenceCutter_stable : Stable conferenceCutter.cut := cut_stable (by decide)

/-- A conference frame whose announced length is its own is delimited. -/
theorem delimits_conference {f : Bytes} (ha : announced f = f.length)
    (hl : ConferenceMngHead.sizeof < f.length) : Delimits conferenceCutter.cut f := by
  have hof : Overload.sizeof ≤ ConferenceMngHead.sizeof := by decide
  refine ⟨by rintro rfl; simp at hl, fun c => ?_, fun t ht hne => ?_⟩
  · have hc : announced (f ++ c) = announced f := announced_append (by omega)
    exact cut_eq_some.mpr ⟨by simp [conferenceCutter]; omega,
      by rw [hc, ha]; simp [conferenceCutter], by rw [hc, ha]; rfl⟩
  · obtain ⟨c, rfl⟩ := ht
    have hlt : t.length < (t ++ c).length := by
      refine lt_of_le_of_ne (by simp) fun he => hne ?_
      simpa using he
    rw [cut_eq_none]
    by_cases hh : t.length ≤ conferenceCutter.head
    · exact .inl hh
    · have hh' : ConferenceMngHead.sizeof < t.length := not_le.mp hh
      rw [announced_append (by omega)] at ha
      exact .inr (by rw [ha]; exact hlt)

end Cut

section Body

variable {k : Cutter} {buff : Bytes} {s : MsgGetState}

/-- What one round does, with the length check that a 16-bit length never fails
left out. -/
theorem msgGetBody_eq :
    msgGetBody k buff s =
      match k.cut s.tmp with
      | none => .inr (.returns s.handleLen s.qRecv)
      | some n =>
        if n ≤ s.tmp.length then
          .inl ⟨s.tmp.drop n, s.qRecv ++ [s.tmp.take n], s.handleLen + n⟩
        else .inr (.throws (s.qRecv ++ [s.tmp.take n])) := by
  have hlt := announced_lt s.tmp
  unfold msgGetBody Cutter.cut substr
  by_cases hh : k.head < s.tmp.length
  · by_cases hn : s.tmp.length < k.need (announced s.tmp)
    · simp [hh, hn, hlt.le]
    · by_cases hs : k.size (announced s.tmp) ≤ s.tmp.length <;>
        simp [hh, hn, hs, hlt.le, not_le.mpr hh]
  · simp [hh, not_lt.mp hh]

theorem msgGetBody_eq_inl {s' : MsgGetState} :
    msgGetBody k buff s = .inl s' ↔
      ∃ n, k.cut s.tmp = some n ∧ n ≤ s.tmp.length ∧
        s' = ⟨s.tmp.drop n, s.qRecv ++ [s.tmp.take n], s.handleLen + n⟩ := by
  rw [msgGetBody_eq]
  cases hc : k.cut s.tmp with
  | none => simp
  | some n => by_cases hn : n ≤ s.tmp.length <;> simp [hn, eq_comm]

theorem msgGetBody_eq_returns {ret : ℕ} {q : List Bytes} :
    msgGetBody k buff s = .inr (.returns ret q) ↔
      k.cut s.tmp = none ∧ ret = s.handleLen ∧ q = s.qRecv := by
  rw [msgGetBody_eq]
  cases hc : k.cut s.tmp with
  | none => simp [eq_comm]
  | some n => by_cases hn : n ≤ s.tmp.length <;> simp [hn]

theorem msgGetBody_eq_throws {q : List Bytes} :
    msgGetBody k buff s = .inr (.throws q) ↔
      ∃ n, k.cut s.tmp = some n ∧ s.tmp.length < n ∧ q = s.qRecv ++ [s.tmp.take n] := by
  rw [msgGetBody_eq]
  cases hc : k.cut s.tmp with
  | none => simp
  | some n => by_cases hn : n ≤ s.tmp.length <;> simp [hn, eq_comm]; omega

/-- A frame of length zero leaves `tmp` as it is, so the loop never ends. -/
theorem not_ends_of_cut_zero {e : Ending} (h : k.cut s.tmp = some 0) :
    ¬ Loop.Ends (msgGetBody k buff) s e := by
  refine Loop.not_ends_of_trap (fun s => k.cut s.tmp = some 0) (fun s hs => ?_) h
  exact ⟨_, msgGetBody_eq_inl.mpr ⟨0, hs, by simp, rfl⟩, by simpa using hs⟩

theorem ends_returns_iff {ret : ℕ} {q : List Bytes} :
    Loop.Ends (msgGetBody k buff) s (.returns ret q) ↔
      ∃ fs r, Splits k.cut s.tmp fs r ∧ q = s.qRecv ++ fs ∧
        ret + r.length = s.handleLen + s.tmp.length := by
  constructor
  · intro h
    generalize he : Ending.returns ret q = e at h
    induction h with
    | exit hb =>
      subst he
      obtain ⟨hc, rfl, rfl⟩ := msgGetBody_eq_returns.mp hb
      exact ⟨[], _, .wait hc, by simp, rfl⟩
    | round hb hends ih =>
      obtain ⟨n, hc, hn, rfl⟩ := msgGetBody_eq_inl.mp hb
      obtain ⟨fs, r, hs, hq, hr⟩ := ih he
      have hpos : 0 < n := by
        rcases Nat.eq_zero_or_pos n with rfl | hpos
        · exact absurd hends (not_ends_of_cut_zero (by simpa using hc))
        · exact hpos
      refine ⟨_, r, .frame hc hpos hn hs, by simpa using hq, ?_⟩
      simp only [List.length_drop] at hr
      omega
  · rintro ⟨fs, r, hs, rfl, hr⟩
    obtain ⟨t, q, h⟩ := s
    simp only at hs hr ⊢
    induction hs generalizing q h with
    | @wait b hc =>
      have hret : ret = h := by omega
      exact .exit (msgGetBody_eq_returns.mpr ⟨hc, hret, by simp⟩)
    | @frame b r fs n hc _ hn _ ih =>
      refine .round (msgGetBody_eq_inl.mpr ⟨n, hc, hn, rfl⟩) ?_
      have hends := ih (q ++ [b.take n]) (h + n) (by simp only [List.length_drop]; omega)
      simpa using hends

/-- The fuel of `msgGet` is enough: it fails only when the loop never ends. -/
theorem msgGet_eq_some_iff {q : List Bytes} {e : Ending} :
    msgGet k buff q = some e ↔ Loop.Ends (msgGetBody k buff) ⟨buff, q, 0⟩ e := by
  have hvar : ∀ s s' r, msgGetBody k buff s = .inl s' → Loop.Ends (msgGetBody k buff) s' r →
      s'.tmp.length < s.tmp.length := by
    intro s s' r hb hends
    obtain ⟨n, hc, hn, rfl⟩ := msgGetBody_eq_inl.mp hb
    rcases Nat.eq_zero_or_pos n with rfl | hpos
    · exact absurd hends (not_ends_of_cut_zero (by simpa using hc))
    · simp only [List.length_drop]; omega
  unfold msgGet
  split_ifs with hh
  · have hexit : msgGetBody k buff ⟨buff, q, 0⟩ = .inr (.returns 0 q) :=
      msgGetBody_eq_returns.mpr ⟨cut_eq_none.mpr (.inl hh), rfl, rfl⟩
    constructor
    · intro h
      obtain rfl := Option.some.inj h
      exact .exit hexit
    · exact fun h => congrArg some ((Loop.Ends.exit hexit).deterministic h)
  · exact ⟨Loop.ends_of_run,
      fun h => Loop.run_of_ends (fun s => s.tmp.length) hvar h (Nat.lt_succ_self _)⟩

/-- `msgGet` returns exactly when the buffer splits into frames. -/
theorem msgGet_returns_iff {q q' : List Bytes} {ret : ℕ} :
    msgGet k buff q = some (.returns ret q') ↔
      ∃ fs r, Splits k.cut buff fs r ∧ q' = q ++ fs ∧ ret + r.length = buff.length := by
  rw [msgGet_eq_some_iff, ends_returns_iff]
  simp only [Nat.zero_add]

end Body

end Vs17.Asio
