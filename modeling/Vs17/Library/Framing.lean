import Mathlib.Data.List.Basic
import Mathlib.Data.List.Infix
import Mathlib.Tactic.Tauto

/-! # Cutting frames off a stream

A cut function looks at the bytes received so far and either asks for more or
announces the length of the first frame. `Splits` cuts frames until more input is
needed. A cut that later bytes do not change may be made as soon as it is possible:
splitting a stream piece by piece then gives the frames of the whole stream.
-/

namespace Vs17.Framing

variable {α : Type*} (cut : List α → Option ℕ)

/-- `Splits cut b fs r`: the frames `fs` are cut off the front of `b` until the cut
function asks for more than the rest `r`. -/
inductive Splits : List α → List (List α) → List α → Prop
  | wait {b : List α} : cut b = none → Splits b [] b
  | frame {b r : List α} {fs : List (List α)} {n : ℕ} : cut b = some n → 0 < n →
      n ≤ b.length → Splits (b.drop n) fs r → Splits b (b.take n :: fs) r

/-- The positions at which cutting arrives, as the input that is left there. -/
inductive Boundary (b : List α) : List α → Prop
  | start : Boundary b b
  | next {t : List α} {n : ℕ} : Boundary b t → cut t = some n → Boundary b (t.drop n)

/-- A cut once announced stays when more input arrives. -/
def Stable : Prop :=
  ∀ b c n, n ≤ b.length → cut b = some n → cut (b ++ c) = some n

/-- The cut function delimits this frame: it asks for more on every proper prefix
and announces the frame's length whatever follows. -/
structure Delimits (f : List α) : Prop where
  ne_nil : f ≠ []
  whole : ∀ c, cut (f ++ c) = some f.length
  part : ∀ t, t <+: f → t ≠ f → cut t = none

variable {cut}

theorem boundary_iff {b t : List α} :
    Boundary cut b t ↔ t = b ∨ ∃ n, cut b = some n ∧ Boundary cut (b.drop n) t := by
  constructor
  · intro h
    induction h with
    | start => exact .inl rfl
    | @next t n _ hn ih =>
      right
      rcases ih with rfl | ⟨m, hm, ht⟩
      · exact ⟨n, hn, .start⟩
      · exact ⟨m, hm, .next ht hn⟩
  · rintro (rfl | ⟨n, hn, h⟩)
    · exact .start
    · induction h with
      | start => exact .next .start hn
      | next _ hm ih => exact .next ih hm

namespace Splits

variable {b r : List α} {fs : List (List α)}

theorem flatten_append (h : Splits cut b fs r) : fs.flatten ++ r = b := by
  induction h with
  | wait _ => rfl
  | frame _ _ _ _ ih => rw [List.flatten_cons, List.append_assoc, ih, List.take_append_drop]

theorem rest (h : Splits cut b fs r) : cut r = none := by
  induction h with
  | wait h => exact h
  | frame _ _ _ _ ih => exact ih

/-- Everything is left exactly when nothing can be cut. -/
theorem length_rest_eq_iff (h : Splits cut b fs r) : r.length = b.length ↔ cut b = none := by
  cases h with
  | wait hn => exact iff_of_true rfl hn
  | @frame _ _ fs n hn hpos hl h =>
    have hlen := congrArg List.length h.flatten_append
    simp only [List.length_append, List.length_drop] at hlen
    exact iff_of_false (by omega) (by simp [hn])

theorem deterministic {fs' : List (List α)} {r' : List α} (h : Splits cut b fs r)
    (h' : Splits cut b fs' r') : fs = fs' ∧ r = r' := by
  induction h generalizing fs' with
  | wait hn =>
    cases h' with
    | wait _ => exact ⟨rfl, rfl⟩
    | frame hm => simp [hn] at hm
  | frame hn _ _ _ ih =>
    cases h' with
    | wait hm => simp [hn] at hm
    | frame hm _ _ h' =>
      obtain rfl := Option.some.inj (hn.symm.trans hm)
      obtain ⟨rfl, rfl⟩ := ih h'
      exact ⟨rfl, rfl⟩

/-- The first frame is what the cut function announces on the whole input. -/
theorem head_length {f : List α} (h : Splits cut b (f :: fs) r) : cut b = some f.length := by
  cases h with
  | frame hn _ hl _ => rwa [List.length_take_of_le hl]

/-- Frames cut as soon as possible are the frames of the longer input. -/
theorem append (hs : Stable cut) {c r' : List α} {gs : List (List α)}
    (h : Splits cut b fs r) (h' : Splits cut (r ++ c) gs r') :
    Splits cut (b ++ c) (fs ++ gs) r' := by
  induction h with
  | wait _ => exact h'
  | @frame b r fs n hn hpos hl _ ih =>
    have hsplit := ih h'
    rw [← List.drop_append_of_le_length hl] at hsplit
    have hframe := frame (hs b c n hl hn) hpos (by simp only [List.length_append]; omega) hsplit
    rwa [List.take_append_of_le_length hl] at hframe

/-- The frames of the longer input begin with those already cut. -/
theorem resume (hs : Stable cut) {c r' : List α} {gs : List (List α)}
    (h : Splits cut b fs r) (h' : Splits cut (b ++ c) gs r') :
    ∃ hs, gs = fs ++ hs ∧ Splits cut (r ++ c) hs r' := by
  induction h generalizing gs with
  | wait _ => exact ⟨gs, rfl, h'⟩
  | @frame b r fs n hn _ hl _ ih =>
    cases h' with
    | wait hm => simp [hs b c n hl hn] at hm
    | frame hm _ _ h' =>
      obtain rfl := Option.some.inj ((hs b c n hl hn).symm.trans hm)
      rw [List.drop_append_of_le_length hl] at h'
      obtain ⟨gs', rfl, hgs'⟩ := ih h'
      exact ⟨gs', by rw [List.take_append_of_le_length hl]; rfl, hgs'⟩

/-- Cutting succeeds exactly when every cut met on the way is positive and inside
the input. -/
theorem exists_iff (b : List α) :
    (∃ fs r, Splits cut b fs r) ↔
      ∀ t n, Boundary cut b t → cut t = some n → 0 < n ∧ n ≤ t.length := by
  constructor
  · rintro ⟨fs, r, h⟩
    induction h with
    | wait hn =>
      intro t n ht hc
      rcases boundary_iff.mp ht with rfl | ⟨m, hm, _⟩
      · simp [hn] at hc
      · simp [hn] at hm
    | @frame b r fs m hm hpos hl _ ih =>
      intro t n ht hc
      rcases boundary_iff.mp ht with rfl | ⟨m', hm', ht'⟩
      · obtain rfl := Option.some.inj (hm.symm.trans hc)
        exact ⟨hpos, hl⟩
      · obtain rfl := Option.some.inj (hm.symm.trans hm')
        exact ih t n ht' hc
  · intro h
    induction hk : b.length using Nat.strong_induction_on generalizing b with
    | _ k ih =>
      cases hn : cut b with
      | none => exact ⟨[], b, wait hn⟩
      | some n =>
        obtain ⟨hpos, hl⟩ := h b n .start hn
        have hlt : (b.drop n).length < k := by simp only [List.length_drop]; omega
        obtain ⟨fs, r, hfs⟩ := ih _ hlt (b.drop n)
          (fun t m ht hc => h t m (boundary_iff.mpr (.inr ⟨n, hn, ht⟩)) hc) rfl
        exact ⟨_, r, frame hn hpos hl hfs⟩

/-- A prefix of a stream of delimited frames splits into the frames it holds whole
and the beginning of the next one. -/
theorem of_prefix {gs : List (List α)} (hnil : cut [] = none) (hd : ∀ f ∈ gs, Delimits cut f)
    (h : b <+: gs.flatten) :
    ∃ fs hs r, gs = fs ++ hs ∧ Splits cut b fs r ∧
      ((r = [] ∧ b = fs.flatten) ∨ ∃ f ∈ hs.head?, r <+: f ∧ r ≠ f) := by
  induction gs generalizing b with
  | nil =>
    obtain rfl : b = [] := by simpa using h
    exact ⟨[], [], [], rfl, wait hnil, .inl ⟨rfl, rfl⟩⟩
  | cons g gs ih =>
    have hg := hd g (by simp)
    rw [List.flatten_cons] at h
    by_cases hgb : g <+: b
    · obtain ⟨c, rfl⟩ := hgb
      obtain ⟨fs, hs, r, rfl, hsplit, hr⟩ :=
        ih (fun f hf => hd f (by simp [hf])) ((List.prefix_append_right_inj g).mp h)
      have hpos : 0 < g.length := List.length_pos_iff.mpr hg.ne_nil
      have hframe : Splits cut (g ++ c) ((g ++ c).take g.length :: fs) r :=
        frame (hg.whole c) hpos (by simp) (by rwa [List.drop_left])
      rw [List.take_left] at hframe
      refine ⟨g :: fs, hs, r, rfl, hframe, ?_⟩
      rcases hr with ⟨rfl, rfl⟩ | hr
      · exact .inl ⟨rfl, rfl⟩
      · exact .inr hr
    · have hbg : b <+: g := by
        rcases List.prefix_or_prefix_of_prefix h (List.prefix_append g _) with h' | h'
        · exact h'
        · exact absurd h' hgb
      have hne : b ≠ g := fun he => hgb (he ▸ List.prefix_rfl)
      exact ⟨[], g :: gs, b, rfl, wait (hg.part b hbg hne), .inr ⟨g, rfl, hbg, hne⟩⟩

end Splits

/-- A stream of delimited frames splits into them, with nothing left. -/
theorem Splits.of_frames {gs : List (List α)} (hnil : cut [] = none)
    (hd : ∀ f ∈ gs, Delimits cut f) : Splits cut gs.flatten gs [] := by
  induction gs with
  | nil => exact .wait hnil
  | cons g gs ih =>
    have hg := hd g (by simp)
    have hpos : 0 < g.length := List.length_pos_iff.mpr hg.ne_nil
    have hframe : Splits cut (g ++ gs.flatten) ((g ++ gs.flatten).take g.length :: gs) [] :=
      .frame (hg.whole _) hpos (by simp) (by
        rw [List.drop_left]
        exact ih fun f hf => hd f (by simp [hf]))
    rwa [List.take_left] at hframe

end Vs17.Framing
