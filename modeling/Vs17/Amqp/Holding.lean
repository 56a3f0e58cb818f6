import Vs17.Amqp.Assembly

/-! # The frames of a consumer

A channel that a consumer uses carries nothing but its messages and the answers that a call waits
for. What has been read from it is then, in this order: the messages that have been handed out,
those in `m_delivered_messages`, and the frames in the queue. The loop that reads frames keeps it
so, whatever channel they are read for.
-/

namespace Vs17.Amqp

open Calls Demux Transducers ChannelImpl Reading

/-- The frames that a message is made of. -/
def Frame.isContent (frame : Frame) : Bool :=
  match frame.payload with
  | .method (.basicDeliver _) | .header _ _ | .body _ => true
  | _ => false

namespace ChannelImpl

/-- The frames that are still to be read. -/
def upcoming (s : ChannelImpl) : List Frame :=
  s.coming.filterMap fun
    | .frame frame _ => some frame
    | .failure _ => none

end ChannelImpl

def contentOn (c : UInt16) (l : List Frame) : List Frame :=
  l.filter fun frame => isOnChannel c frame && frame.isContent

/-- `got` is what has been handed out. Of the message in progress, `r` has been taken from the
queue; `pend` is a message that is neither handed out nor stored yet, `hand` a frame that is
neither taken nor in the queue. Frames that are no part of a message come only as one of the
answers `ex`. -/
structure Holding (c : UInt16) (ex : List UInt32) (got : List Envelope) (r : Reading)
    (pend : List Envelope) (hand : List Frame) (s : ChannelImpl) : Prop where
  assembled : ∃ done, contentOn c s.read = done ++ s.queued c ++ hand ∧
    run (next c) .idle done = some (r, got ++ s.delivered c ++ pend)
  legal : (run (next c) .idle (contentOn c (s.read ++ s.upcoming))).isSome
  answers : ∀ f ∈ s.upcoming, f.channel = c →
    f.isContent = true ∨ isExpectedMethodOnChannel [c] ex f = true
  state : s.channels[c.toNat]? = some .csUsed
  nonzero : c ≠ 0
  width : s.channels.length ≤ 65536

section Holding

variable {c d : UInt16} {ex : List UInt32} {got pend : List Envelope} {r : Reading}
  {hand l : List Frame} {s t : ChannelImpl} {frame : Frame} {late : Bool} {coming : List Arrival}
  {e : Envelope}

theorem contentOn_append {l m : List Frame} :
    contentOn c (l ++ m) = contentOn c l ++ contentOn c m :=
  List.filter_append ..

theorem contentOn_singleton (hc : frame.channel = c) (hf : frame.isContent = true) :
    contentOn c [frame] = [frame] := by
  simp [contentOn, isOnChannel, hc, hf]

theorem contentOn_singleton_of_not (h : frame.channel = c → frame.isContent = false) :
    contentOn c [frame] = [] := by
  simpa [contentOn, isOnChannel] using h

theorem isContent_of_mem_contentOn (h : frame ∈ contentOn c l) : frame.isContent = true := by
  have hmem := List.of_mem_filter h
  simp_all

theorem upcoming_frame (h : s.coming = .frame frame late :: coming) :
    s.upcoming = frame :: (s.receive frame late coming).upcoming := by
  simp [upcoming, receive, h]

namespace Holding

/-- The other members do not matter. -/
theorem congr (h : Holding c ex got r pend hand s) (hqueue : t.queued c = s.queued c)
    (hdelivered : t.delivered c = s.delivered c) (hread : t.read = s.read)
    (hcoming : t.coming = s.coming) (hstate : t.channels[c.toNat]? = s.channels[c.toNat]?)
    (hwidth : t.channels.length ≤ 65536) :
    Holding c ex got r pend hand t where
  assembled := by
    rw [hread, hqueue, hdelivered]
    exact h.assembled
  legal := by
    rw [hread, upcoming, hcoming]
    exact h.legal
  answers := by
    rw [upcoming, hcoming]
    exact h.answers
  state := by
    rw [hstate]
    exact h.state
  nonzero := h.nonzero
  width := hwidth

theorem confined (h : Holding c ex got r pend hand s) (hc : Confined d s t) (hne : c ≠ d) :
    Holding c ex got r pend hand t :=
  h.congr (hc.queued c hne) (hc.delivered c hne) hc.read hc.coming (hc.state c hne)
    (hc.width.trans_le h.width)

/-- A frame is read that is no part of a message of this channel. -/
theorem receive_other (h : Holding c ex got r pend hand s)
    (hcoming : s.coming = .frame frame late :: coming)
    (hother : frame.channel = c → frame.isContent = false) :
    Holding c ex got r pend hand (s.receive frame late coming) where
  assembled := by
    change ∃ done, contentOn c (s.read ++ [frame]) = done ++ s.queued c ++ hand ∧ _
    rw [contentOn_append, contentOn_singleton_of_not hother, List.append_nil]
    exact h.assembled
  legal := by
    have hlegal := h.legal
    rw [upcoming_frame hcoming] at hlegal
    change (run (next c) .idle (contentOn c (s.read ++ [frame] ++ _))).isSome
    rwa [List.append_assoc]
  answers f hf := by
    refine h.answers f ?_
    rw [upcoming_frame hcoming]
    exact List.mem_cons_of_mem _ hf
  state := h.state
  nonzero := h.nonzero
  width := h.width

/-- A frame of a message is read. -/
theorem receive_content (h : Holding c ex got r pend [] s)
    (hcoming : s.coming = .frame frame late :: coming) (hc : frame.channel = c)
    (hcontent : frame.isContent = true) :
    Holding c ex got r pend [frame] (s.receive frame late coming) where
  assembled := by
    obtain ⟨done, hread, hrun⟩ := h.assembled
    refine ⟨done, ?_, hrun⟩
    change contentOn c (s.read ++ [frame]) = done ++ s.queued c ++ [frame]
    rw [contentOn_append, contentOn_singleton hc hcontent, hread, List.append_nil]
  legal := by
    have hlegal := h.legal
    rw [upcoming_frame hcoming] at hlegal
    change (run (next c) .idle (contentOn c (s.read ++ [frame] ++ _))).isSome
    rwa [List.append_assoc]
  answers f hf := by
    refine h.answers f ?_
    rw [upcoming_frame hcoming]
    exact List.mem_cons_of_mem _ hf
  state := h.state
  nonzero := h.nonzero
  width := h.width

theorem fail {status : ℤ} (h : Holding c ex got r pend hand s)
    (hcoming : s.coming = .failure status :: coming) :
    Holding c ex got r pend hand { s with coming := coming } := by
  have hsame : ({ s with coming := coming } : ChannelImpl).upcoming = s.upcoming := by
    simp [upcoming, hcoming]
  exact ⟨h.assembled, by rw [hsame]; exact h.legal, by rw [hsame]; exact h.answers, h.state,
    h.nonzero, h.width⟩

theorem enqueue (h : Holding c ex got r pend [frame] s) (hc : frame.channel = c) :
    Holding c ex got r pend [] (s.enqueue frame) where
  assembled := by
    obtain ⟨done, hread, hrun⟩ := h.assembled
    refine ⟨done, ?_, hrun⟩
    rw [queued_enqueue, if_pos hc, List.append_nil, ← List.append_assoc]
    exact hread
  legal := h.legal
  answers := h.answers
  state := h.state
  nonzero := h.nonzero
  width := h.width

theorem addDelivered (h : Holding c ex got r [e] hand s) (hc : e.deliveryChannel = c) :
    Holding c ex got r [] hand (s.addDelivered e) where
  assembled := by
    obtain ⟨done, hread, hrun⟩ := h.assembled
    refine ⟨done, hread, ?_⟩
    have hdelivered : (s.addDelivered e).delivered c = s.delivered c ++ [e] := by
      simp [delivered, ChannelImpl.addDelivered, hc]
    rw [hdelivered, List.append_nil, ← List.append_assoc]
    exact hrun
  legal := h.legal
  answers := h.answers
  state := h.state
  nonzero := h.nonzero
  width := h.width

/-- The first of the stored messages is handed out. -/
theorem eraseDelivered {p : Envelope → Bool} {l : List Envelope}
    (h : Holding c ex got r pend hand s) (hs : s.delivered c = e :: l)
    (ht : (s.eraseDelivered p).delivered c = l) :
    Holding c ex (got ++ [e]) r pend hand (s.eraseDelivered p) where
  assembled := by
    obtain ⟨done, hread, hrun⟩ := h.assembled
    refine ⟨done, hread, ?_⟩
    rw [ht, hrun, hs]
    simp
  legal := h.legal
  answers := h.answers
  state := h.state
  nonzero := h.nonzero
  width := h.width

/-- There are no stored messages, and the message behind them is handed out. -/
theorem handOut (h : Holding c ex got r pend hand s) (hs : s.delivered c = []) :
    Holding c ex (got ++ pend) r [] hand s where
  assembled := by
    obtain ⟨done, hread, hrun⟩ := h.assembled
    refine ⟨done, hread, ?_⟩
    rw [hrun, hs]
    simp
  legal := h.legal
  answers := h.answers
  state := h.state
  nonzero := h.nonzero
  width := h.width

/-- The first frames are taken from the queue. -/
theorem advance {l₁ l₂ : List Frame} {r' : Reading} {out : List Envelope}
    (h : Holding c ex got r [] [] s) (hq : s.queued c = l₁ ++ l₂)
    (hrun : run (next c) r l₁ = some (r', out)) (ht : Dequeued c s t) (hl₂ : t.queued c = l₂) :
    Holding c ex got r' out [] t where
  assembled := by
    obtain ⟨done, hread, hdone⟩ := h.assembled
    refine ⟨done ++ l₁, ?_, ?_⟩
    · rw [ht.confined.read, hread, hq, hl₂]
      simp
    · rw [ht.delivered]
      exact run_append_eq_some.mpr ⟨r, _, out, hdone, hrun, by rw [List.append_nil]⟩
  legal := by
    rw [ht.confined.read, upcoming, ht.confined.coming]
    exact h.legal
  answers := by
    rw [upcoming, ht.confined.coming]
    exact h.answers
  state := by
    rw [ht.channels]
    exact h.state
  nonzero := h.nonzero
  width := by
    rw [ht.channels]
    exact h.width

/-- What there is of a channel, and what comes, is in order. -/
theorem run_queued (h : Holding c ex got r pend hand s) :
    (run (next c) r (s.queued c ++ hand)).isSome := by
  obtain ⟨done, hread, hdone⟩ := h.assembled
  have hlegal := h.legal
  rw [contentOn_append] at hlegal
  have hsome := isSome_of_append hlegal
  rw [hread, List.append_assoc] at hsome
  obtain ⟨⟨r', out⟩, hsome⟩ := Option.isSome_iff_exists.mp hsome
  obtain ⟨r₁, out₁, out₂, hdone', hrest, -⟩ := run_append_eq_some.mp hsome
  rw [hdone] at hdone'
  obtain ⟨rfl, -⟩ := Prod.mk.inj (Option.some.inj hdone')
  exact Option.isSome_iff_exists.mpr ⟨_, hrest⟩

/-- The first frame of the queue is taken. -/
theorem take (h : Holding c ex got r [] [] s) (hq : s.queued c = frame :: l) :
    ∃ r' out, next c r frame = some (r', out) ∧
      ∀ t, Dequeued c s t → t.queued c = l → Holding c ex got r' out [] t := by
  have hrun := h.run_queued
  rw [hq, List.append_nil] at hrun
  obtain ⟨⟨r', out⟩, hnext⟩ := Option.isSome_iff_exists.mp (isSome_of_append (l := [frame]) hrun)
  refine ⟨r', out, by rwa [run_singleton] at hnext, fun t ht hl => h.advance hq hnext ht hl⟩

/-- The frame in hand is taken, when there are no others of its channel. -/
theorem accept (h : Holding c ex got r [] [frame] s) (hq : s.queued c = []) :
    ∃ r' out, next c r frame = some (r', out) ∧ Holding c ex got r' out [] s := by
  have hrun := h.run_queued
  rw [hq, List.nil_append] at hrun
  obtain ⟨⟨r', out⟩, hnext⟩ := Option.isSome_iff_exists.mp hrun
  refine ⟨r', out, by rwa [run_singleton] at hnext, ?_, h.legal, h.answers, h.state, h.nonzero,
    h.width⟩
  obtain ⟨done, hread, hdone⟩ := h.assembled
  refine ⟨done ++ [frame], ?_, ?_⟩
  · rw [hread, hq]
    simp
  · exact run_append_eq_some.mpr ⟨r, _, out, hdone, hnext, by rw [List.append_nil]⟩

end Holding

end Holding

section Reading

variable {c : UInt16} {ex : List UInt32} {got : List Envelope} {r : Reading} {s t : ChannelImpl}
  {frame : Frame} {channels : List UInt16} {timed : Bool} {fuel : ℕ}
  {fromBroker : List UInt16 → Bool → Call (Option Frame)}

/-- A frame that another call has read is put where it belongs. -/
theorem addToFrameQueue_holding (h : Holding c ex got .idle [] [frame] s)
    (hc : frame.channel = c) :
    Ends (addToFrameQueue fromBroker frame) s (fun _ t => Holding c ex got .idle [] [] t)
      (fun _ _ => False) := by
  have hqueue := h.enqueue hc
  have hrun := hqueue.run_queued
  rw [List.append_nil] at hrun
  simp only [addToFrameQueue, ends_bind, ends_modify, ends_get, hc]
  obtain hfalse | ⟨htrue, e, rest, hstored⟩ := checkForQueuedMessageOnChannel_of_run hrun
  · rw [hfalse]
    exact hqueue
  · rw [htrue]
    simp only [ends_bind]
    refine (consumeMessageOnChannelInner_stored hstored).mono ?_ fun _ _ he => he
    rintro _ t ⟨rfl, ht, hrest⟩
    obtain ⟨l₁, hl₁, hrun⟩ := hstored.run
    exact (hqueue.advance hl₁ hrun ht hrest).addDelivered hstored.deliveryChannel

/-- What a reader of frames brings: of this channel, only a frame that belongs to a message or one
of the answers. -/
def Brought (c : UInt16) (ex : List UInt32) (got : List Envelope) (r : Reading)
    (channels : List UInt16) (t : ChannelImpl) : Option Frame → Prop
  | none => Holding c ex got r [] [] t
  | some frame => frame.channel ∈ channels ∧
      if frame.channel = c ∧ frame.isContent = true then Holding c ex got r [] [frame] t
      else Holding c ex got r [] [] t ∧
        (frame.channel = c → isExpectedMethodOnChannel [c] ex frame = true)

/-- For what channel ever a frame is awaited: those of `c` are kept in order, and unless they are
awaited themselves, a message of `c` must not be in progress. -/
theorem nextFrameFromBrokerOnChannel_holding (h : Holding c ex got r [] [] s)
    (hidle : c ∉ channels → r = .idle ∧ ex = []) :
    Ends (nextFrameFromBrokerOnChannel fuel channels timed) s
      (fun res t => Brought c ex got r channels t res ∧
        (c ∈ channels → t.queued c = s.queued c ∧ t.delivered c = s.delivered c))
      (fun _ t => Holding c ex got r [] [] t) := by
  induction fuel generalizing s with
  | zero => exact h
  | succ fuel ih =>
    -- The loop goes on from a state in which nothing else has changed for `c`.
    have hloop : ∀ t, Holding c ex got r [] [] t →
        (c ∈ channels → t.queued c = s.queued c ∧ t.delivered c = s.delivered c) →
        Ends (do
            if ← timeIsOver timed then return none
            else nextFrameFromBrokerOnChannel fuel channels timed) t
          (fun res t => Brought c ex got r channels t res ∧
            (c ∈ channels → t.queued c = s.queued c ∧ t.delivered c = s.delivered c))
          (fun _ t => Holding c ex got r [] [] t) := by
      intro t ht hq
      simp only [timeIsOver, ends_bind, ends_get, ends_pure]
      split_ifs
      · exact ⟨ht, hq⟩
      · refine (ih ht).mono (fun _ _ hu => ⟨hu.1, fun hc => ?_⟩) fun _ _ he => he
        exact ⟨(hu.2 hc).1.trans (hq hc).1, (hu.2 hc).2.trans (hq hc).2⟩
    rw [nextFrameFromBrokerOnChannel]
    simp only [getNextFrameFromBroker, ends_bind, ends_get]
    cases hcoming : s.coming with
    | nil =>
      cases timed with
      | false => exact h
      | true => exact ⟨h, fun _ => ⟨rfl, rfl⟩⟩
    | cons arrival coming =>
      cases arrival with
      | failure status => exact h.fail hcoming
      | frame frame late =>
        simp only [ends_bind, ends_set, ends_pure]
        have hupcoming : frame ∈ s.upcoming := by
          rw [upcoming_frame hcoming]
          exact List.mem_cons_self
        by_cases hmem : frame.channel ∈ channels
        · rw [if_pos hmem]
          refine ⟨⟨hmem, ?_⟩, fun _ => ⟨rfl, rfl⟩⟩
          split_ifs with hcase
          · exact h.receive_content hcoming hcase.1 hcase.2
          · refine ⟨h.receive_other hcoming fun hc => by simpa [hc] using hcase, fun hc => ?_⟩
            exact (h.answers frame hupcoming hc).resolve_left fun hcontent => hcase ⟨hc, hcontent⟩
        rw [if_neg hmem]
        by_cases hc : frame.channel = c
        · obtain ⟨rfl, rfl⟩ := hidle (hc ▸ hmem)
          have hcontent : frame.isContent = true := by
            refine (h.answers frame hupcoming hc).resolve_right ?_
            unfold isExpectedMethodOnChannel
            split <;> simp
          rw [if_neg (hc ▸ h.nonzero), ends_bind]
          refine (addToFrameQueue_holding (h.receive_content hcoming hc hcontent) hc).mono ?_
            fun _ _ he => he.elim
          exact fun _ t ht => hloop t ht fun hmem' => absurd (hc ▸ hmem') hmem
        · have hreceive := h.receive_other hcoming fun h => absurd h hc
          split_ifs
          · split
            · exact hreceive.congr rfl rfl rfl rfl rfl h.width
            · exact hloop _ hreceive fun _ => ⟨rfl, rfl⟩
          · rw [ends_bind]
            refine addToFrameQueue_confined.mono (fun _ t ht => ?_) fun _ t ht => ?_
            · exact hloop t (hreceive.confined ht (Ne.symm hc)) fun _ =>
                ⟨ht.queued c (Ne.symm hc), ht.delivered c (Ne.symm hc)⟩
            · exact hreceive.confined ht.2 (Ne.symm hc)

theorem getNextFrameFromBrokerOnChannel_holding (h : Holding c ex got r [] [] s)
    (hidle : c ∉ channels → r = .idle ∧ ex = []) :
    Ends (getNextFrameFromBrokerOnChannel channels timed) s
      (fun res t => Brought c ex got r channels t res ∧
        (c ∈ channels → t.queued c = s.queued c ∧ t.delivered c = s.delivered c))
      (fun _ t => Holding c ex got r [] [] t) := by
  simp only [getNextFrameFromBrokerOnChannel, ends_bind, ends_get]
  exact nextFrameFromBrokerOnChannel_holding h hidle

theorem not_isExpected_nil : ¬ isExpectedMethodOnChannel channels [] frame = true := by
  unfold isExpectedMethodOnChannel
  split <;> simp

end Reading

end Vs17.Amqp
