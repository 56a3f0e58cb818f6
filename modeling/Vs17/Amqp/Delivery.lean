import Vs17.Amqp.Holding

/-! # The messages of a consumer

A call that asks for the messages of a channel gets the next one. A call for other channels leaves
them alone, whether it returns or throws.
-/

namespace Vs17.Amqp

open Calls Demux Transducers ChannelImpl Reading

section Reading

variable {c : UInt16} {ex : List UInt32} {got : List Envelope} {r : Reading} {s t : ChannelImpl}
  {frame : Frame} {channels : List UInt16} {timed : Bool} {fuel : ℕ}

/-! ## Calls that ask for messages of the channel -/

/-- The next frame of the channel, for a call that waits for nothing else. -/
theorem getNextFrameOnChannel_holding (h : Holding c [] got r [] [] s) :
    Ends (getNextFrameOnChannel getNextFrameFromBrokerOnChannel c timed) s
      (fun res t => ∀ frame, res = some frame → ∃ r' out, next c r frame = some (r', out) ∧
        Holding c [] got r' out [] t ∧ t.delivered c = s.delivered c)
      (fun _ _ => True) := by
  cases hq : s.queued c with
  | cons frame l =>
    obtain ⟨r', out, hnext, htake⟩ := h.take hq
    refine (getNextFrameOnChannel_queued hq).mono ?_ fun _ _ _ => trivial
    rintro _ _ ⟨rfl, rfl⟩ _ ⟨⟩
    have hdequeue : Dequeued c s (s.dequeue (isOnChannel c)) :=
      .of_isOnChannel
    refine ⟨r', out, hnext, htake _ hdequeue ?_, rfl⟩
    rw [queued_dequeue, hq, List.tail_cons]
  | nil =>
    have hfind : s.frameQueue.find? (isOnChannel c) = none := by
      simpa [queued] using hq
    simp only [getNextFrameOnChannel, ends_bind, ends_get, hfind]
    refine (getNextFrameFromBrokerOnChannel_holding h (by simp)).mono ?_ fun _ _ _ => trivial
    rintro _ t ⟨hbrought, hsame⟩ frame rfl
    obtain ⟨hchannel, hbrought⟩ := hbrought
    have hc : frame.channel = c := by simpa using hchannel
    split_ifs at hbrought
    · obtain ⟨r', out, hnext, ht⟩ := hbrought.accept (by rw [(hsame (by simp)).1, hq])
      exact ⟨r', out, hnext, ht, (hsame (by simp)).2⟩
    · exact absurd (hbrought.2 hc) not_isExpected_nil

theorem readBody_holding {m : Deliver} {properties received : Bytes} {n : ℕ}
    (h : Holding c [] got (.body m properties n received) [] [] s) (hlt : received.length < n) :
    Ends (readBody getNextFrameFromBrokerOnChannel c n fuel received) s
      (fun body t => Holding c [] got .idle [envelope c m ⟨body, properties⟩] [] t ∧
        t.delivered c = s.delivered c)
      (fun _ _ => True) := by
  induction fuel generalizing received s with
  | zero => trivial
  | succ fuel ih =>
    rw [readBody, if_pos hlt, ends_bind]
    refine (getNextFrameOnChannel_holding h).mono ?_ fun _ _ _ => trivial
    intro res t ht
    cases res with
    | none => trivial
    | some frame =>
      obtain ⟨r', out, hnext, hr, hsame⟩ := ht frame rfl
      obtain ⟨fragment, hp, ⟨hmore, rfl, rfl⟩ | ⟨hlast, rfl, rfl⟩⟩ := next_body_iff.mp hnext
      · simp only [hp, if_pos hmore.le]
        exact (ih hr (by rwa [List.length_append])).mono
          (fun _ _ hu => ⟨hu.1, hu.2.trans hsame⟩) fun _ _ _ => trivial
      · simp only [hp, if_pos hlast.le]
        cases fuel with
        | zero => trivial
        | succ fuel =>
          rw [readBody, if_neg (by simp [hlast])]
          exact ⟨hr, hsame⟩

theorem readContent_holding {m : Deliver} (h : Holding c [] got (.header m) [] [] s) :
    Ends (readContent getNextFrameFromBrokerOnChannel c) s
      (fun content t => Holding c [] got .idle [envelope c m content] [] t ∧
        t.delivered c = s.delivered c)
      (fun _ _ => True) := by
  simp only [readContent, ends_bind]
  refine (getNextFrameOnChannel_holding h).mono ?_ fun _ _ _ => trivial
  intro res t ht
  cases res with
  | none => trivial
  | some frame =>
    obtain ⟨r', out, hnext, hr, hsame⟩ := ht frame rfl
    obtain ⟨n, properties, hp, hsize, ⟨rfl, rfl, rfl⟩ | ⟨hpos, rfl, rfl⟩⟩ :=
      next_header_iff.mp hnext
    · simp only [hp, ends_bind, ends_get]
      rw [if_pos hsize, ends_bind, readBody, if_neg (by simp)]
      exact ⟨hr, hsame⟩
    · simp only [hp, ends_bind, ends_get]
      rw [if_pos hsize, ends_bind]
      exact (readBody_holding hr hpos).mono (fun _ _ hu => ⟨hu.1, hu.2.trans hsame⟩)
        fun _ _ _ => trivial

/-! ## Calls for other channels -/

variable {α : Type} {x : Call α} {d : UInt16} {expected : List UInt32}

/-- What is confined to another channel. -/
theorem ends_of_confined {hand : List Frame} {pend : List Envelope}
    (hx : Ends x s (fun _ t => Confined d s t) fun e t => e.Plain ∧ Confined d s t)
    (h : Holding c ex got r pend hand s) (hd : c ≠ d) :
    Ends x s (fun _ t => Holding c ex got r pend hand t)
      (fun _ t => Holding c ex got r pend hand t) :=
  hx.mono (fun _ _ ht => h.confined ht hd) fun _ _ ht => h.confined ht.2 hd

/-- A frame of another channel is taken from the queue. -/
theorem Holding.dequeue_other {p : Frame → Bool} (h : Holding c ex got r [] [] s)
    (hfind : s.frameQueue.find? p = some frame) (hc : frame.channel ≠ c) :
    Holding c ex got r [] [] (s.dequeue p) := by
  refine h.congr ((filter_eraseP hfind).2 ?_) rfl rfl rfl rfl h.width
  simpa [isOnChannel] using hc

theorem channel_mem_of_isExpected
    (h : isExpectedMethodOnChannel channels expected frame = true) : frame.channel ∈ channels := by
  unfold isExpectedMethodOnChannel at h
  split at h <;> simp_all

theorem getNextFrameOnChannel_other (h : Holding c [] got .idle [] [] s) (hd : c ≠ d) :
    Ends (getNextFrameOnChannel getNextFrameFromBrokerOnChannel d timed) s
      (fun _ t => Holding c [] got .idle [] [] t) (fun _ t => Holding c [] got .idle [] [] t) := by
  cases hq : s.queued d with
  | cons frame l =>
    refine (getNextFrameOnChannel_queued hq).mono ?_ fun _ _ he => h.confined he.2 hd
    rintro _ _ ⟨rfl, rfl⟩
    exact h.confined confined_dequeue_isOnChannel hd
  | nil =>
    have hfind : s.frameQueue.find? (isOnChannel d) = none := by
      simpa [queued] using hq
    simp only [getNextFrameOnChannel, ends_bind, ends_get, hfind]
    refine (getNextFrameFromBrokerOnChannel_holding h fun _ => ⟨rfl, rfl⟩).mono ?_
      fun _ _ he => he
    rintro (_ | frame) t ⟨hbrought, -⟩
    · exact hbrought
    · obtain ⟨hchannel, hbrought⟩ := hbrought
      rw [if_neg fun hf => hd (hf.1.symm.trans (by simpa using hchannel))] at hbrought
      exact hbrought.1

theorem awaitMethod_other (h : Holding c [] got .idle [] [] s) (hd : c ∉ channels) :
    Ends (awaitMethod getNextFrameFromBrokerOnChannel channels expected timed fuel) s
      (fun res t => Holding c [] got .idle [] [] t ∧
        ∀ frame, res = some frame → frame.channel ∈ channels)
      (fun _ t => Holding c [] got .idle [] [] t) := by
  induction fuel generalizing s with
  | zero => exact h
  | succ fuel ih =>
    rw [awaitMethod, ends_bind]
    refine (getNextFrameFromBrokerOnChannel_holding h fun _ => ⟨rfl, rfl⟩).mono ?_
      fun _ _ he => he
    rintro (_ | frame) t ⟨hbrought, -⟩
    · exact ⟨hbrought, by simp⟩
    obtain ⟨hchannel, hbrought⟩ := hbrought
    have hc : c ≠ frame.channel := fun hc => hd (hc ▸ hchannel)
    rw [if_neg fun hf => hc hf.1.symm] at hbrought
    dsimp only
    split_ifs
    · exact ⟨hbrought.1, by simpa using hchannel⟩
    · split
      · rw [ends_bind]
        exact ends_of_confined finishCloseChannel_confined hbrought.1 hc
      · have hqueue : Holding c [] got .idle [] [] (t.enqueue frame) :=
          hbrought.1.confined (confined_enqueue rfl) hc
        simp only [timeIsOver, ends_bind, ends_modify, ends_get, ends_pure]
        split_ifs
        · exact ⟨hqueue, by simp⟩
        · exact ih hqueue

theorem getMethodOnChannel_other (h : Holding c [] got .idle [] [] s) (hd : c ∉ channels) :
    Ends (getMethodOnChannel getNextFrameFromBrokerOnChannel channels expected timed) s
      (fun res t => Holding c [] got .idle [] [] t ∧
        ∀ frame, res = some frame → frame.channel ∈ channels)
      (fun _ t => Holding c [] got .idle [] [] t) := by
  simp only [getMethodOnChannel, ends_bind, ends_get]
  split
  · rename_i frame hfind
    have hmem := channel_mem_of_isExpected (List.find?_some hfind)
    refine ⟨h.dequeue_other hfind fun hc => hd (hc ▸ hmem), ?_⟩
    rintro _ ⟨⟩
    exact hmem
  · exact awaitMethod_other h hd

theorem readBody_other {n : ℕ} {received : Bytes} (h : Holding c [] got .idle [] [] s)
    (hd : c ≠ d) :
    Ends (readBody getNextFrameFromBrokerOnChannel d n fuel received) s
      (fun _ t => Holding c [] got .idle [] [] t) (fun _ t => Holding c [] got .idle [] [] t) := by
  induction fuel generalizing received s with
  | zero => exact h
  | succ fuel ih =>
    rw [readBody]
    split_ifs
    swap
    · exact h
    rw [ends_bind]
    refine (getNextFrameOnChannel_other h hd).mono ?_ fun _ _ he => he
    rintro (_ | frame) t ht
    · exact ht
    dsimp only
    split
    · split_ifs
      · exact ih ht
      · exact ht
    · exact ht

theorem readContent_other (h : Holding c [] got .idle [] [] s) (hd : c ≠ d) :
    Ends (readContent getNextFrameFromBrokerOnChannel d) s
      (fun _ t => Holding c [] got .idle [] [] t) (fun _ t => Holding c [] got .idle [] [] t) := by
  simp only [readContent, ends_bind]
  refine (getNextFrameOnChannel_other h hd).mono ?_ fun _ _ he => he
  rintro (_ | frame) t ht
  · exact ht
  dsimp only
  split
  · simp only [ends_bind, ends_get]
    split_ifs
    · rw [ends_bind]
      exact readBody_other ht hd
    · exact ht
  · exact ht

theorem consumeMessageOnChannelInner_other (h : Holding c [] got .idle [] [] s)
    (hd : c ∉ channels) :
    Ends (consumeMessageOnChannelInner getNextFrameFromBrokerOnChannel channels timed) s
      (fun res t => Holding c [] got .idle [] [] t ∧
        ∀ e, res = some e → e.deliveryChannel ∈ channels)
      (fun _ t => Holding c [] got .idle [] [] t) := by
  simp only [consumeMessageOnChannelInner, ends_bind]
  refine (getMethodOnChannel_other h hd).mono ?_ fun _ _ he => he
  rintro (_ | frame) t ⟨ht, hmem⟩
  · exact ⟨ht, by simp⟩
  have hc : c ≠ frame.channel := fun hc => hd (hc ▸ hmem frame rfl)
  dsimp only
  split
  · simp only [ends_bind, ends_throwing]
    refine (ends_of_confined removeConsumer_confined ht hc).mono (fun _ u hu => ?_) fun _ _ he => he
    exact ends_of_confined returnChannel_confined hu hc
  · simp only [ends_bind, ends_pure]
    refine (readContent_other ht hc).mono (fun _ u hu => ⟨hu, ?_⟩) fun _ _ he => he
    rintro _ ⟨⟩
    exact hmem frame rfl
  · exact ht

/-! ## Calls for several channels -/

/-- A frame of `c` that the search for `DELIVER_OR_CANCEL` ends with begins the next message. -/
def Found (c : UInt16) (got : List Envelope) (channels : List UInt16) (s t : ChannelImpl)
    (res : Option Frame) : Prop :=
  t.delivered c = s.delivered c ∧ match res with
    | none => Holding c [] got .idle [] [] t
    | some frame => frame.channel ∈ channels ∧
        if frame.channel = c then ∃ m, frame.payload = .method (.basicDeliver m) ∧
          Holding c [] got (.header m) [] [] t
        else Holding c [] got .idle [] [] t

theorem awaitMethod_found (h : Holding c [] got .idle [] [] s) (hq : s.queued c = [])
    (hc : c ∈ channels) :
    Ends (awaitMethod getNextFrameFromBrokerOnChannel channels
        [basicDeliverMethod, basicCancelMethod] timed fuel) s
      (fun res t => Found c got channels s t res) (fun _ _ => True) := by
  induction fuel generalizing s with
  | zero => trivial
  | succ fuel ih =>
    rw [awaitMethod, ends_bind]
    refine (getNextFrameFromBrokerOnChannel_holding h fun hnot => absurd hc hnot).mono ?_
      fun _ _ _ => trivial
    rintro (_ | frame) t ⟨hbrought, hsame⟩
    · exact ⟨(hsame hc).2, hbrought⟩
    obtain ⟨hchannel, hbrought⟩ := hbrought
    dsimp only
    by_cases hon : frame.channel = c
    · have hcontent : frame.isContent = true := by
        by_contra hnot
        rw [if_neg fun hf => hnot hf.2] at hbrought
        exact absurd (hbrought.2 hon) not_isExpected_nil
      rw [if_pos ⟨hon, hcontent⟩] at hbrought
      obtain ⟨r', out, hnext, ht⟩ := hbrought.accept (by rw [(hsame hc).1, hq])
      obtain ⟨m, hm, rfl, rfl⟩ := next_idle_iff.mp hnext
      rw [if_pos (isExpected_deliverOrCancel_iff.mpr ⟨hchannel, .inl ⟨m, hm⟩⟩)]
      refine ⟨(hsame hc).2, hchannel, ?_⟩
      rw [if_pos hon]
      exact ⟨m, hm, ht⟩
    · rw [if_neg fun hf => hon hf.1] at hbrought
      split_ifs
      · refine ⟨(hsame hc).2, hchannel, ?_⟩
        rw [if_neg hon]
        exact hbrought.1
      · split
        · rw [ends_bind]
          exact finishCloseChannel_confined.mono (fun _ _ _ => trivial) fun _ _ _ => trivial
        · have hconfined : Confined frame.channel t (t.enqueue frame) := confined_enqueue rfl
          have hqueue := hbrought.1.confined hconfined (Ne.symm hon)
          have hdelivered : (t.enqueue frame).delivered c = s.delivered c := (hsame hc).2
          simp only [timeIsOver, ends_bind, ends_modify, ends_get, ends_pure]
          split_ifs
          · exact ⟨hdelivered, hqueue⟩
          · refine (ih hqueue ?_).mono (fun _ _ hu => ⟨hu.1.trans hdelivered, hu.2⟩)
              fun _ _ _ => trivial
            rw [hconfined.queued c (Ne.symm hon), (hsame hc).1, hq]

theorem getMethodOnChannel_found (h : Holding c [] got .idle [] [] s) (hc : c ∈ channels) :
    Ends (getMethodOnChannel getNextFrameFromBrokerOnChannel channels
        [basicDeliverMethod, basicCancelMethod] timed) s
      (fun res t => Found c got channels s t res) (fun _ _ => True) := by
  simp only [getMethodOnChannel, ends_bind, ends_get]
  split
  · rename_i frame hfind
    have hmem := channel_mem_of_isExpected (List.find?_some hfind)
    refine ⟨rfl, hmem, ?_⟩
    split_ifs with hon
    · cases hq : s.queued c with
      | nil =>
        have hframe : frame ∈ s.queued c :=
          List.mem_filter.mpr ⟨List.mem_of_find?_eq_some hfind, isOnChannel_iff.mpr hon⟩
        simp [hq] at hframe
      | cons g l =>
        obtain ⟨r', out, hnext, htake⟩ := h.take hq
        obtain ⟨m, hm, rfl, rfl⟩ := next_idle_iff.mp hnext
        have hg : g ∈ s.queued c := by simp [hq]
        have hgchannel : g.channel = c := isOnChannel_iff.mp (List.of_mem_filter hg)
        obtain ⟨rfl, hrest⟩ := filter_eraseP_head hfind (isOnChannel_iff.mpr hon) hq
          (isExpected_deliverOrCancel_iff.mpr ⟨hgchannel ▸ hc, .inl ⟨m, hm⟩⟩)
        refine ⟨m, hm, htake _ (.of_dequeue fun f hf => ?_) hrest⟩
        obtain rfl := Option.some.inj (hfind.symm.trans hf)
        exact hon
    · exact h.dequeue_other hfind hon
  · rename_i hfind
    refine awaitMethod_found h ?_ hc
    -- The first frame of the channel would have been found.
    cases hq : s.queued c with
    | nil => rfl
    | cons g l =>
      obtain ⟨_, _, hnext, -⟩ := h.take hq
      obtain ⟨m, hm, -⟩ := next_idle_iff.mp hnext
      have hg : g ∈ s.queued c := by simp [hq]
      have hgchannel : g.channel = c := isOnChannel_iff.mp (List.of_mem_filter hg)
      refine absurd (isExpected_deliverOrCancel_iff.mpr ⟨hgchannel ▸ hc, .inl ⟨m, hm⟩⟩) ?_
      exact List.find?_eq_none.mp hfind g (List.mem_of_mem_filter hg)

theorem consumeMessageOnChannelInner_holding (h : Holding c [] got .idle [] [] s)
    (hc : c ∈ channels) :
    Ends (consumeMessageOnChannelInner getNextFrameFromBrokerOnChannel channels timed) s
      (fun res t => match res with
        | none => Holding c [] got .idle [] [] t
        | some e => if e.deliveryChannel = c then
            Holding c [] got .idle [e] [] t ∧ t.delivered c = s.delivered c
          else Holding c [] got .idle [] [] t)
      (fun _ _ => True) := by
  simp only [consumeMessageOnChannelInner, ends_bind]
  refine (getMethodOnChannel_found h hc).mono ?_ fun _ _ _ => trivial
  rintro (_ | frame) t ⟨hsame, hfound⟩
  · exact hfound
  obtain ⟨hchannel, hfound⟩ := hfound
  dsimp only
  by_cases hon : frame.channel = c
  · rw [if_pos hon] at hfound
    obtain ⟨m, hm, ht⟩ := hfound
    simp only [hm, hon, ends_bind, ends_pure]
    refine (readContent_holding ht).mono (fun content u hu => ?_) fun _ _ _ => trivial
    rw [if_pos trivial]
    exact ⟨hu.1, hu.2.trans hsame⟩
  · rw [if_neg hon] at hfound
    split
    · simp only [ends_bind, ends_throwing]
      refine (removeConsumer_confined (d := c)).mono (fun _ _ _ => ?_) fun _ _ _ => trivial
      exact returnChannel_confined.mono (fun _ _ _ => trivial) fun _ _ _ => trivial
    · simp only [ends_bind, ends_pure]
      refine (readContent_other hfound (Ne.symm hon)).mono (fun _ u hu => ?_) fun _ _ _ => trivial
      rw [if_neg hon]
      exact hu
    · trivial

/-- What a consumer gets is the next message of its channel. -/
theorem consumeMessageOnChannel_holding (h : Holding c [] got .idle [] [] s)
    (hc : c ∈ channels) :
    Ends (consumeMessageOnChannel channels timed) s
      (fun res t => Holding c [] (got ++ res.toList.filter (·.deliveryChannel = c)) .idle [] [] t)
      (fun _ _ => True) := by
  simp only [consumeMessageOnChannel, ends_bind, ends_get]
  split
  · rename_i e hfind
    simp only [ends_bind, ends_set, ends_pure, Option.toList_some, List.filter_singleton]
    by_cases hon : e.deliveryChannel = c
    · have hp : decide (e.deliveryChannel = c) = true := by simpa using hon
      cases hs : s.delivered c with
      | nil =>
        have he : e ∈ s.delivered c :=
          List.mem_filter.mpr ⟨List.mem_of_find?_eq_some hfind, hp⟩
        simp [hs] at he
      | cons e' l =>
        have he' : e' ∈ s.delivered c := by simp [hs]
        have hchannel : e'.deliveryChannel = c := by simpa using List.of_mem_filter he'
        obtain ⟨rfl, hrest⟩ := filter_eraseP_head hfind hp hs (by simpa [hchannel] using hc)
        simpa [hon] using h.eraseDelivered hs hrest
    · have hsame := (filter_eraseP (p := fun e => e.deliveryChannel = c) hfind).2
        (by simpa using hon)
      simpa [hon] using h.congr (t := s.eraseDelivered _) rfl hsame rfl rfl rfl h.width
  · rename_i hfind
    have hnone : s.delivered c = [] := by
      rw [delivered, List.filter_eq_nil_iff]
      intro e he hon
      refine List.find?_eq_none.mp hfind e he ?_
      simpa [of_decide_eq_true hon] using hc
    refine (consumeMessageOnChannelInner_holding h hc).mono ?_ fun _ _ he => he
    rintro (_ | e) t ht
    · simpa using ht
    · dsimp only at ht
      split_ifs at ht with hon
      · simpa [hon] using ht.1.handOut (ht.2.trans hnone)
      · simpa [hon] using ht

theorem consumeMessageOnChannel_other (h : Holding c [] got .idle [] [] s)
    (hd : c ∉ channels) :
    Ends (consumeMessageOnChannel channels timed) s
      (fun res t => Holding c [] got .idle [] [] t ∧
        ∀ e, res = some e → e.deliveryChannel ∈ channels)
      (fun _ t => Holding c [] got .idle [] [] t) := by
  simp only [consumeMessageOnChannel, ends_bind, ends_get]
  split
  · rename_i e hfind
    have hmem : e.deliveryChannel ∈ channels := by simpa using List.find?_some hfind
    have hne : e.deliveryChannel ≠ c := fun hc => hd (hc ▸ hmem)
    have hsame := (filter_eraseP (p := fun e => e.deliveryChannel = c) hfind).2 (by simpa using hne)
    refine ⟨h.congr (t := s.eraseDelivered _) rfl hsame rfl rfl rfl h.width, ?_⟩
    rintro _ ⟨⟩
    exact hmem
  · exact consumeMessageOnChannelInner_other h hd

/-! ## Answers on the channel -/

theorem not_isExpected_of_isContent (hf : frame.isContent = true)
    (hex : basicDeliverMethod ∉ expected) :
    ¬ isExpectedMethodOnChannel channels expected frame = true := by
  unfold Frame.isContent at hf
  unfold isExpectedMethodOnChannel
  split at hf <;> simp_all [Method.id]

/-- A call that waits for one of the answers leaves the messages in the queue. -/
theorem getMethodOnChannel_answer (h : Holding c expected got .idle [] [] s)
    (hex : basicDeliverMethod ∉ expected) :
    Ends (getMethodOnChannel getNextFrameFromBrokerOnChannel [c] expected timed) s
      (fun _ t => Holding c expected got .idle [] [] t)
      (fun _ t => Holding c expected got .idle [] [] t) := by
  have hfind : s.frameQueue.find? (isExpectedMethodOnChannel [c] expected) = none := by
    refine List.find?_eq_none.mpr fun f hf hexpected => ?_
    have hon : isOnChannel c f = true := by
      simpa [isOnChannel] using channel_mem_of_isExpected hexpected
    obtain ⟨done, hread, -⟩ := h.assembled
    have hcontent : f ∈ contentOn c s.read := by
      have hmem : f ∈ s.queued c := List.mem_filter.mpr ⟨hf, hon⟩
      simp [hread, hmem]
    exact not_isExpected_of_isContent (isContent_of_mem_contentOn hcontent) hex hexpected
  simp only [getMethodOnChannel, ends_bind, ends_get, hfind]
  generalize s.coming.length + 1 = fuel
  clear hfind
  induction fuel generalizing s with
  | zero => exact h
  | succ fuel ih =>
    rw [awaitMethod, ends_bind]
    refine (getNextFrameFromBrokerOnChannel_holding h (by simp)).mono ?_ fun _ _ he => he
    rintro (_ | frame) t ⟨hbrought, -⟩
    · exact hbrought
    obtain ⟨hchannel, hbrought⟩ := hbrought
    have hc : frame.channel = c := by simpa using hchannel
    dsimp only
    by_cases hcontent : frame.isContent = true
    · rw [if_neg (not_isExpected_of_isContent hcontent hex)]
      rw [if_pos ⟨hc, hcontent⟩] at hbrought
      split
      · rename_i hclose
        simp [Frame.isContent, hclose] at hcontent
      · simp only [timeIsOver, ends_bind, ends_modify, ends_get, ends_pure]
        split_ifs
        · exact hbrought.enqueue hc
        · exact ih (hbrought.enqueue hc)
    · rw [if_neg fun hf => hcontent hf.2] at hbrought
      rw [if_pos (hbrought.2 hc)]
      exact hbrought.1

end Reading

end Vs17.Amqp
