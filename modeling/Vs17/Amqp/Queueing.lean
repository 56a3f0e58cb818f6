import Vs17.Amqp.ChannelImpl
import Vs17.Library.Calls
import Vs17.Library.Demux

/-! # The frame queue

A message that is complete in the queue is taken out of it without a look at the connection, and
nothing that belongs to another channel is touched.
-/

namespace Vs17.Amqp

open Calls Demux

variable {c d : UInt16} {s t u : ChannelImpl} {frame : Frame}

namespace ChannelImpl

/-- The frames of a channel that are in the queue. -/
def queued (c : UInt16) (s : ChannelImpl) : List Frame := s.frameQueue.filter (isOnChannel c)

def delivered (c : UInt16) (s : ChannelImpl) : List Envelope :=
  s.deliveredMessages.filter (·.deliveryChannel = c)

/-- Nothing has been read, and nothing changes but for this one channel. -/
structure Confined (d : UInt16) (s t : ChannelImpl) : Prop where
  queued : ∀ c, c ≠ d → t.queued c = s.queued c
  delivered : ∀ c, c ≠ d → t.delivered c = s.delivered c
  state : ∀ c, c ≠ d → t.channels[c.toNat]? = s.channels[c.toNat]?
  width : t.channels.length = s.channels.length
  coming : t.coming = s.coming
  read : t.read = s.read

theorem Confined.refl : Confined d s s := ⟨by simp, by simp, by simp, rfl, rfl, rfl⟩

theorem Confined.trans (h : Confined d s t) (h' : Confined d t u) : Confined d s u where
  queued c hc := (h'.queued c hc).trans (h.queued c hc)
  delivered c hc := (h'.delivered c hc).trans (h.delivered c hc)
  state c hc := (h'.state c hc).trans (h.state c hc)
  width := h'.width.trans h.width
  coming := h'.coming.trans h.coming
  read := h'.read.trans h.read

theorem isOnChannel_iff : isOnChannel c frame = true ↔ frame.channel = c := by
  simp [isOnChannel]

theorem queued_enqueue : (s.enqueue frame).queued c =
    s.queued c ++ if frame.channel = c then [frame] else [] := by
  simp only [queued, enqueue, List.filter_append, List.filter_cons, List.filter_nil,
    isOnChannel_iff]

theorem queued_dequeue : (s.dequeue (isOnChannel d)).queued d = (s.queued d).tail :=
  filter_eraseP_self

theorem confined_enqueue (h : frame.channel = d) : Confined d s (s.enqueue frame) where
  queued c hc := by rw [queued_enqueue, if_neg fun h' => hc (h'.symm.trans h), List.append_nil]
  delivered _ _ := rfl
  state _ _ := rfl
  width := rfl
  coming := rfl
  read := rfl

theorem confined_dequeue {p : Frame → Bool}
    (h : ∀ f, s.frameQueue.find? p = some f → f.channel = d) : Confined d s (s.dequeue p) where
  queued c hc := by
    change (s.frameQueue.eraseP p).filter _ = s.frameQueue.filter _
    cases hfind : s.frameQueue.find? p with
    | none => rw [List.eraseP_of_forall_not (by simpa using hfind)]
    | some f =>
      refine (filter_eraseP hfind).2 ?_
      simpa [isOnChannel, h f hfind] using hc.symm
  delivered _ _ := rfl
  state _ _ := rfl
  width := rfl
  coming := rfl
  read := rfl

theorem confined_dequeue_isOnChannel : Confined d s (s.dequeue (isOnChannel d)) :=
  confined_dequeue fun _ hf => isOnChannel_iff.mp (List.find?_some hf)

theorem confined_setState {st : ChannelState} : Confined d s (s.setState d st) where
  queued _ _ := rfl
  delivered _ _ := rfl
  state _ hc := List.getElem?_set_ne fun h => hc (UInt16.toNat.inj h).symm
  width := List.length_set
  coming := rfl
  read := rfl

theorem confined_note {id : UInt32} : Confined d s (s.note c id) :=
  ⟨fun _ _ => rfl, fun _ _ => rfl, fun _ _ => rfl, rfl, rfl, rfl⟩

theorem confined_addDelivered {e : Envelope} (h : e.deliveryChannel = d) :
    Confined d s (s.addDelivered e) where
  queued _ _ := rfl
  delivered c hc := by
    have hne : e.deliveryChannel ≠ c := fun h' => hc (h'.symm.trans h)
    simp [delivered, addDelivered, hne]
  state _ _ := rfl
  width := rfl
  coming := rfl
  read := rfl

end ChannelImpl

open ChannelImpl

/-- Neither is the call waiting for the connection nor has it been told something that it takes
for impossible. -/
def Ending.Plain (e : Ending) : Prop := e ≠ .blocked ∧ ∀ what, e ≠ .thrown (.logicError what)

section Primitives

variable {α : Type} {Q : α → ChannelImpl → Prop} {E : Ending → ChannelImpl → Prop}

@[simp]
theorem ends_throwing {e : Thrown} : Ends (throwing e : Call α) s Q E ↔ E (.thrown e) s := Iff.rfl

@[simp]
theorem ends_sendMethod {id : UInt32} {Q : ℤ → ChannelImpl → Prop} :
    Ends (sendMethod d id) s Q E ↔ Q (s.sends.headD 0) (s.note d id) := Iff.rfl

theorem plain_thrown {e : Thrown} (h : ∀ what, e ≠ .logicError what) : (Ending.thrown e).Plain :=
  ⟨by simp, by simpa using h⟩

theorem checkForError_keeps {ret : ℤ} : Ends (checkForError ret) s
    (fun _ t => t = s) (fun e t => e.Plain ∧ t = s) := by
  unfold checkForError
  split_ifs
  · exact ⟨plain_thrown (by simp), rfl⟩
  · rfl

theorem setChannel_confined {st : ChannelState} : Ends (setChannel d st) s
    (fun _ t => Confined d s t) (fun e t => e.Plain ∧ Confined d s t) := by
  simp only [setChannel, ends_bind, ends_get]
  split_ifs
  · exact confined_setState
  · exact ⟨plain_thrown (by simp), .refl⟩

theorem returnChannel_confined : Ends (returnChannel d) s
    (fun _ t => Confined d s t) (fun e t => e.Plain ∧ Confined d s t) := by
  simp only [returnChannel, ends_bind, ends_modify]
  refine setChannel_confined.mono (fun _ t h => h.trans ?_) fun _ _ h => h
  exact ⟨fun _ _ => rfl, fun _ _ => rfl, fun _ _ => rfl, rfl, rfl, rfl⟩

theorem finishCloseChannel_confined : Ends (finishCloseChannel d) s
    (fun _ t => Confined d s t) (fun e t => e.Plain ∧ Confined d s t) := by
  simp only [finishCloseChannel, ends_bind, ends_sendMethod]
  refine setChannel_confined.mono (fun _ t h => ?_) fun _ _ h => h
  refine checkForError_keeps.mono ?_ ?_
  · rintro _ _ rfl
    exact h.trans confined_note
  · rintro e _ ⟨he, rfl⟩
    exact ⟨he, h.trans confined_note⟩

theorem removeConsumer_confined {tag : Bytes} : Ends (removeConsumer tag) s
    (fun _ t => Confined d s t) (fun e t => e.Plain ∧ Confined d s t) := by
  simp only [removeConsumer, getConsumerChannel, ends_bind, ends_get, ends_modify, ends_pure]
  cases s.consumerChannelMap[tag]? with
  | none => exact ⟨plain_thrown (by simp), .refl⟩
  | some channel => exact ⟨fun _ _ => rfl, fun _ _ => rfl, fun _ _ => rfl, rfl, rfl, rfl⟩

end Primitives

/-! ## What is in the queue for one channel -/

theorem bodyIsQueued_of_le {n got : ℕ} (h : n ≤ got) {l : List Frame} :
    bodyIsQueued d n got l = .ok true := by
  cases l <;> simp [bodyIsQueued, h]

theorem bodyIsQueued_filter {n got : ℕ} {l : List Frame} :
    bodyIsQueued d n got (l.filter (isOnChannel d)) = bodyIsQueued d n got l := by
  induction l generalizing got with
  | nil => rfl
  | cons f l ih =>
    by_cases hle : n ≤ got
    · rw [bodyIsQueued_of_le hle, bodyIsQueued_of_le hle]
    by_cases hf : isOnChannel d f
    · rw [List.filter_cons_of_pos hf, bodyIsQueued, bodyIsQueued, if_pos hf, if_pos hf]
      cases f.payload <;> simp only [ih]
    · rw [List.filter_cons_of_neg hf, ih, bodyIsQueued, if_neg hle, if_neg hf]

/-- A frame that is no fragment keeps the loop from coming to the end of the queue. -/
theorem bodyIsQueued_append_ne {n got : ℕ} {l m : List Frame} (hf : isOnChannel d frame)
    (hbody : ∀ fragment, frame.payload ≠ .body fragment) :
    bodyIsQueued d n got (l ++ frame :: m) ≠ .ok false := by
  induction l generalizing got with
  | nil =>
    rw [List.nil_append, bodyIsQueued, if_pos hf]
    split_ifs
    · simp
    · cases hp : frame.payload with
      | body fragment => exact absurd hp (hbody fragment)
      | _ => simp
  | cons f l ih =>
    rw [List.cons_append, bodyIsQueued]
    split_ifs
    · simp
    · cases f.payload with
      | body fragment => exact ih
      | _ => simp
    · exact ih

theorem eq_of_bodyIsQueued_eq_error {n got : ℕ} {l : List Frame} {e : Thrown}
    (h : bodyIsQueued d n got l = .error e) : e = .runtimeError "Protocol error" := by
  induction l generalizing got with
  | nil => cases h
  | cons f l ih =>
    rw [bodyIsQueued] at h
    split_ifs at h
    · cases hp : f.payload with
      | body fragment => exact ih (by rwa [hp] at h)
      | _ =>
        rw [hp] at h
        exact (Except.error.inj h).symm
    · exact ih h

/-- A header, whatever is in front of it, and the fragments it asks for. -/
def Complete (d : UInt16) (l : List Frame) : Prop :=
  ∃ l₁ f l₂ n properties, l = l₁ ++ f :: l₂ ∧ f.payload = .header n properties ∧
    bodyIsQueued d n 0 l₂ ≠ .ok false

theorem id_eq_deliver_iff {m : Method} :
    m.id = basicDeliverMethod ↔ ∃ fields, m = .basicDeliver fields := by
  cases m with
  | other id h =>
    refine iff_of_false ?_ (by simp)
    rintro rfl
    exact h (by simp [decodedMethods])
  | _ => simp [Method.id, connectionCloseMethod, channelCloseMethod, basicConsumeOkMethod,
      basicCancelMethod, basicReturnMethod, basicDeliverMethod, basicGetOkMethod]

theorem id_eq_cancel_iff {m : Method} :
    m.id = basicCancelMethod ↔ ∃ consumerTag, m = .basicCancel consumerTag := by
  cases m with
  | other id h =>
    refine iff_of_false ?_ (by simp)
    rintro rfl
    exact h (by simp [decodedMethods])
  | _ => simp [Method.id, connectionCloseMethod, channelCloseMethod, basicConsumeOkMethod,
      basicCancelMethod, basicReturnMethod, basicDeliverMethod, basicGetOkMethod]

theorem isMethodOnChannel_deliver_iff : isMethodOnChannel basicDeliverMethod d frame = true ↔
    frame.channel = d ∧ ∃ m, frame.payload = .method (.basicDeliver m) := by
  unfold isMethodOnChannel
  cases frame.payload <;> simp [id_eq_deliver_iff]

/-- `DELIVER_OR_CANCEL` -/
theorem isExpected_deliverOrCancel_iff {channels : List UInt16} :
    isExpectedMethodOnChannel channels [basicDeliverMethod, basicCancelMethod] frame = true ↔
      frame.channel ∈ channels ∧ ((∃ m, frame.payload = .method (.basicDeliver m)) ∨
        ∃ consumerTag, frame.payload = .method (.basicCancel consumerTag)) := by
  unfold isExpectedMethodOnChannel
  cases frame.payload <;> simp [id_eq_deliver_iff, id_eq_cancel_iff]

theorem eq_of_checkForQueuedMessageOnChannel_eq_error {l : List Frame} {e : Thrown}
    (h : checkForQueuedMessageOnChannel d l = .error e) : e = .runtimeError "Protocol error" := by
  unfold checkForQueuedMessageOnChannel at h
  split at h
  · cases h
  split at h
  · cases h
  split at h
  · exact eq_of_bodyIsQueued_eq_error h
  · exact (Except.error.inj h).symm

/-- What there is when a message is found: the first `basic.deliver`, and the header behind it. -/
theorem exists_of_checkForQueuedMessageOnChannel {l : List Frame}
    (h : checkForQueuedMessageOnChannel d l = .ok true) :
    ∃ l₁ f g l₂ m n properties, l.filter (isOnChannel d) = l₁ ++ f :: g :: l₂ ∧
      (∀ f ∈ l₁, isMethodOnChannel basicDeliverMethod d f = false) ∧
      f.payload = .method (.basicDeliver m) ∧ g.payload = .header n properties ∧
      bodyIsQueued d n 0 l₂ = .ok true := by
  unfold checkForQueuedMessageOnChannel at h
  split at h
  · cases h
  rename_i f frames hdeliver
  split at h
  · cases h
  rename_i g rest hheader
  split at h
  swap
  · cases h
  rename_i n properties hg
  obtain ⟨hf, l₁, rfl, hl₁⟩ := exists_of_dropWhile_not hdeliver
  obtain ⟨hon, l₂, rfl, hl₂⟩ := exists_of_dropWhile_not hheader
  obtain ⟨honf, m, hm⟩ := isMethodOnChannel_deliver_iff.mp hf
  refine ⟨l₁.filter (isOnChannel d), f, g, rest.filter (isOnChannel d), m, n, properties, ?_,
    fun f hf => hl₁ f (List.mem_of_mem_filter hf), hm, hg, by rwa [bodyIsQueued_filter]⟩
  have hnone : l₂.filter (isOnChannel d) = [] := by simpa using hl₂
  rw [List.filter_append, List.filter_cons_of_pos (isOnChannel_iff.mpr honf),
    List.filter_append, hnone, List.nil_append, List.filter_cons_of_pos hon]

section Queued

variable {fromBroker : List UInt16 → Bool → Call (Option Frame)} {timed : Bool}
  {q : List Frame} {n fuel : ℕ} {received : Bytes}

/-- The first frame of the channel is taken, unless it closes the channel. -/
theorem getNextFrameOnChannel_queued (h : s.queued d = frame :: q) :
    Ends (getNextFrameOnChannel fromBroker d timed) s
      (fun r t => r = some frame ∧ t = s.dequeue (isOnChannel d))
      (fun e t => e.Plain ∧ Confined d s t) := by
  have hfind : s.frameQueue.find? (isOnChannel d) = some frame :=
    find?_eq_some_iff_filter.mpr ⟨q, h⟩
  have hconfined : Confined d s (s.dequeue (isOnChannel d)) :=
    confined_dequeue_isOnChannel
  simp only [getNextFrameOnChannel, ends_bind, ends_get, hfind, ends_set]
  split
  · simp only [ends_bind, ends_throwing]
    refine finishCloseChannel_confined.mono (fun _ t ht => ?_) fun e t ht => ?_
    · exact ⟨plain_thrown (by simp), hconfined.trans ht⟩
    · exact ⟨ht.1, hconfined.trans ht.2⟩
  · exact ⟨rfl, rfl⟩

theorem readBody_confined (h : bodyIsQueued d n received.length (s.queued d) ≠ .ok false)
    (hfuel : (s.queued d).length < fuel) :
    Ends (readBody fromBroker d n fuel received) s (fun _ t => Confined d s t)
      (fun e t => e.Plain ∧ Confined d s t) := by
  induction fuel generalizing received s with
  | zero => cases hfuel
  | succ fuel ih =>
    rw [readBody]
    split_ifs with hlt
    swap
    · exact .refl
    cases hq : s.queued d with
    | nil => simp [hq, bodyIsQueued, hlt] at h
    | cons frame q =>
      have hon : isOnChannel d frame := List.of_mem_filter (hq ▸ List.mem_cons_self)
      have hconfined : Confined d s (s.dequeue (isOnChannel d)) :=
        confined_dequeue_isOnChannel
      have hrest : (s.dequeue (isOnChannel d)).queued d = q := by rw [queued_dequeue, hq]; rfl
      simp only [ends_bind]
      refine (getNextFrameOnChannel_queued hq).mono ?_ fun _ _ he => he
      rintro _ _ ⟨rfl, rfl⟩
      dsimp only
      split
      · rename_i fragment hp
        split_ifs
        · rw [hq, bodyIsQueued, if_neg hlt.not_ge, if_pos hon, hp] at h
          refine (ih ?_ ?_).mono (fun _ _ ht => hconfined.trans ht)
            fun _ _ he => ⟨he.1, hconfined.trans he.2⟩
          · rwa [hrest, List.length_append]
          · rw [hrest]
            rw [hq, List.length_cons] at hfuel
            exact Nat.lt_of_succ_lt_succ hfuel
        · exact ⟨⟨by simp, by simp⟩, hconfined⟩
      · exact ⟨plain_thrown (by simp), hconfined⟩

theorem readContent_confined (h : Complete d (s.queued d)) :
    Ends (readContent fromBroker d) s (fun _ t => Confined d s t)
      (fun e t => e.Plain ∧ Confined d s t) := by
  have hconfined : Confined d s (s.dequeue (isOnChannel d)) :=
    confined_dequeue_isOnChannel
  -- The first frame may not be the header that is there, but then there is one more header.
  obtain ⟨first, q, hq, hrest⟩ : ∃ first q, s.queued d = first :: q ∧
      ∀ k properties, first.payload = .header k properties → bodyIsQueued d k 0 q ≠ .ok false := by
    obtain ⟨l₁, g, l₂, k, properties, hsplit, hg, hbody⟩ := h
    cases l₁ with
    | nil =>
      refine ⟨g, l₂, hsplit, fun k' properties' hg' => ?_⟩
      obtain ⟨rfl, -⟩ := Payload.header.inj (hg.symm.trans hg')
      exact hbody
    | cons f l₁ =>
      have hmem : g ∈ s.queued d := by simp [hsplit]
      exact ⟨f, l₁ ++ g :: l₂, hsplit, fun _ _ _ =>
        bodyIsQueued_append_ne (List.of_mem_filter hmem) (by simp [hg])⟩
  simp only [readContent, ends_bind]
  refine (getNextFrameOnChannel_queued hq).mono ?_ fun _ _ he => he
  rintro _ _ ⟨rfl, rfl⟩
  dsimp only
  split
  · rename_i k properties hp
    simp only [ends_bind, ends_get]
    split_ifs
    · simp only [ends_bind, ends_pure]
      have hqueued : (s.dequeue (isOnChannel d)).queued d = q := by rw [queued_dequeue, hq]; rfl
      refine (readBody_confined (by rw [hqueued]; exact hrest k properties hp) ?_).mono
        (fun _ _ ht => hconfined.trans ht) fun _ _ he => ⟨he.1, hconfined.trans he.2⟩
      exact Nat.lt_succ_of_le ((List.length_filter_le ..).trans (Nat.le_add_right ..))
    · exact ⟨⟨by simp, by simp⟩, hconfined⟩
  · exact ⟨plain_thrown (by simp), hconfined⟩

theorem consumeMessageOnChannelInner_confined
    (h : checkForQueuedMessageOnChannel d s.frameQueue = .ok true) :
    Ends (consumeMessageOnChannelInner fromBroker [d] timed) s
      (fun r t => (∃ e, r = some e ∧ e.deliveryChannel = d) ∧ Confined d s t)
      (fun e t => e.Plain ∧ Confined d s t) := by
  obtain ⟨l₁, f, g, l₂, m, k, properties, hq, hl₁, hf, hg, hbody⟩ :=
    exists_of_checkForQueuedMessageOnChannel h
  let p := isExpectedMethodOnChannel [d] [basicDeliverMethod, basicCancelMethod]
  have hp : ∀ frame, p frame = true ↔ _ := fun frame => isExpected_deliverOrCancel_iff
  have hmem : ∀ frame ∈ l₁ ++ f :: g :: l₂, frame.channel = d := fun frame hframe =>
    isOnChannel_iff.mp (List.of_mem_filter (hq ▸ hframe))
  have hpf : p f := (hp f).mpr ⟨by simp [hmem], .inl ⟨m, hf⟩⟩
  have hfmem : f ∈ s.frameQueue := List.mem_of_mem_filter (p := isOnChannel d) (by simp [hq])
  obtain ⟨found, hfind⟩ := Option.isSome_iff_exists.mp (List.find?_isSome.mpr ⟨f, hfmem, hpf⟩)
  have hfound := (hp found).mp (List.find?_some hfind)
  have hchannel : found.channel = d := by simpa using hfound.1
  have hconfined : Confined d s (s.dequeue p) :=
    confined_dequeue fun f hf => by simpa using ((hp f).mp (List.find?_some hf)).1
  have hfind' : s.frameQueue.find?
      (isExpectedMethodOnChannel [d] [basicDeliverMethod, basicCancelMethod]) = some found := hfind
  simp only [consumeMessageOnChannelInner, getMethodOnChannel, ends_bind, ends_get, hfind',
    ends_set, ends_pure]
  rcases hfound.2 with ⟨m', hdeliver⟩ | ⟨consumerTag, hcancel⟩
  · have hon := (filter_eraseP (p := isOnChannel d) hfind).1 (isOnChannel_iff.mpr hchannel)
    have hnone : ∀ frame ∈ l₁, ¬ p frame := by
      intro frame hframe hpos
      obtain ⟨first, hfirst⟩ := Option.isSome_iff_exists.mp
        (List.find?_isSome.mpr ⟨frame, hframe, hpos⟩)
      have hsame := hon.1
      rw [hq, List.find?_append, hfirst, Option.some_or] at hsame
      obtain rfl := Option.some.inj hsame
      have hnot := hl₁ first (List.mem_of_find?_eq_some hfirst)
      exact absurd (isMethodOnChannel_deliver_iff.mpr ⟨hchannel, m', hdeliver⟩) (by simp [hnot])
    have hcomplete : Complete d ((s.dequeue p).queued d) := by
      refine ⟨l₁, g, l₂, k, properties, ?_, hg, by simp [hbody]⟩
      change (s.frameQueue.eraseP p).filter (isOnChannel d) = _
      rw [hon.2, hq, List.eraseP_append_right _ hnone, List.eraseP_cons_of_pos hpf]
    simp only [hdeliver, ends_bind, ends_pure, hchannel]
    exact (readContent_confined hcomplete).mono
      (fun _ _ ht => ⟨⟨_, rfl, rfl⟩, hconfined.trans ht⟩) fun _ _ he => ⟨he.1, hconfined.trans he.2⟩
  · simp only [hcancel, ends_bind, ends_throwing, hchannel]
    refine removeConsumer_confined.mono (fun _ t ht => ?_)
      fun _ _ he => ⟨he.1, hconfined.trans he.2⟩
    refine returnChannel_confined.mono (fun _ u hu => ?_) fun _ _ he => ⟨he.1, ?_⟩
    · exact ⟨plain_thrown (by simp), (hconfined.trans ht).trans hu⟩
    · exact (hconfined.trans ht).trans he.2

/-- Whatever is in the queue, and wherever frames that are not in it would come from: to add a
frame, and to assemble the message that is complete with it, takes nothing from the connection
and touches no other channel, whether the call returns or throws. It never has to wait, and what
it throws is not the `logic_error` about a message that is not there. (A cancellation or a
closing method in front of the message can still make it throw something else.) -/
theorem addToFrameQueue_confined :
    Ends (addToFrameQueue fromBroker frame) s (fun _ t => Confined frame.channel s t)
      (fun e t => e.Plain ∧ Confined frame.channel s t) := by
  have hconfined : Confined frame.channel s (s.enqueue frame) := confined_enqueue rfl
  simp only [addToFrameQueue, ends_bind, ends_modify, ends_get]
  cases hcheck : checkForQueuedMessageOnChannel frame.channel (s.enqueue frame).frameQueue with
  | error e =>
    obtain rfl := eq_of_checkForQueuedMessageOnChannel_eq_error hcheck
    exact ⟨plain_thrown (by simp), hconfined⟩
  | ok found =>
    cases found with
    | false => exact hconfined
    | true =>
      simp only [ends_bind]
      refine (consumeMessageOnChannelInner_confined hcheck).mono ?_
        fun _ _ he => ⟨he.1, hconfined.trans he.2⟩
      rintro _ t ⟨⟨e, rfl, he⟩, ht⟩
      exact (hconfined.trans ht).trans (confined_addDelivered he)

end Queued

end Vs17.Amqp
