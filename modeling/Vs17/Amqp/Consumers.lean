import Vs17.Amqp.Channel

/-! # What a consumer is given

Whatever else is done on the connection, no call gets the channel of a consumer, and the messages
that its program is given are those of the channel, in their order.
-/

namespace Vs17.Amqp

open Calls Transducers ChannelImpl Reading Runs

section Channels

variable {c d : UInt16} {ex expected : List UInt32} {got : List Envelope} {s t : ChannelImpl}
  {st : ChannelState} {i : ℕ} {id ok : UInt32} {tag : Bytes}

theorem channelAt_keeps : Ends (channelAt d) s
    (fun st t => t = s ∧ s.channels[d.toNat]? = some st) (fun _ t => t = s) := by
  simp only [channelAt, ends_bind, ends_get]
  cases h : s.channels[d.toNat]? with
  | none => exact rfl
  | some st => exact ⟨rfl, rfl⟩

theorem checkIsConnected_keeps : Ends checkIsConnected s (fun _ t => t = s) (fun _ t => t = s) := by
  simp only [checkIsConnected, ends_bind, ends_get]
  split_ifs <;> rfl

theorem getConsumerChannel_keeps : Ends (getConsumerChannel tag) s
    (fun channel t => t = s ∧ s.consumerChannelMap[tag]? = some channel) (fun _ t => t = s) := by
  simp only [getConsumerChannel, ends_bind, ends_get]
  cases h : s.consumerChannelMap[tag]? with
  | none => exact rfl
  | some channel => exact ⟨rfl, rfl⟩

/-- A channel in another state is another channel. -/
theorem Holding.ofNat_ne (h : Holding c ex got .idle [] [] s) (hi : s.channels[i]? = some st)
    (hst : st ≠ .csUsed) : UInt16.ofNat i ≠ c := by
  rintro rfl
  obtain ⟨hlt, -⟩ := List.getElem?_eq_some_iff.mp hi
  have hstate := h.state
  rw [UInt16.toNat_ofNat_of_lt' (hlt.trans_le h.width), hi] at hstate
  exact hst (Option.some.inj hstate)

theorem getElem?_of_idxOf? (h : s.channels.idxOf? st = some i) : s.channels[i]? = some st := by
  obtain ⟨hlt, heq, -⟩ := List.idxOf?_eq_some_iff.mp h
  rw [List.getElem?_eq_getElem hlt, heq]

theorem getNextChannelId_holding (h : Holding c ex got .idle [] [] s) :
    Ends getNextChannelId s (fun d t => Holding c ex got .idle [] [] t ∧ d ≠ c)
      (fun _ t => Holding c ex got .idle [] [] t) := by
  simp only [getNextChannelId, ends_bind, ends_get]
  cases hidx : s.channels.idxOf? .csClosed with
  | some i => exact ⟨h, h.ofNat_ne (getElem?_of_idxOf? hidx) (by simp)⟩
  | none =>
    have hmax : (if s.channelMax = 0 then 65535 else s.channelMax.toNat) ≤ 65535 := by
      have hlt := s.channelMax.toNat_lt
      split_ifs <;> omega
    generalize (if s.channelMax = 0 then 65535 else s.channelMax.toNat) = max at hmax ⊢
    dsimp only
    split_ifs with hfull
    · exact h
    · have hlt : c.toNat < s.channels.length := (List.getElem?_eq_some_iff.mp h.state).1
      simp only [ends_bind, ends_set, ends_pure]
      refine ⟨h.congr rfl rfl rfl rfl (List.getElem?_append_left hlt) ?_, ?_⟩
      · rw [List.length_append, List.length_singleton]
        omega
      · rintro rfl
        rw [UInt16.toNat_ofNat_of_lt' (by change _ < 65536; omega)] at hlt
        exact hlt.false

/-- A method is sent, on whatever channel. -/
theorem send_holding (h : Holding c ex got .idle [] [] s) :
    Ends (checkForError (s.sends.headD 0)) (s.note d id)
      (fun _ t => Holding c ex got .idle [] [] t) (fun _ t => Holding c ex got .idle [] [] t) := by
  have hnote : Holding c ex got .idle [] [] (s.note d id) := h.congr rfl rfl rfl rfl rfl h.width
  refine checkForError_keeps.mono ?_ ?_
  · rintro _ _ rfl
    exact hnote
  · rintro _ _ ⟨-, rfl⟩
    exact hnote

theorem doRpcOnChannel_other (h : Holding c [] got .idle [] [] s) (hd : c ≠ d) :
    Ends (doRpcOnChannel d id expected) s
      (fun _ t => Holding c [] got .idle [] [] t) (fun _ t => Holding c [] got .idle [] [] t) := by
  simp only [doRpcOnChannel, ends_bind, ends_sendMethod]
  refine (send_holding h).mono (fun _ t ht => ?_) fun _ _ he => he
  refine (getMethodOnChannel_other ht (by simpa using hd)).mono ?_ fun _ _ he => he
  rintro (_ | frame) u ⟨hu, -⟩
  · exact hu
  · exact hu

theorem createNewChannel_holding (h : Holding c [] got .idle [] [] s) :
    Ends createNewChannel s (fun d t => Holding c [] got .idle [] [] t ∧ d ≠ c)
      (fun _ t => Holding c [] got .idle [] [] t) := by
  simp only [createNewChannel, ends_bind, ends_pure]
  refine (getNextChannelId_holding h).mono ?_ fun _ _ he => he
  rintro d t ⟨ht, hd⟩
  refine (doRpcOnChannel_other ht hd.symm).mono (fun _ u hu => ?_) fun _ _ he => he
  refine (doRpcOnChannel_other hu hd.symm).mono (fun _ v hv => ?_) fun _ _ he => he
  exact (ends_of_confined setChannel_confined hv hd.symm).mono (fun _ _ hw => ⟨hw, hd⟩)
    fun _ _ he => he

/-- A channel that is in use is not given to another call. -/
theorem getChannel_holding (h : Holding c [] got .idle [] [] s) :
    Ends getChannel s (fun d t => Holding c [] got .idle [] [] t ∧ d ≠ c)
      (fun _ t => Holding c [] got .idle [] [] t) := by
  have huse : ∀ {d t}, Holding c [] got .idle [] [] t → d ≠ c →
      Ends (setChannel d .csUsed) t (fun _ u => Holding c [] got .idle [] [] u ∧ d ≠ c)
        (fun _ u => Holding c [] got .idle [] [] u) := fun ht hd =>
    (ends_of_confined setChannel_confined ht hd.symm).mono (fun _ _ hu => ⟨hu, hd⟩)
      fun _ _ he => he
  simp only [getChannel, ends_bind, ends_get]
  refine channelAt_keeps.mono ?_ (by rintro _ _ rfl; exact h)
  rintro st _ ⟨rfl, hst⟩
  split_ifs with hopen
  · simp only [ends_bind, ends_pure]
    refine huse h fun hc => ?_
    rw [hc, h.state, hopen] at hst
    cases hst
  · split
    · rename_i i hidx
      simp only [ends_bind, ends_pure]
      exact huse h (h.ofNat_ne (getElem?_of_idxOf? hidx) (by simp))
    · simp only [ends_bind, ends_pure]
      exact (createNewChannel_holding h).mono (fun d t ht => huse ht.1 ht.2) fun _ _ he => he

theorem returnChannel_other (h : Holding c ex got .idle [] [] s) (hd : c ≠ d) :
    Ends (returnChannel d) s (fun _ t => Holding c ex got .idle [] [] t)
      (fun _ t => Holding c ex got .idle [] [] t) :=
  ends_of_confined returnChannel_confined h hd

theorem doRpcOnChannel_answer (h : Holding c [ok] got .idle [] [] s)
    (hok : ok ≠ basicDeliverMethod) :
    Ends (doRpcOnChannel c id [ok]) s
      (fun _ t => Holding c [ok] got .idle [] [] t)
      (fun _ t => Holding c [ok] got .idle [] [] t) := by
  simp only [doRpcOnChannel, ends_bind, ends_sendMethod]
  refine (send_holding h).mono (fun _ t ht => ?_) fun _ _ he => he
  refine (getMethodOnChannel_answer ht (by simpa using hok.symm)).mono ?_ fun _ _ he => he
  rintro (_ | frame) u hu
  · exact hu
  · exact hu

end Channels

section Apis

variable {c : UInt16} {got : List Envelope} {s : ChannelImpl} {tag : Bytes} {channel : UInt16}
  {id ok : UInt32} {timed : Bool} {tags : List Bytes}

/-- What every call for another channel does. -/
def Leaves (c : UInt16) (got : List Envelope) {α : Type} (x : Call α) (s : ChannelImpl) : Prop :=
  Ends x s (fun _ t => Holding c [] got .idle [] [] t) (fun _ t => Holding c [] got .idle [] [] t)

/-- The connection is looked at first. -/
theorem leaves_checkIsConnected {α : Type} {x : Call α} (h : Holding c [] got .idle [] [] s)
    (hx : Leaves c got x s) : Leaves c got (checkIsConnected >>= fun _ => x) s := by
  rw [Leaves, ends_bind]
  refine checkIsConnected_keeps.mono ?_ ?_
  · rintro _ _ rfl
    exact hx
  · rintro _ _ rfl
    exact h

theorem request_leaves (h : Holding c [] got .idle [] [] s) : Leaves c got (request id ok) s := by
  refine leaves_checkIsConnected h ?_
  simp only [Leaves, doRpc, ends_bind, ends_pure]
  refine (getChannel_holding h).mono ?_ fun _ _ he => he
  rintro d t ⟨ht, hd⟩
  refine (doRpcOnChannel_other ht hd.symm).mono (fun _ u hu => ?_) fun _ _ he => he
  exact returnChannel_other hu hd.symm

/-- `BasicAck` and `BasicReject`, with the method that they send. -/
theorem acknowledge_leaves (h : Holding c [] got .idle [] [] s) :
    Leaves c got (do
      checkIsConnected
      if ← isChannelOpen channel then checkForError (← sendMethod channel id)
      else throwing deliveredChannelClosed) s := by
  refine leaves_checkIsConnected h ?_
  simp only [Leaves, isChannelOpen, ends_bind, ends_pure]
  refine channelAt_keeps.mono ?_ ?_
  · rintro st _ ⟨rfl, -⟩
    split_ifs
    · simp only [ends_bind, ends_sendMethod]
      exact send_holding h
    · exact h
  · rintro _ _ rfl
    exact h

theorem basicPublish_leaves (h : Holding c [] got .idle [] [] s) :
    Leaves c got basicPublish s := by
  refine leaves_checkIsConnected h ?_
  simp only [Leaves, createMessageReturnedException, ends_bind, ends_sendMethod]
  refine (getChannel_holding h).mono ?_ fun _ _ he => he
  rintro d t ⟨ht, hd⟩
  have hmem : c ∉ [d] := by simpa using hd.symm
  refine (send_holding ht).mono (fun _ u hu => ?_) fun _ _ he => he
  refine (getMethodOnChannel_other hu hmem).mono ?_ fun _ _ he => he
  rintro (_ | response) v ⟨hv, -⟩
  · exact hv
  dsimp only
  split
  · simp only [ends_bind, ends_pure, ends_throwing]
    refine (readContent_other hv hd.symm).mono (fun _ v hv => ?_) fun _ _ he => he
    refine (getMethodOnChannel_other hv hmem).mono ?_ fun _ _ he => he
    rintro _ v ⟨hv, -⟩
    exact returnChannel_other hv hd.symm
  · exact returnChannel_other hv hd.symm

theorem basicGet_leaves (h : Holding c [] got .idle [] [] s) :
    Ends basicGet s (fun res t => Holding c [] got .idle [] [] t ∧
        ∀ e, res = some e → e.deliveryChannel ≠ c)
      (fun _ t => Holding c [] got .idle [] [] t) := by
  simp only [basicGet, ends_bind]
  refine checkIsConnected_keeps.mono ?_ (by rintro _ _ rfl; exact h)
  rintro _ _ rfl
  refine (getChannel_holding h).mono ?_ fun _ _ he => he
  rintro d t ⟨ht, hd⟩
  refine (doRpcOnChannel_other ht hd.symm).mono (fun response u hu => ?_) fun _ _ he => he
  split
  · simp only [ends_bind, ends_pure]
    refine (readContent_other hu hd.symm).mono (fun _ v hv => ?_) fun _ _ he => he
    refine (returnChannel_other hv hd.symm).mono (fun _ w hw => ⟨hw, ?_⟩) fun _ _ he => he
    rintro _ ⟨⟩
    exact hd
  · simp only [ends_bind, ends_pure]
    exact (returnChannel_other hu hd.symm).mono (fun _ w hw => ⟨hw, by simp⟩) fun _ _ he => he

theorem basicConsume_leaves (h : Holding c [] got .idle [] [] s) :
    Leaves c got basicConsume s := by
  refine leaves_checkIsConnected h ?_
  simp only [Leaves, ends_bind]
  refine (getChannel_holding h).mono ?_ fun _ _ he => he
  rintro d t ⟨ht, hd⟩
  refine (doRpcOnChannel_other ht hd.symm).mono (fun _ u hu => ?_) fun _ _ he => he
  refine (doRpcOnChannel_other hu hd.symm).mono (fun response v hv => ?_) fun _ _ he => he
  split
  · exact hv.congr rfl rfl rfl rfl rfl hv.width
  · exact hv

/-- `BasicQos` and `BasicRecover`, with the method and its answer, on another channel. -/
theorem ask_leaves (h : Holding c [] got .idle [] [] s)
    (htag : s.consumerChannelMap[tag]? ≠ some c) :
    Leaves c got (do
      checkIsConnected
      let channel ← getConsumerChannel tag
      let _ ← doRpcOnChannel channel id [ok]) s := by
  refine leaves_checkIsConnected h ?_
  simp only [Leaves, ends_bind, ends_pure]
  refine getConsumerChannel_keeps.mono ?_ (by rintro _ _ rfl; exact h)
  rintro d _ ⟨rfl, hd⟩
  refine doRpcOnChannel_other h ?_
  rintro rfl
  exact htag hd

/-- The same on the channel itself. -/
theorem ask_answer (h : Holding c [ok] got .idle [] [] s)
    (htag : s.consumerChannelMap[tag]? = some c) (hok : ok ≠ basicDeliverMethod) :
    Ends (do
      checkIsConnected
      let channel ← getConsumerChannel tag
      let _ ← doRpcOnChannel channel id [ok]) s
      (fun _ t => Holding c [ok] got .idle [] [] t)
      (fun _ t => Holding c [ok] got .idle [] [] t) := by
  simp only [ends_bind, ends_pure]
  refine checkIsConnected_keeps.mono ?_ (by rintro _ _ rfl; exact h)
  rintro _ _ rfl
  refine getConsumerChannel_keeps.mono ?_ (by rintro _ _ rfl; exact h)
  rintro d _ ⟨rfl, hd⟩
  obtain rfl := Option.some.inj (htag.symm.trans hd)
  exact doRpcOnChannel_answer h hok

theorem basicCancel_leaves (h : Holding c [] got .idle [] [] s)
    (htag : s.consumerChannelMap[tag]? ≠ some c) : Leaves c got (basicCancel tag) s := by
  refine leaves_checkIsConnected h ?_
  simp only [Leaves, ends_bind]
  refine getConsumerChannel_keeps.mono ?_ (by rintro _ _ rfl; exact h)
  rintro d _ ⟨rfl, hd⟩
  have hne : c ≠ d := by
    rintro rfl
    exact htag hd
  refine (doRpcOnChannel_other h hne).mono (fun _ t ht => ?_) fun _ _ he => he
  refine (ends_of_confined removeConsumer_confined ht hne).mono (fun _ u hu => ?_) fun _ _ he => he
  exact returnChannel_other hu hne

theorem mapM_getConsumerChannel : Ends (tags.mapM getConsumerChannel) s
    (fun channels t => t = s ∧
      (c ∈ channels ↔ ∃ tag ∈ tags, s.consumerChannelMap[tag]? = some c))
    (fun _ t => t = s) := by
  induction tags with
  | nil => simp
  | cons tag tags ih =>
    simp only [List.mapM_cons, ends_bind, ends_pure]
    refine getConsumerChannel_keeps.mono ?_ fun _ _ he => he
    rintro channel _ ⟨rfl, htag⟩
    refine ih.mono ?_ fun _ _ he => he
    rintro channels _ ⟨rfl, hmem⟩
    refine ⟨rfl, ?_⟩
    rw [List.mem_cons, hmem, List.exists_mem_cons_iff, htag, Option.some_inj, eq_comm]

/-- The messages of `c` are in order, and none is in progress. -/
structure InOrder (c : UInt16) (got : List Envelope) (s : ChannelImpl) : Prop where
  assembled : ∃ done, contentOn c s.read = done ++ s.queued c ∧
    run (next c) .idle done = some (.idle, got ++ s.delivered c)
  legal : (run (next c) .idle (contentOn c (s.read ++ s.upcoming))).isSome
  state : s.channels[c.toNat]? = some .csUsed
  nonzero : c ≠ 0
  width : s.channels.length ≤ 65536

theorem InOrder.holding {ex : List UInt32} (h : InOrder c got s)
    (ha : ∀ f ∈ s.upcoming, f.channel = c →
      f.isContent = true ∨ isExpectedMethodOnChannel [c] ex f = true) :
    Holding c ex got .idle [] [] s where
  assembled := by simpa using h.assembled
  legal := h.legal
  answers := ha
  state := h.state
  nonzero := h.nonzero
  width := h.width

theorem Holding.inOrder {ex : List UInt32} (h : Holding c ex got .idle [] [] s) :
    InOrder c got s where
  assembled := by simpa using h.assembled
  legal := h.legal
  state := h.state
  nonzero := h.nonzero
  width := h.width

/-- A call for the messages of the channel gets the next one. -/
theorem call_of_asksFor {api : Api} (h : Holding c [] got .idle [] [] s) (ha : api.AsksFor c s) :
    Ends api.call s
      (fun res t => InOrder c (got ++ res.toList.filter (·.deliveryChannel = c)) t)
      (fun _ _ => True) := by
  have hconsume : ∀ {channels timed}, c ∈ channels → Ends (consumeMessageOnChannel channels timed) s
      (fun res t => InOrder c (got ++ res.toList.filter (·.deliveryChannel = c)) t)
      (fun _ _ => True) := fun hc =>
    (consumeMessageOnChannel_holding h hc).mono (fun _ _ ht => ht.inOrder) fun _ _ _ => trivial
  cases api with
  | basicConsumeMessage tags timed =>
    simp only [Api.call, basicConsumeMessage, ends_bind]
    refine checkIsConnected_keeps.mono ?_ fun _ _ _ => trivial
    rintro _ _ rfl
    refine (mapM_getConsumerChannel (c := c)).mono ?_ fun _ _ _ => trivial
    rintro channels _ ⟨rfl, hmem⟩
    exact hconsume (hmem.mpr ha)
  | basicConsumeMessageOnAll timed =>
    simp only [Api.call, basicConsumeMessageOnAll, getAllConsumerChannels, ends_bind, ends_get,
      ends_pure]
    refine checkIsConnected_keeps.mono ?_ fun _ _ _ => trivial
    rintro _ _ rfl
    split
    · trivial
    · exact hconsume ha
  | _ => exact ha.elim

theorem call_of_not_asksFor {api : Api} (h : InOrder c got s)
    (hawaits : ∀ f ∈ s.upcoming, f.channel = c →
      f.isContent = true ∨ isExpectedMethodOnChannel [c] (api.awaits c s) f = true)
    (hcancel : ∀ tag, api = .basicCancel tag → s.consumerChannelMap[tag]? ≠ some c)
    (ha : ¬ api.AsksFor c s) :
    Ends api.call s
      (fun res t => InOrder c got t ∧ ∀ e, res = some e → e.deliveryChannel ≠ c)
      (fun _ t => InOrder c got t) := by
  have hholding := h.holding hawaits
  have hnone : ∀ {x : Call Unit}, Leaves c got x s → Ends (do x; return none) s
      (fun res t => InOrder c got t ∧ ∀ e : Envelope, res = some e → e.deliveryChannel ≠ c)
      (fun _ t => InOrder c got t) := by
    intro x hx
    simp only [ends_bind, ends_pure]
    exact Ends.mono hx (fun _ _ ht => ⟨ht.inOrder, by simp⟩) fun _ _ he => he.inOrder
  have hask : ∀ {tag id ok}, ok ≠ basicDeliverMethod →
      Holding c (if s.consumerChannelMap[tag]? = some c then [ok] else []) got .idle [] [] s →
      Ends (do
          (do
            checkIsConnected
            let channel ← getConsumerChannel tag
            let _ ← doRpcOnChannel channel id [ok])
          return none) s
        (fun res t => InOrder c got t ∧ ∀ e : Envelope, res = some e → e.deliveryChannel ≠ c)
        (fun _ t => InOrder c got t) := by
    intro tag id ok hok hh
    split_ifs at hh with htag
    · rw [ends_bind]
      exact (ask_answer hh htag hok).mono (fun _ _ ht => ⟨ht.inOrder, by simp⟩)
        fun _ _ he => he.inOrder
    · exact hnone (ask_leaves hh htag)
  have hconsume : ∀ {channels timed}, Holding c [] got .idle [] [] s → c ∉ channels →
      Ends (consumeMessageOnChannel channels timed) s
        (fun res t => InOrder c got t ∧ ∀ e, res = some e → e.deliveryChannel ≠ c)
        (fun _ t => InOrder c got t) := fun hh hc =>
    (consumeMessageOnChannel_other hh hc).mono
      (fun _ _ ht => ⟨ht.1.inOrder, fun e he heq => hc (heq ▸ ht.2 e he)⟩) fun _ _ he => he.inOrder
  cases api with
  | request id ok => exact hnone (request_leaves hholding)
  | basicAck channel => exact hnone (acknowledge_leaves hholding)
  | basicReject channel => exact hnone (acknowledge_leaves hholding)
  | basicPublish => exact hnone (basicPublish_leaves hholding)
  | basicGet =>
    exact (basicGet_leaves hholding).mono (fun _ _ ht => ⟨ht.1.inOrder, ht.2⟩)
      fun _ _ he => he.inOrder
  | basicRecover consumer => exact hask (by decide) hholding
  | basicConsume =>
    simp only [Api.call, ends_bind, ends_pure]
    exact Ends.mono (basicConsume_leaves hholding) (fun _ _ ht => ⟨ht.inOrder, by simp⟩)
      fun _ _ he => he.inOrder
  | basicQos consumerTag => exact hask (by decide) hholding
  | basicCancel consumerTag =>
    exact hnone (basicCancel_leaves hholding (hcancel consumerTag rfl))
  | basicConsumeMessage tags timed =>
    simp only [Api.call, basicConsumeMessage, ends_bind]
    refine checkIsConnected_keeps.mono ?_ (by rintro _ _ rfl; exact h)
    rintro _ _ rfl
    refine (mapM_getConsumerChannel (c := c)).mono ?_ (by rintro _ _ rfl; exact h)
    rintro channels _ ⟨rfl, hmem⟩
    exact hconsume hholding (mt hmem.mp ha)
  | basicConsumeMessageOnAll timed =>
    simp only [Api.call, basicConsumeMessageOnAll, getAllConsumerChannels, ends_bind, ends_get,
      ends_pure]
    refine checkIsConnected_keeps.mono ?_ (by rintro _ _ rfl; exact h)
    rintro _ _ rfl
    split
    · exact h
    · exact hconsume hholding ha

end Apis

section System

variable {c : UInt16} {w₀ w w' : System} {tr : List (System × Event)} {event : Event}

/-- The messages of `c` that its program has been given are those that came first. -/
def System.InOrder (c : UInt16) (w : System) : Prop :=
  Amqp.InOrder c (w.handed.filter (·.deliveryChannel = c)) w.client

theorem Fresh.inOrder (h : Fresh c w) : w.InOrder c where
  assembled := by
    have hhanded : w.handed.filter (·.deliveryChannel = c) = [] := by simpa using h.handed
    exact ⟨[], by rw [h.read, h.queued]; rfl, by rw [hhanded, h.delivered]; rfl⟩
  legal := by
    rw [contentOn_append, h.read, h.upcoming]
    rfl
  state := h.state
  nonzero := h.nonzero
  width := h.width

theorem System.InOrder.step (h : w.InOrder c) (hs : w.Step event w') (hp : Proper c w event) :
    w'.InOrder c := by
  cases hs with
  | arrive arrival => exact ⟨h.assembled, hp, h.state, h.nonzero, h.width⟩
  | answer statuses => exact ⟨h.assembled, h.legal, h.state, h.nonzero, h.width⟩
  | @returned api res t hcall =>
    obtain ⟨hawaits, hcancel, -⟩ := hp
    change Amqp.InOrder c ((w.handed ++ res.toList).filter (·.deliveryChannel = c)) t
    rw [List.filter_append]
    by_cases ha : api.AsksFor c w.client
    · have hawaits' : ∀ f ∈ w.client.upcoming, f.channel = c →
          f.isContent = true ∨ isExpectedMethodOnChannel [c] [] f = true := by
        cases api <;> first | exact ha.elim | exact hawaits
      exact (call_of_asksFor (Amqp.InOrder.holding h hawaits') ha).of_ok hcall
    · obtain ⟨ht, hres⟩ := (call_of_not_asksFor h hawaits hcancel ha).of_ok hcall
      have hnone : res.toList.filter (·.deliveryChannel = c) = [] := by
        simpa using hres
      rwa [hnone, List.append_nil]
  | @thrown api e t hcall =>
    obtain ⟨hawaits, hcancel, hthrown⟩ := hp
    have ha : ¬ api.AsksFor c w.client := fun ha => hthrown ha e t hcall
    exact (call_of_not_asksFor h hawaits hcancel ha).of_error hcall

theorem inOrder_of_run (h : Run System.Step w₀ tr w) (hfresh : Fresh c w₀)
    (hproper : AllSteps (Proper c) tr) : w.InOrder c :=
  ((h.restrict hproper).invariant hfresh.inOrder fun _ _ _ hi hs => hi.step hs.1 hs.2).2

/-- A message that is there is handed out without a look at the connection. -/
theorem consumeMessageOnChannel_next {s : ChannelImpl} {r : Reading} {e : Envelope}
    {rest l : List Envelope} {timed : Bool}
    (hrun : run (next c) .idle (s.queued c) = some (r, rest))
    (hl : s.delivered c ++ rest = e :: l) :
    Ends (consumeMessageOnChannel [c] timed) s
      (fun res t => res = some e ∧ t.read = s.read ∧ t.coming = s.coming) (fun _ _ => False) := by
  have hfilter : (s.deliveredMessages.filter fun e => e.deliveryChannel ∈ [c]) = s.delivered c := by
    simp [delivered]
  simp only [consumeMessageOnChannel, ends_bind, ends_get]
  cases hs : s.delivered c with
  | cons e' l' =>
    rw [hs, List.cons_append] at hl
    obtain ⟨rfl, -⟩ := List.cons.inj hl
    rw [Demux.find?_eq_some_iff_filter.mpr ⟨l', hfilter.trans hs⟩]
    exact ⟨rfl, rfl, rfl⟩
  | nil =>
    rw [hs, List.nil_append] at hl
    subst hl
    obtain ⟨rest, hstored⟩ := stored_of_run hrun
    have hnone : s.deliveredMessages.find? (fun e => e.deliveryChannel ∈ [c]) = none := by
      simpa [delivered] using hs
    rw [hnone]
    refine (consumeMessageOnChannelInner_stored hstored).mono ?_ fun _ _ he => he
    rintro _ t ⟨rfl, ht, -⟩
    exact ⟨rfl, ht.confined.read, ht.confined.coming⟩

/-- Whatever calls are made on the connection, in whatever order frames arrive: what has been read
of the channel of a consumer is the messages that its program has been given, those that are stored
for it, and the frames in the queue, each message once and in the order of the channel. While there
is one that is complete, a call for it returns the first without a look at the connection. -/
theorem run_delivery (h : Run System.Step w₀ tr w) (hfresh : Fresh c w₀)
    (hproper : AllSteps (Proper c) tr) :
    ∃ r rest, run (next c) .idle (contentOn c w.client.read) =
        some (r, w.handed.filter (·.deliveryChannel = c) ++ w.client.delivered c ++ rest) ∧
      run (next c) .idle (w.client.queued c) = some (r, rest) ∧
      ∀ e l tag timed, w.client.delivered c ++ rest = e :: l → w.client.isConnected = true →
        w.client.consumerChannelMap[tag]? = some c →
        Ends (Api.basicConsumeMessage [tag] timed).call w.client
          (fun res t => res = some e ∧ t.read = w.client.read ∧ t.coming = w.client.coming)
          (fun _ _ => False) := by
  have hinorder := inOrder_of_run h hfresh hproper
  obtain ⟨done, hread, hdone⟩ := hinorder.assembled
  have hlegal := hinorder.legal
  rw [contentOn_append] at hlegal
  obtain ⟨⟨r, out⟩, hrun⟩ := Option.isSome_iff_exists.mp (isSome_of_append hlegal)
  have hsplit := hrun
  rw [hread] at hsplit
  obtain ⟨r₁, out₁, rest, hdone', hqueued, rfl⟩ := run_append_eq_some.mp hsplit
  rw [hdone] at hdone'
  obtain ⟨rfl, rfl⟩ := Prod.mk.inj (Option.some.inj hdone')
  refine ⟨r, rest, hrun, hqueued, fun e l tag timed hl hconnected htag => ?_⟩
  simp only [Api.call, basicConsumeMessage, checkIsConnected, ends_bind, ends_get, hconnected,
    if_true, ends_pure, List.mapM_cons, List.mapM_nil, getConsumerChannel, htag]
  exact consumeMessageOnChannel_next hqueued hl

def greeting : Deliver := ⟨[1], 1, false, [], []⟩

/-- One consumer, on the first channel. -/
def consuming : System where
  client :=
    { ChannelImpl.create 0 with
      channels := [.csUsed, .csUsed]
      consumerChannelMap := Std.TreeMap.insertIfNew ∅ [1] 1 }
  handed := []

/-- The two frames of a message arrive, and the program asks for it. -/
theorem run_delivery_consuming : ∃ w : System, w.handed = [envelope 1 greeting ⟨[], []⟩] ∧
    ∃ r rest, run (next 1) .idle (contentOn 1 w.client.read) =
      some (r, w.handed.filter (·.deliveryChannel = 1) ++ w.client.delivered 1 ++ rest) := by
  let first : Frame := ⟨1, .method (.basicDeliver greeting)⟩
  let second : Frame := ⟨1, .header 0 []⟩
  let w₁ : System := ⟨consuming.client.arrive (.frame first false), []⟩
  let w₂ : System := ⟨w₁.client.arrive (.frame second false), []⟩
  let w₃ : System := ⟨{ consuming.client with read := [first, second] },
    [envelope 1 greeting ⟨[], []⟩]⟩
  have hfresh : Fresh 1 consuming :=
    ⟨by decide, rfl, by decide, rfl, rfl, rfl, rfl, by simp [consuming]⟩
  have hcall : (Api.basicConsumeMessage [[1]] true).call w₂.client =
      .ok (some (envelope 1 greeting ⟨[], []⟩)) w₃.client := rfl
  have h₁ : consuming.Step (.arrive (.frame first false)) w₁ := .arrive consuming _
  have h₂ : w₁.Step (.arrive (.frame second false)) w₂ := .arrive w₁ _
  have h₃ : w₂.Step (.call (.basicConsumeMessage [[1]] true)) w₃ := .returned w₂ _ hcall
  have hproper : AllSteps (Proper 1) ([] ++ [(consuming, .arrive (.frame first false))] ++
      [(w₁, .arrive (.frame second false))] ++
      [(w₂, .call (.basicConsumeMessage [[1]] true))]) := by
    refine allSteps_append.mpr ⟨allSteps_append.mpr ⟨allSteps_append.mpr ⟨by simp [AllSteps], rfl⟩,
      rfl⟩, ?_, by simp, fun _ e t h => ?_⟩
    · intro f hf _
      obtain rfl | rfl : f = first ∨ f = second := by
        simpa [w₂, w₁, upcoming, arrive, consuming, ChannelImpl.create] using hf
      · exact .inl rfl
      · exact .inl rfl
    · cases hcall.symm.trans h
  obtain ⟨r, rest, hdelivery, -⟩ :=
    run_delivery (((Run.start.next h₁).next h₂).next h₃) hfresh hproper
  exact ⟨w₃, rfl, r, rest, hdelivery⟩

end System

end Vs17.Amqp
