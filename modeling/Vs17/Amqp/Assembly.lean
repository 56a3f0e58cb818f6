import Vs17.Amqp.Queueing
import Vs17.Library.Transducers

/-! # The messages of one channel

What the frames of one channel say, when they come one after another: `basic.deliver`, a header
with the size of the body, and fragments until there are so many bytes. A message that is complete
in the queue is the one that is taken from it.
-/

namespace Vs17.Amqp

open Calls Demux Transducers ChannelImpl

def envelope (c : UInt16) (m : Deliver) (content : Message) : Envelope :=
  ⟨content, m.consumerTag, m.deliveryTag, m.exchange, m.redelivered, m.routingKey, c⟩

/-- Where the frames of a channel have got to. -/
inductive Reading
  | idle
  | header (m : Deliver)
  | body (m : Deliver) (properties : Bytes) (bodySize : ℕ) (received : Bytes)

namespace Reading

/-- A message is put out with its last frame. -/
def next (c : UInt16) : Reading → Frame → Option (Reading × List Envelope)
  | .idle, frame =>
    match frame.payload with
    | .method (.basicDeliver m) => some (.header m, [])
    | _ => none
  | .header m, frame =>
    match frame.payload with
    | .header n properties =>
      if n = 0 then some (.idle, [envelope c m ⟨[], properties⟩])
      else if n < 2 ^ 64 - 1 then some (.body m properties n [], [])
      else none
    | _ => none
  | .body m properties n received, frame =>
    match frame.payload with
    | .body fragment =>
      if received.length + fragment.length < n then
        some (.body m properties n (received ++ fragment), [])
      else if received.length + fragment.length = n then
        some (.idle, [envelope c m ⟨received ++ fragment, properties⟩])
      else none
    | _ => none

variable {c : UInt16} {frame : Frame} {r r' : Reading} {out : List Envelope} {m : Deliver}
  {properties received : Bytes} {n : ℕ} {e : Envelope} {l rest : List Frame}

theorem next_idle_iff : next c .idle frame = some (r, out) ↔
    ∃ m, frame.payload = .method (.basicDeliver m) ∧ r = .header m ∧ out = [] := by
  rw [next]
  split
  · rename_i m hm
    simp [hm, eq_comm]
  · rename_i hnot
    refine iff_of_false (by simp) ?_
    rintro ⟨m, hm, -⟩
    exact hnot m hm

theorem next_header_iff : next c (.header m) frame = some (r, out) ↔
    ∃ n properties, frame.payload = .header n properties ∧ n < 2 ^ 64 - 1 ∧
      (n = 0 ∧ r = .idle ∧ out = [envelope c m ⟨[], properties⟩] ∨
        0 < n ∧ r = .body m properties n [] ∧ out = []) := by
  rw [next]
  split
  · rename_i n properties hp
    simp only [hp, Payload.header.injEq]
    constructor
    · intro h
      split_ifs at h with hzero hlt
      · obtain ⟨rfl, rfl⟩ := Prod.mk.inj (Option.some.inj h)
        exact ⟨n, properties, ⟨rfl, rfl⟩, by omega, .inl ⟨hzero, rfl, rfl⟩⟩
      · obtain ⟨rfl, rfl⟩ := Prod.mk.inj (Option.some.inj h)
        exact ⟨n, properties, ⟨rfl, rfl⟩, hlt, .inr ⟨Nat.pos_of_ne_zero hzero, rfl, rfl⟩⟩
    · rintro ⟨_, _, ⟨rfl, rfl⟩, hlt, ⟨hzero, rfl, rfl⟩ | ⟨hpos, rfl, rfl⟩⟩
      · rw [if_pos hzero]
      · rw [if_neg hpos.ne', if_pos hlt]
  · rename_i hnot
    refine iff_of_false (by simp) ?_
    rintro ⟨n, properties, hp, -⟩
    exact hnot n properties hp

theorem next_body_iff : next c (.body m properties n received) frame = some (r, out) ↔
    ∃ fragment, frame.payload = .body fragment ∧
      (received.length + fragment.length < n ∧
          r = .body m properties n (received ++ fragment) ∧ out = [] ∨
        received.length + fragment.length = n ∧ r = .idle ∧
          out = [envelope c m ⟨received ++ fragment, properties⟩]) := by
  rw [next]
  split
  · rename_i fragment hp
    simp only [hp, Payload.body.injEq, exists_eq_left']
    split_ifs with hlt heq
    · simp [hlt, hlt.ne, eq_comm]
    · simp [heq, eq_comm]
    · simp [hlt, heq]
  · rename_i hnot
    refine iff_of_false (by simp) ?_
    rintro ⟨fragment, hp, -⟩
    exact hnot fragment hp

theorem deliveryChannel_of_next (h : next c r frame = some (r', out)) (he : e ∈ out) :
    e.deliveryChannel = c := by
  cases r with
  | idle =>
    obtain ⟨_, _, _, rfl⟩ := next_idle_iff.mp h
    cases he
  | header m =>
    obtain ⟨_, _, _, _, ⟨_, _, rfl⟩ | ⟨_, _, rfl⟩⟩ := next_header_iff.mp h
    · obtain rfl := List.mem_singleton.mp he
      rfl
    · cases he
  | body m properties n received =>
    obtain ⟨_, _, ⟨_, _, rfl⟩ | ⟨_, _, rfl⟩⟩ := next_body_iff.mp h
    · cases he
    · obtain rfl := List.mem_singleton.mp he
      rfl

theorem next_out (h : next c r frame = some (r', out)) :
    out = [] ∨ r' = .idle ∧ ∃ e, out = [e] := by
  cases r with
  | idle =>
    obtain ⟨_, _, _, hout⟩ := next_idle_iff.mp h
    exact .inl hout
  | header m =>
    obtain ⟨_, _, _, _, ⟨_, hr, hout⟩ | ⟨_, _, hout⟩⟩ := next_header_iff.mp h
    · exact .inr ⟨hr, _, hout⟩
    · exact .inl hout
  | body m properties n received =>
    obtain ⟨_, _, ⟨_, _, hout⟩ | ⟨_, hr, hout⟩⟩ := next_body_iff.mp h
    · exact .inl hout
    · exact .inr ⟨hr, _, hout⟩

/-- The message in progress is completed by frames at the beginning of the list. -/
inductive Stored (c : UInt16) : Reading → List Frame → Envelope → List Frame → Prop

  | last {r : Reading} {frame : Frame} {l : List Frame} {e : Envelope} :
      next c r frame = some (.idle, [e]) → Stored c r (frame :: l) e l

  | more {r r' : Reading} {frame : Frame} {l rest : List Frame} {e : Envelope} :
      next c r frame = some (r', []) → Stored c r' l e rest → Stored c r (frame :: l) e rest

theorem Stored.run (h : Stored c r l e rest) :
    ∃ l₁, l = l₁ ++ rest ∧ run (next c) r l₁ = some (.idle, [e]) := by
  induction h with
  | @last r frame l e hnext => exact ⟨[frame], rfl, by rw [run_singleton, hnext]⟩
  | @more r r' frame l rest e hnext _ ih =>
    obtain ⟨l₁, rfl, hrun⟩ := ih
    exact ⟨frame :: l₁, rfl, run_cons_eq_some.mpr ⟨r', [], [e], hnext, hrun, rfl⟩⟩

/-- What is put out first is stored. -/
theorem stored_of_run (h : Transducers.run (next c) r l = some (r', e :: out)) :
    ∃ rest, Stored c r l e rest := by
  induction l generalizing r with
  | nil => cases h
  | cons frame l ih =>
    obtain ⟨r₁, out₁, out₂, hnext, hrun, hout⟩ := run_cons_eq_some.mp h
    obtain rfl | ⟨rfl, e', rfl⟩ := next_out hnext
    · rw [List.nil_append] at hout
      subst hout
      obtain ⟨rest, hstored⟩ := ih hrun
      exact ⟨rest, .more hnext hstored⟩
    · obtain ⟨rfl, -⟩ := List.cons.inj hout
      exact ⟨l, .last hnext⟩

theorem Stored.deliveryChannel (h : Stored c r l e rest) : e.deliveryChannel = c := by
  induction h with
  | last hnext => exact deliveryChannel_of_next hnext List.mem_cons_self
  | more _ _ ih => exact ih

/-- The loop over the fragments does not meet another frame, and when it gets to the end of the
body, then so does the reader. -/
theorem bodyIsQueued_of_run (hall : ∀ f ∈ l, isOnChannel c f) (hlt : received.length < n)
    (h : (run (next c) (.body m properties n received) l).isSome) :
    bodyIsQueued c n received.length l = .ok false ∨
      bodyIsQueued c n received.length l = .ok true ∧
        ∃ e rest, Stored c (.body m properties n received) l e rest := by
  induction l generalizing received with
  | nil =>
    left
    simp [bodyIsQueued, hlt]
  | cons f l ih =>
    obtain ⟨⟨r', out⟩, h⟩ := Option.isSome_iff_exists.mp h
    obtain ⟨r₁, out₁, out₂, hnext, hrun, -⟩ := run_cons_eq_some.mp h
    obtain ⟨fragment, hp, ⟨hmore, rfl, rfl⟩ | ⟨hlast, rfl, rfl⟩⟩ := next_body_iff.mp hnext
    all_goals
      rw [bodyIsQueued, if_neg hlt.not_ge, if_pos (hall f List.mem_cons_self), hp]
      dsimp only
    · have hrest := ih (fun f hf => hall f (List.mem_cons_of_mem _ hf))
        (List.length_append ▸ hmore) (Option.isSome_iff_exists.mpr ⟨_, hrun⟩)
      rw [List.length_append] at hrest
      refine hrest.imp id ?_
      rintro ⟨htrue, e, rest, hstored⟩
      exact ⟨htrue, e, rest, .more hnext hstored⟩
    · rw [bodyIsQueued_of_le hlast.ge]
      exact .inr ⟨rfl, _, _, .last hnext⟩

theorem checkForQueuedMessageOnChannel_filter {queue : List Frame} :
    checkForQueuedMessageOnChannel c (queue.filter (isOnChannel c)) =
      checkForQueuedMessageOnChannel c queue := by
  unfold checkForQueuedMessageOnChannel
  rw [dropWhile_filter fun f hf => isOnChannel_iff.mpr (isMethodOnChannel_deliver_iff.mp hf).1]
  cases hdeliver : queue.dropWhile fun f => !isMethodOnChannel basicDeliverMethod c f with
  | nil => rfl
  | cons f frames =>
    have hf := (exists_of_dropWhile_not hdeliver).1
    rw [List.filter_cons_of_pos (isOnChannel_iff.mpr (isMethodOnChannel_deliver_iff.mp hf).1)]
    dsimp only
    rw [dropWhile_filter fun _ => id]
    cases hheader : frames.dropWhile fun f => !isOnChannel c f with
    | nil => rfl
    | cons g frames =>
      rw [List.filter_cons_of_pos (exists_of_dropWhile_not hheader).1]
      dsimp only
      simp only [bodyIsQueued_filter]

/-- When the frames of the channel are in order, the search finds no error, and what it finds
complete is a message. -/
theorem checkForQueuedMessageOnChannel_of_run {queue : List Frame}
    (h : (run (next c) .idle (queue.filter (isOnChannel c))).isSome) :
    checkForQueuedMessageOnChannel c queue = .ok false ∨
      checkForQueuedMessageOnChannel c queue = .ok true ∧
        ∃ e rest, Stored c .idle (queue.filter (isOnChannel c)) e rest := by
  have hall : ∀ f ∈ queue.filter (isOnChannel c), isOnChannel c f := fun f => List.of_mem_filter
  rw [← checkForQueuedMessageOnChannel_filter]
  generalize queue.filter (isOnChannel c) = l at h hall
  obtain ⟨⟨r', out⟩, h⟩ := Option.isSome_iff_exists.mp h
  cases l with
  | nil => exact .inl rfl
  | cons f l =>
    obtain ⟨r₁, out₁, out₂, hf, h, -⟩ := run_cons_eq_some.mp h
    obtain ⟨m, hm, rfl, rfl⟩ := next_idle_iff.mp hf
    have hchannel : f.channel = c := isOnChannel_iff.mp (hall f List.mem_cons_self)
    have hdeliver := isMethodOnChannel_deliver_iff.mpr ⟨hchannel, m, hm⟩
    unfold checkForQueuedMessageOnChannel
    rw [List.dropWhile_cons_of_neg (by simp [hdeliver])]
    cases l with
    | nil => exact .inl rfl
    | cons g l =>
      obtain ⟨r₂, out₃, out₄, hg, h, -⟩ := run_cons_eq_some.mp h
      obtain ⟨n, properties, hp, -, hcases⟩ := next_header_iff.mp hg
      have hon : isOnChannel c g := hall g (by simp)
      dsimp only
      rw [List.dropWhile_cons_of_neg (by simp [hon])]
      dsimp only
      rw [hp]
      dsimp only
      obtain ⟨rfl, rfl, rfl⟩ | ⟨hpos, rfl, rfl⟩ := hcases
      · rw [bodyIsQueued_of_le (Nat.zero_le _)]
        exact .inr ⟨rfl, _, _, .more hf (.last hg)⟩
      · have hl : ∀ f ∈ l, isOnChannel c f := fun f hf => hall f (by simp [hf])
        refine (bodyIsQueued_of_run hl hpos (Option.isSome_iff_exists.mpr ⟨_, h⟩)).imp id ?_
        rintro ⟨htrue, e, rest, hstored⟩
        exact ⟨htrue, e, rest, .more hf (.more hg hstored)⟩

end Reading

/-- Frames of the channel have been taken from the queue, and that is all. -/
structure Dequeued (c : UInt16) (s t : ChannelImpl) : Prop where
  confined : Confined c s t
  delivered : t.delivered c = s.delivered c
  channels : t.channels = s.channels

namespace Dequeued

variable {c : UInt16} {s t u : ChannelImpl}

theorem refl : Dequeued c s s := ⟨.refl, rfl, rfl⟩

theorem trans (h : Dequeued c s t) (h' : Dequeued c t u) : Dequeued c s u :=
  ⟨h.confined.trans h'.confined, h'.delivered.trans h.delivered, h'.channels.trans h.channels⟩

theorem of_dequeue {p : Frame → Bool} (h : ∀ f, s.frameQueue.find? p = some f → f.channel = c) :
    Dequeued c s (s.dequeue p) :=
  ⟨confined_dequeue h, rfl, rfl⟩

theorem of_isOnChannel : Dequeued c s (s.dequeue (isOnChannel c)) :=
  ⟨confined_dequeue_isOnChannel, rfl, rfl⟩

end Dequeued

section Stored

open Reading

variable {fromBroker : List UInt16 → Bool → Call (Option Frame)} {c : UInt16} {s : ChannelImpl}
  {frame : Frame} {m : Deliver} {properties received : Bytes} {n fuel : ℕ} {e : Envelope}
  {l rest : List Frame} {timed : Bool}

/-- A frame of the channel that does not close it. -/
theorem getNextFrameOnChannel_dequeue (h : s.queued c = frame :: l)
    (hclose : ∀ m, frame.payload ≠ .method (.channelClose m)) :
    Ends (getNextFrameOnChannel fromBroker c timed) s
      (fun r t => r = some frame ∧ t = s.dequeue (isOnChannel c)) (fun _ _ => False) := by
  have hfind : s.frameQueue.find? (isOnChannel c) = some frame :=
    find?_eq_some_iff_filter.mpr ⟨l, h⟩
  simp only [getNextFrameOnChannel, ends_bind, ends_get, hfind, ends_set, ends_pure]
  trivial

theorem readBody_stored (h : Stored c (.body m properties n received) (s.queued c) e rest)
    (hlt : received.length < n) (hfuel : (s.queued c).length < fuel) :
    Ends (readBody fromBroker c n fuel received) s
      (fun body t => e = envelope c m ⟨body, properties⟩ ∧ Dequeued c s t ∧ t.queued c = rest)
      (fun _ _ => False) := by
  generalize hl : s.queued c = l at h
  generalize hr : Reading.body m properties n received = r at h
  obtain _ | fuel := fuel
  · cases hfuel
  induction h generalizing s received fuel with
  | @last r frame l e hnext =>
    subst hr
    obtain ⟨fragment, hp, ⟨-, hr, -⟩ | ⟨hlast, -, he⟩⟩ := next_body_iff.mp hnext
    · cases hr
    rw [readBody, if_pos hlt]
    simp only [ends_bind]
    refine (getNextFrameOnChannel_dequeue hl (by simp [hp])).mono ?_ fun _ _ h => h
    rintro _ _ ⟨rfl, rfl⟩
    simp only [hp, hlast, le_refl, if_true]
    obtain _ | fuel := fuel
    · simp [hl] at hfuel
    rw [readBody, if_neg (by simp [hlast])]
    refine ⟨by simpa using he, .of_isOnChannel, ?_⟩
    rw [queued_dequeue, hl, List.tail_cons]
  | @more r r' frame l rest e hnext hstored ih =>
    subst hr
    obtain ⟨fragment, hp, ⟨hmore, hr, -⟩ | ⟨-, -, he⟩⟩ := next_body_iff.mp hnext
    swap
    · cases he
    rw [readBody, if_pos hlt]
    simp only [ends_bind]
    refine (getNextFrameOnChannel_dequeue hl (by simp [hp])).mono ?_ fun _ _ h => h
    rintro _ _ ⟨rfl, rfl⟩
    simp only [hp, hmore.le, if_true]
    have hrest : (s.dequeue (isOnChannel c)).queued c = l := by
      rw [queued_dequeue, hl, List.tail_cons]
    have hdequeue : Dequeued c s (s.dequeue (isOnChannel c)) :=
      .of_isOnChannel
    obtain _ | fuel := fuel
    · simp [hl] at hfuel
    refine (ih (by rwa [List.length_append]) hrest hr.symm fuel ?_).mono
      (fun body t ht => ⟨ht.1, hdequeue.trans ht.2.1, ht.2.2⟩) fun _ _ h => h
    rw [hl, List.length_cons] at hfuel
    rw [hrest]
    omega

theorem readContent_stored (h : Stored c (.header m) (s.queued c) e rest) :
    Ends (readContent fromBroker c) s
      (fun content t => e = envelope c m content ∧ Dequeued c s t ∧ t.queued c = rest)
      (fun _ _ => False) := by
  have hdequeue : Dequeued c s (s.dequeue (isOnChannel c)) :=
    .of_isOnChannel
  generalize hl : s.queued c = l at h
  have hfirst : ∀ {frame l₁}, l = frame :: l₁ → (s.dequeue (isOnChannel c)).queued c = l₁ := by
    rintro frame l₁ rfl
    rw [queued_dequeue, hl, List.tail_cons]
  cases h with
  | last hnext =>
    obtain ⟨n, properties, hp, hlt, ⟨hzero, -, he⟩ | ⟨-, hr, -⟩⟩ := next_header_iff.mp hnext
    swap
    · cases hr
    simp only [readContent, ends_bind]
    refine (getNextFrameOnChannel_dequeue hl (by simp [hp])).mono ?_ fun _ _ h => h
    rintro _ _ ⟨rfl, rfl⟩
    simp only [hp, ends_bind, ends_get]
    rw [if_pos hlt, ends_bind, readBody, if_neg (by simp [hzero])]
    exact ⟨by simpa using he, hdequeue, hfirst rfl⟩
  | more hnext hstored =>
    obtain ⟨n, properties, hp, hlt, ⟨-, -, he⟩ | ⟨hpos, hr, -⟩⟩ := next_header_iff.mp hnext
    · cases he
    subst hr
    simp only [readContent, ends_bind]
    refine (getNextFrameOnChannel_dequeue hl (by simp [hp])).mono ?_ fun _ _ h => h
    rintro _ _ ⟨rfl, rfl⟩
    simp only [hp, ends_bind, ends_get]
    rw [if_pos hlt, ends_bind]
    simp only [ends_pure]
    refine (readBody_stored (by rwa [hfirst rfl]) hpos ?_).mono
      (fun body t ht => ⟨ht.1, hdequeue.trans ht.2.1, ht.2.2⟩) fun _ _ h => h
    exact Nat.lt_succ_of_le ((List.length_filter_le ..).trans (Nat.le_add_right ..))

/-- The message that is complete in the queue is taken from it, whole and alone. -/
theorem consumeMessageOnChannelInner_stored (h : Stored c .idle (s.queued c) e rest) :
    Ends (consumeMessageOnChannelInner fromBroker [c] timed) s
      (fun r t => r = some e ∧ Dequeued c s t ∧ t.queued c = rest) (fun _ _ => False) := by
  generalize hl : s.queued c = l at h
  cases h with
  | last hnext =>
    obtain ⟨m, -, hr, -⟩ := next_idle_iff.mp hnext
    cases hr
  | @more _ _ frame l _ _ hnext hstored =>
    obtain ⟨m, hm, rfl, -⟩ := next_idle_iff.mp hnext
    have hchannel : frame.channel = c := by
      have hmem : frame ∈ s.queued c := by simp [hl]
      exact isOnChannel_iff.mp (List.of_mem_filter hmem)
    let p := isExpectedMethodOnChannel [c] [basicDeliverMethod, basicCancelMethod]
    have hp : ∀ frame, p frame = true ↔ _ := fun frame => isExpected_deliverOrCancel_iff
    have hpos : p frame := (hp frame).mpr ⟨by simp [hchannel], .inl ⟨m, hm⟩⟩
    have hmem : frame ∈ s.frameQueue := List.mem_of_mem_filter (p := isOnChannel c) (by
      change frame ∈ s.queued c
      simp [hl])
    obtain ⟨found, hfind⟩ := Option.isSome_iff_exists.mp (List.find?_isSome.mpr ⟨frame, hmem, hpos⟩)
    have hfound : found.channel = c := by simpa using ((hp found).mp (List.find?_some hfind)).1
    obtain ⟨rfl, hrest⟩ := filter_eraseP_head hfind (isOnChannel_iff.mpr hfound) hl hpos
    have hdequeue : Dequeued c s (s.dequeue p) :=
      .of_dequeue fun f hf => by simpa using ((hp f).mp (List.find?_some hf)).1
    have hfind' : s.frameQueue.find?
        (isExpectedMethodOnChannel [c] [basicDeliverMethod, basicCancelMethod]) =
          some found := hfind
    simp only [consumeMessageOnChannelInner, getMethodOnChannel, ends_bind, ends_get, hfind',
      ends_set, ends_pure, hm, hfound]
    have hqueued : (s.dequeue p).queued c = l := hrest
    refine (readContent_stored (by rwa [hqueued])).mono ?_ fun _ _ h => h
    rintro content t ⟨rfl, ht, hqt⟩
    exact ⟨rfl, hdequeue.trans ht, hqt⟩

end Stored

end Vs17.Amqp
