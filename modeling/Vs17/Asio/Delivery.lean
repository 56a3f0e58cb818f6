import Vs17.Asio.Reply
import Vs17.Library.Runs

/-! # Sending replies

A handler assembles its reply in a local buffer, `do_write` offers that buffer to the
transport, and the handler returns. The transport reads what is offered at some time, before
the handler returns or after, and the write completes later, when no handler is running.
`on_write` offers nothing further, so a reply is sent in full only by a transport that reads
all of it before the handler has returned.
-/

namespace Vs17.Asio

open Runs

/-- What is left of a region offered to `async_write_some`, which takes some of its front once.
It is alive while the buffer it lies in is. -/
structure Offer where
  rest : Bytes
  alive : Bool
  taken : Bool
  deriving DecidableEq

/-- The sending side of a connection: the writes not completed yet, the bytes put on
the wire, and the replies `do_write` was given. -/
structure Writer where
  connected : Bool
  inHandler : Bool
  offers : List Offer
  wire : Bytes
  given : List Bytes
  deriving DecidableEq

namespace Writer

def create : Writer := ⟨true, false, [], [], []⟩

/-- `do_write(write_buffer_, len)`, where the buffer holds this reply. -/
def doWrite (w : Writer) (msg : Bytes) : Writer :=
  if w.connected = false then w
  else { w with offers := w.offers ++ [⟨msg, true, false⟩], given := w.given ++ [msg] }

/-- A handler fills its local buffer and gives it to `do_write`. -/
def msgProcess (w : Writer) (reply : Bytes) : Writer :=
  { w with inHandler := true }.doWrite reply

/-- The handler returns, and its local buffer is gone. -/
def msgProcessReturns (w : Writer) : Writer :=
  { w with inHandler := false, offers := w.offers.map fun o => { o with alive := false } }

/-- The transport reads from the write at this index, and these bytes are sent. -/
def take (w : Writer) (i : ℕ) (sent : Bytes) : Writer :=
  { w with
    offers := w.offers.modify i fun o => { o with rest := o.rest.drop sent.length, taken := true }
    wire := w.wire ++ sent }

/-- `on_write` without an error writes to the log only. -/
def onWrite (w : Writer) : Writer := w

/-- The write at this index completes. -/
def complete (w : Writer) (i : ℕ) : Writer :=
  { w with offers := w.offers.eraseIdx i }.onWrite

inductive Event
  | msgProcess (reply : Bytes)
  | msgProcessReturns
  | take (i : ℕ) (sent : Bytes)
  | complete (i : ℕ)

/-- One thread runs the handlers, `on_write` among them. A write takes some bytes from the front
of its offer, and these are the offered ones only as long as the offer is alive. -/
inductive Step : Writer → Event → Writer → Prop
  | msgProcess {w : Writer} {reply : Bytes} (h : w.inHandler = false) :
      Step w (.msgProcess reply) (w.msgProcess reply)
  | msgProcessReturns {w : Writer} (h : w.inHandler = true) :
      Step w .msgProcessReturns w.msgProcessReturns
  | take {w : Writer} {i : ℕ} {o : Offer} {sent : Bytes} (ho : w.offers[i]? = some o)
      (hfirst : o.taken = false) (hle : sent.length ≤ o.rest.length)
      (hpos : o.rest ≠ [] → 0 < sent.length)
      (halive : o.alive = true → sent = o.rest.take sent.length) :
      Step w (.take i sent) (w.take i sent)
  | complete {w : Writer} {i : ℕ} {o : Offer} (h : w.inHandler = false)
      (ho : w.offers[i]? = some o) (htaken : o.taken = true) :
      Step w (.complete i) (w.complete i)

/-- Nothing is lost, changed or out of order: what is still to be sent lies in live buffers,
and behind the wire it makes up the replies. -/
structure Intact (w : Writer) : Prop where
  alive : ∀ o ∈ w.offers, o.alive = false → o.rest = []
  sent : w.wire ++ (w.offers.map Offer.rest).flatten = w.given.flatten

/-- A handler returns when all that it offered has been read. -/
def ReadInTime (w : Writer) : Event → Prop
  | .msgProcessReturns => ∀ o ∈ w.offers, o.rest = []
  | .msgProcess _ | .take _ _ | .complete _ => True

/-- The connection is open, and the only live offer is that of the running handler. -/
structure OneAlive (w : Writer) : Prop where
  connected : w.connected = true
  count : w.offers.countP Offer.alive ≤ w.inHandler.toNat

variable {w w' : Writer} {e : Event} {o : Offer} {l : List Offer}

theorem msgProcess_eq {reply : Bytes} (h : w.connected = true) :
    w.msgProcess reply = { w with
      inHandler := true
      offers := w.offers ++ [⟨reply, true, false⟩]
      given := w.given ++ [reply] } := by
  simp [msgProcess, doWrite, h]

theorem take_append {l₁ l₂ : List Offer} {sent : Bytes} (h : w.offers = l₁ ++ o :: l₂) :
    w.take l₁.length sent = { w with
      offers := l₁ ++ ⟨o.rest.drop sent.length, o.alive, true⟩ :: l₂
      wire := w.wire ++ sent } := by
  rw [take, h, List.modify_eq_take_drop, List.take_left, List.drop_left, List.modifyHead_cons]

/-- The write at an index, with those before and behind it. -/
theorem exists_append {i : ℕ} (h : l[i]? = some o) :
    ∃ l₁ l₂, l = l₁ ++ o :: l₂ ∧ i = l₁.length := by
  obtain ⟨hlt, rfl⟩ := List.getElem?_eq_some_iff.mp h
  refine ⟨l.take i, l.drop (i + 1), ?_, (List.length_take_of_le hlt.le).symm⟩
  rw [List.getElem_cons_drop, List.take_append_drop]

theorem OneAlive.step (h : w.OneAlive) (hs : Step w e w') : w'.OneAlive := by
  obtain ⟨hc, hn⟩ := h
  cases hs with
  | msgProcess hin =>
    rw [hin] at hn
    rw [msgProcess_eq hc]
    exact ⟨hc, by simpa [List.countP_append] using hn⟩
  | msgProcessReturns => exact ⟨hc, by simp [msgProcessReturns, Function.comp_def]⟩
  | take ho =>
    obtain ⟨l₁, l₂, hl, rfl⟩ := exists_append ho
    rw [take_append hl]
    exact ⟨hc, by simpa [hl, List.countP_append, List.countP_cons] using hn⟩
  | complete => exact ⟨hc, (List.eraseIdx_sublist ..).countP_le.trans hn⟩

/-- Where nothing is alive, nothing is left to be sent. -/
theorem rests_eq_nil (h : ∀ o ∈ l, o.alive = false → o.rest = []) (hl : l.countP Offer.alive = 0) :
    (l.map Offer.rest).flatten = [] := by
  rw [List.flatten_eq_nil_iff]
  intro b hb
  obtain ⟨o, ho, rfl⟩ := List.mem_map.mp hb
  exact h o ho (by simpa using List.countP_eq_zero.mp hl o ho)

/-- What the transport reads goes from the offers to the wire. -/
theorem Intact.take {i : ℕ} {sent : Bytes} (h : w.OneAlive) (hi : Intact w)
    (ho : w.offers[i]? = some o) (hle : sent.length ≤ o.rest.length)
    (halive : o.alive = true → sent = o.rest.take sent.length) : Intact (w.take i sent) := by
  obtain ⟨l₁, l₂, hl, rfl⟩ := exists_append ho
  have hsent := hi.sent
  have hdead := hi.alive
  have hcount := h.count.trans (Bool.toNat_le _)
  rw [take_append hl]
  simp only [hl, List.mem_append, List.mem_cons, or_imp, forall_and, forall_eq, List.map_append,
    List.map_cons, List.flatten_append, List.flatten_cons, List.countP_append,
    List.countP_cons] at hsent hdead hcount
  obtain ⟨h₁, ho', h₂⟩ := hdead
  cases ha : o.alive with
  | false =>
    obtain rfl : sent = [] := by simpa [ho' ha] using hle
    refine ⟨?_, by simpa using hsent⟩
    simpa [or_imp, forall_and, ha] using ⟨h₁, ho' ha, h₂⟩
  | true =>
    have hnil₁ : (l₁.map Offer.rest).flatten = [] := rests_eq_nil h₁ (by simp [ha] at hcount; omega)
    refine ⟨?_, ?_⟩
    · simpa [or_imp, forall_and, ha] using ⟨h₁, h₂⟩
    · have hsplit := List.take_append_drop sent.length o.rest
      rw [← halive ha] at hsplit
      simp only [List.map_append, List.map_cons, List.flatten_append, List.flatten_cons, hnil₁,
        List.nil_append] at hsent ⊢
      rw [List.append_assoc, ← List.append_assoc sent, hsplit, hsent]

theorem Intact.complete {i : ℕ} (h : w.OneAlive) (hi : Intact w) (hin : w.inHandler = false)
    (ho : w.offers[i]? = some o) : Intact (w.complete i) := by
  obtain ⟨l₁, l₂, hl, rfl⟩ := exists_append ho
  have hcount := h.count
  have hdead : o.alive = false := by
    rw [hin, Bool.toNat_false, Nat.le_zero] at hcount
    simpa using List.countP_eq_zero.mp hcount o (List.mem_of_getElem? ho)
  have hrest := hi.alive o (List.mem_of_getElem? ho) hdead
  have hsent := hi.sent
  refine ⟨fun o' ho' => hi.alive o' (List.mem_of_mem_eraseIdx ho'), ?_⟩
  simp only [Writer.complete, onWrite, hl, List.eraseIdx_append_of_length_le le_rfl, Nat.sub_self,
    List.eraseIdx_cons_zero]
  simpa [hl, hrest] using hsent

theorem intact_step_iff (h : w.OneAlive) (hi : Intact w) (hs : Step w e w') :
    Intact w' ↔ ReadInTime w e := by
  cases hs with
  | msgProcess =>
    have hsent := hi.sent
    refine iff_of_true ?_ trivial
    rw [msgProcess_eq h.connected]
    exact ⟨by simpa [or_imp, forall_and] using hi.alive, by simp [← hsent]⟩
  | msgProcessReturns =>
    constructor
    · intro hi' o ho
      exact hi'.alive { o with alive := false } (List.mem_map.mpr ⟨o, ho, rfl⟩) rfl
    · intro hread
      have hread' : ∀ o ∈ w.offers, o.rest = [] := hread
      refine ⟨by simpa [msgProcessReturns] using hread', ?_⟩
      simpa [msgProcessReturns, Function.comp_def] using hi.sent
  | take ho _ hle _ halive => exact iff_of_true (hi.take h ho hle halive) trivial
  | complete hin ho => exact iff_of_true (hi.complete h hin ho) trivial

/-- In a run, nothing offered is lost or changed exactly when each handler returns only after
the transport has read all that it offered. -/
theorem run_intact_iff {tr : List (Writer × Event)} (h : Run Step create tr w) :
    Throughout Intact tr w ↔ AllSteps ReadInTime tr :=
  h.throughout_iff (I := OneAlive) ⟨rfl, Nat.le_refl _⟩ (fun _ _ _ => OneAlive.step)
    ⟨by simp [create], rfl⟩ (fun _ _ _ => intact_step_iff)

/-- The first handler offers a reply, of which the transport reads so many bytes; the handler
returns and the write completes. -/
theorem run_take {reply : Bytes} {n : ℕ} (hn : 0 < n) (hle : n ≤ reply.length) :
    Run Step create
      [(create, .msgProcess reply),
        (⟨true, true, [⟨reply, true, false⟩], [], [reply]⟩, .take 0 (reply.take n)),
        (⟨true, true, [⟨reply.drop n, true, true⟩], reply.take n, [reply]⟩, .msgProcessReturns),
        (⟨true, false, [⟨reply.drop n, false, true⟩], reply.take n, [reply]⟩, .complete 0)]
      ⟨true, false, [], reply.take n, [reply]⟩ := by
  have hlen : (reply.take n).length = n := List.length_take_of_le hle
  have hoffer := Run.start.next (@Step.msgProcess create reply rfl)
  have htake := hoffer.next (@Step.take _ 0 _ (reply.take n) rfl rfl (hlen.trans_le hle)
    (fun _ => by rwa [hlen]) fun _ => by rw [hlen])
  have hreturn := htake.next (.msgProcessReturns rfl)
  have hdone := hreturn.next (@Step.complete _ 0 _ rfl rfl rfl)
  simpa [hlen, create, msgProcess, doWrite, take, msgProcessReturns, complete, onWrite] using hdone

/-- The reply of `DeviceManager` to the second message of its test client. -/
def sampleReply : Bytes :=
  deviceReply 0x6020 1 41 2 102 (Processor.deviceManager.response 102)

theorem le_length_sampleReply : 28 ≤ sampleReply.length :=
  le_length_deviceReply (Processor.deviceManager.length_response_le 102)

/-- The write may complete when the handler is gone. -/
theorem run_intact_sampleReply : ∃ tr w, Run Step create tr w ∧ w.given = [sampleReply] ∧
    w.offers = [] ∧ Throughout Intact tr w := by
  have hpos : 0 < sampleReply.length := Nat.lt_of_lt_of_le (by decide) le_length_sampleReply
  generalize sampleReply = reply at hpos
  have hrun := run_take hpos le_rfl
  refine ⟨_, _, hrun, rfl, rfl, (run_intact_iff hrun).mpr ?_⟩
  simp [AllSteps, ReadInTime]

/-- The transport takes twenty bytes of a reply, and the others are never sent. -/
theorem sampleReply_not_intact : ∃ tr w, Run Step create tr w ∧ w.offers = [] ∧ ¬ Intact w := by
  have hlt : 20 < sampleReply.length := Nat.lt_of_lt_of_le (by decide) le_length_sampleReply
  generalize sampleReply = reply at hlt
  refine ⟨_, _, run_take (by decide : 0 < 20) hlt.le, rfl, fun hi => ?_⟩
  have hlen := congrArg List.length hi.sent
  rw [List.map_nil, List.flatten_nil, List.append_nil, List.flatten_singleton,
    List.length_take_of_le hlt.le] at hlen
  exact hlt.ne hlen

end Writer

end Vs17.Asio
