import Vs17.Asio.Server

/-! # The registry of connections

`close` clears the flag of a connection, talks to its socket and removes it from
`s_conns` last. A socket call that throws leaves the closed connection registered.
-/

namespace Vs17.Asio.AsyncServer

open Runs

/-- The `close` a completion enters, if any. -/
def Event.closes : Event → Option (ConnPtr × SocketCalls)
  | .accept .. => none
  | .read conn done => if done.err then some (conn, done.calls) else none
  | .write conn endpoints err calls => if endpoints && err then some (conn, calls) else none

/-- `s_conns` holds each accepted connection that is not closed once, and no other. -/
structure Registered (s : AsyncServer) : Prop where
  once : ∀ conn ∈ s.accepted, s.connected conn = true → s.sConns.count conn = 1
  connected : ∀ conn ∈ s.sConns, s.connected conn = true

/-- Where a registered connection is closed, every socket call succeeds. -/
def ClosesInFull (s : AsyncServer) (e : Event) : Prop :=
  ∀ conn calls, e.closes = some (conn, calls) → conn ∈ s.sConns →
    calls.remoteEndpoint = true ∧ calls.shutdown = true ∧ calls.close = true

/-- What a step does to the registry and the flags. -/
inductive Effect (s : AsyncServer) : Event → AsyncServer → Prop
  | registers {conn : ConnPtr} {reading : List ConnPtr} (hc : conn ∈ s.accepting)
      (hr : ∀ c ∈ reading, c ∈ s.reading ∨ c = conn) :
      Effect s (.accept conn true true false) { s with
        accepting := s.accepting.erase conn ++ [s.constructed]
        sConns := s.sConns ++ [conn]
        connected := Function.update s.connected s.constructed true
        reading := reading
        accepted := s.accepted ++ [conn]
        constructed := s.constructed + 1 }
  | refuses {conn : ConnPtr} {remoteEp localEp err : Bool} :
      Effect s (.accept conn remoteEp localEp err)
        { s with accepting := s.accepting.erase conn }
  | closes {e : Event} {conn : ConnPtr} {calls : SocketCalls} {reading writing : List ConnPtr}
      (he : e.closes = some (conn, calls)) (hc : conn ∈ s.reading ∨ conn ∈ s.writing)
      (hr : ∀ c ∈ reading, c ∈ s.reading) (hw : ∀ c ∈ writing, c ∈ s.writing) :
      Effect s e ({ s with reading := reading, writing := writing }.close conn calls)
  | continues {e : Event} {conn : ConnPtr} {reading writing : List ConnPtr}
      (he : e.closes = none) (hc : conn ∈ s.reading ∨ conn ∈ s.writing)
      (hr : ∀ c ∈ reading, c ∈ s.reading ∨ c = conn)
      (hw : ∀ c ∈ writing, c ∈ s.writing ∨ c = conn) :
      Effect s e { s with reading := reading, writing := writing }

variable {s t : AsyncServer} {e : Event} {conn : ConnPtr}

theorem doRead_eq (s : AsyncServer) (conn : ConnPtr) :
    ∃ reading, s.doRead conn = { s with reading := reading } ∧
      ∀ c ∈ reading, c ∈ s.reading ∨ c = conn := by
  unfold doRead
  split
  · exact ⟨s.reading, rfl, fun _ => .inl⟩
  · exact ⟨_, rfl, by simp⟩

theorem doWrite_eq (s : AsyncServer) (conn : ConnPtr) (replies : ℕ) :
    ∃ writing, s.doWrite conn replies = { s with writing := writing } ∧
      ∀ c ∈ writing, c ∈ s.writing ∨ c = conn := by
  unfold doWrite
  split
  · exact ⟨s.writing, rfl, fun _ => .inl⟩
  · refine ⟨_, rfl, fun c hc => ?_⟩
    rcases List.mem_append.mp hc with hc | hc
    · exact .inl hc
    · exact .inr (List.eq_of_mem_replicate hc)

theorem effect_accept {remoteEp localEp err : Bool} (hc : conn ∈ s.accepting) :
    Effect s (.accept conn remoteEp localEp err)
      (s.handle (.accept conn remoteEp localEp err)) := by
  by_cases hok : remoteEp = true ∧ localEp = true ∧ err = false
  · obtain ⟨rfl, rfl, rfl⟩ := hok
    obtain ⟨reading, hread, hr⟩ := doRead_eq
      { s with
        accepting := s.accepting.erase conn
        sConns := s.sConns ++ [conn]
        accepted := s.accepted ++ [conn] } conn
    have heff : Effect s (.accept conn true true false) _ := .registers hc hr
    convert heff using 1
    exact congrArg start hread
  · have heq : s.handle (.accept conn remoteEp localEp err) =
        { s with accepting := s.accepting.erase conn } := by
      cases remoteEp <;> cases localEp <;> cases err <;> simp_all [handle, onAccept]
    exact heq ▸ .refuses

theorem effect_read {done : ReadDone} (hc : conn ∈ s.reading) :
    Effect s (.read conn done) (s.handle (.read conn done)) := by
  have herase : ∀ c ∈ s.reading.erase conn, c ∈ s.reading := fun _ => List.mem_of_mem_erase
  simp only [handle, onRead]
  split_ifs with herr hopen hthrows
  · exact .closes (by simp [Event.closes, herr]) (.inl hc) herase (fun _ => id)
  · exact .continues (by simp [Event.closes, herr]) (.inl hc) (fun c h => .inl (herase c h))
      (fun _ => .inl)
  · obtain ⟨writing, hwrite, hw⟩ :=
      doWrite_eq { s with reading := s.reading.erase conn } conn done.replies
    rw [hwrite]
    exact .continues (by simp [Event.closes, herr]) (.inl hc) (fun c h => .inl (herase c h)) hw
  · obtain ⟨writing, hwrite, hw⟩ :=
      doWrite_eq { s with reading := s.reading.erase conn } conn done.replies
    obtain ⟨reading, hread, hr⟩ :=
      doRead_eq { s with reading := s.reading.erase conn, writing := writing } conn
    rw [hwrite, hread]
    exact .continues (by simp [Event.closes, herr]) (.inl hc)
      (fun c h => (hr c h).imp_left (herase c)) hw

theorem effect_write {endpoints err : Bool} {calls : SocketCalls} (hc : conn ∈ s.writing) :
    Effect s (.write conn endpoints err calls) (s.handle (.write conn endpoints err calls)) := by
  have herase : ∀ c ∈ s.writing.erase conn, c ∈ s.writing := fun _ => List.mem_of_mem_erase
  have hkeep : ∀ c ∈ s.writing.erase conn, c ∈ s.writing ∨ c = conn :=
    fun c h => .inl (herase c h)
  simp only [handle, onWrite]
  split_ifs with hends herr
  · exact .continues (by simp [Event.closes, hends]) (.inr hc) (fun _ => .inl) hkeep
  · exact .closes (by simp [Event.closes, hends, herr]) (.inr hc) (fun _ => id) herase
  · exact .continues (by simp [Event.closes, herr]) (.inr hc) (fun _ => .inl) hkeep

theorem effect_of_step (h : Step s e t) : Effect s e t := by
  obtain ⟨hp, rfl⟩ := h
  cases e with
  | accept => exact effect_accept hp
  | read => exact effect_read hp
  | write => exact effect_write hp

/-- What holds of the registry whatever the socket calls do. -/
structure WellFormed (s : AsyncServer) : Prop where
  accepting_length : s.accepting.length ≤ 1
  accepting : ∀ conn ∈ s.accepting,
    conn < s.constructed ∧ conn ∉ s.accepted ∧ s.connected conn = true
  accepted_lt : ∀ conn ∈ s.accepted, conn < s.constructed
  sConns_nodup : s.sConns.Nodup
  sConns_accepted : ∀ conn ∈ s.sConns, conn ∈ s.accepted
  reading_accepted : ∀ conn ∈ s.reading, conn ∈ s.accepted
  writing_accepted : ∀ conn ∈ s.writing, conn ∈ s.accepted
  open_registered : ∀ conn ∈ s.accepted, s.connected conn = true → conn ∈ s.sConns

theorem wellFormed_start : WellFormed create.start := by
  constructor <;> simp [start, create]

/-- The registry that a `close` of the connection leaves. -/
def remaining (conns : List ConnPtr) (conn : ConnPtr) (calls : SocketCalls) : List ConnPtr :=
  if calls.remoteEndpoint = true ∧ calls.shutdown = true ∧ calls.close = true then
    conns.erase conn
  else conns

section Remaining

variable {conns : List ConnPtr} {calls : SocketCalls} {c : ConnPtr}

theorem close_eq (s : AsyncServer) (conn : ConnPtr) (calls : SocketCalls) :
    s.close conn calls = { s with
      connected := Function.update s.connected conn false
      sConns := remaining s.sConns conn calls } := by
  obtain ⟨_ | _, _ | _, _ | _⟩ := calls <;> rfl

theorem remaining_sublist : List.Sublist (remaining conns conn calls) conns := by
  unfold remaining
  split
  · exact List.erase_sublist
  · exact List.Sublist.refl _

theorem mem_remaining_of_ne (h : c ≠ conn) : c ∈ remaining conns conn calls ↔ c ∈ conns := by
  unfold remaining
  split
  · exact List.mem_erase_of_ne h
  · exact Iff.rfl

theorem not_mem_remaining_iff (h : conns.Nodup) :
    conn ∉ remaining conns conn calls ↔ (conn ∈ conns →
      calls.remoteEndpoint = true ∧ calls.shutdown = true ∧ calls.close = true) := by
  unfold remaining
  split_ifs with hall
  · exact iff_of_true h.not_mem_erase fun _ => hall
  · exact ⟨fun hout hin => absurd hin hout, fun hin hmem => hall (hin hmem)⟩

end Remaining

theorem WellFormed.registers (h : WellFormed s) {reading : List ConnPtr}
    (hc : conn ∈ s.accepting) (hr : ∀ c ∈ reading, c ∈ s.reading ∨ c = conn) :
    WellFormed { s with
      accepting := s.accepting.erase conn ++ [s.constructed]
      sConns := s.sConns ++ [conn]
      connected := Function.update s.connected s.constructed true
      reading := reading
      accepted := s.accepted ++ [conn]
      constructed := s.constructed + 1 } := by
  obtain ⟨hlt, hnew, -⟩ := h.accepting conn hc
  have herase : s.accepting.erase conn = [] := by
    apply List.eq_nil_of_length_eq_zero
    have hlen := List.length_erase_of_mem hc
    have hle := h.accepting_length
    omega
  have hold : ∀ c ∈ s.accepted ++ [conn], c < s.constructed := by
    intro c hc'
    rcases List.mem_append.mp hc' with hc' | hc'
    · exact h.accepted_lt c hc'
    · exact List.mem_singleton.mp hc' ▸ hlt
  constructor
  case accepting_length => simp [herase]
  case accepting =>
    intro c hc'
    obtain rfl : c = s.constructed := by simpa [herase] using hc'
    exact ⟨Nat.lt_succ_self _, fun hmem => Nat.lt_irrefl _ (hold _ hmem), by simp⟩
  case accepted_lt => exact fun c hc' => Nat.lt_succ_of_lt (hold c hc')
  case sConns_nodup =>
    refine List.nodup_append.mpr ⟨h.sConns_nodup, List.nodup_singleton _, ?_⟩
    rintro a ha b hb rfl
    obtain rfl := List.mem_singleton.mp hb
    exact hnew (h.sConns_accepted _ ha)
  case sConns_accepted =>
    intro c hc'
    exact List.mem_append.mpr ((List.mem_append.mp hc').imp_left (h.sConns_accepted c))
  case reading_accepted =>
    intro c hc'
    apply List.mem_append.mpr
    exact (hr c hc').imp (h.reading_accepted c) fun heq => List.mem_singleton.mpr heq
  case writing_accepted =>
    exact fun c hc' => List.mem_append_left _ (h.writing_accepted c hc')
  case open_registered =>
    intro c hc' hopen
    simp only at hopen
    rw [Function.update_of_ne (Nat.ne_of_lt (hold c hc'))] at hopen
    exact List.mem_append.mpr
      ((List.mem_append.mp hc').imp_left fun hmem => h.open_registered c hmem hopen)

theorem WellFormed.close (h : WellFormed s) (hc : conn ∈ s.accepted) (calls : SocketCalls) :
    WellFormed (s.close conn calls) := by
  rw [close_eq]
  have hne : ∀ c ∈ s.accepting, c ≠ conn := by
    rintro c hc' rfl
    exact (h.accepting c hc').2.1 hc
  constructor
  case accepting_length => exact h.accepting_length
  case accepting =>
    intro c hc'
    simp only [Function.update_of_ne (hne c hc')]
    exact h.accepting c hc'
  case accepted_lt => exact h.accepted_lt
  case sConns_nodup => exact h.sConns_nodup.sublist remaining_sublist
  case sConns_accepted => exact fun c hc' => h.sConns_accepted c (remaining_sublist.subset hc')
  case reading_accepted => exact h.reading_accepted
  case writing_accepted => exact h.writing_accepted
  case open_registered =>
    intro c hc' hopen
    by_cases heq : c = conn
    · subst heq
      simp at hopen
    · simp only [Function.update_of_ne heq] at hopen
      exact (mem_remaining_of_ne heq).mpr (h.open_registered c hc' hopen)

theorem WellFormed.step (h : WellFormed s) (hs : Step s e t) : WellFormed t := by
  have hmem : ∀ {c}, c ∈ s.reading ∨ c ∈ s.writing → c ∈ s.accepted :=
    fun hc => hc.elim (h.reading_accepted _) (h.writing_accepted _)
  cases effect_of_step hs with
  | registers hc hr => exact h.registers hc hr
  | refuses =>
    exact { h with
      accepting_length := Nat.le_trans List.erase_sublist.length_le h.accepting_length
      accepting := fun c hc => h.accepting c (List.mem_of_mem_erase hc) }
  | @closes _ conn calls reading writing he hc hr hw =>
    have hidle : WellFormed { s with reading := reading, writing := writing } :=
      { h with
        reading_accepted := fun c hc => h.reading_accepted c (hr c hc)
        writing_accepted := fun c hc => h.writing_accepted c (hw c hc) }
    exact hidle.close (hmem hc) calls
  | continues he hc hr hw =>
    exact { h with
      reading_accepted := fun c hc' =>
        (hr c hc').elim (h.reading_accepted c) fun heq => heq ▸ hmem hc
      writing_accepted := fun c hc' =>
        (hw c hc').elim (h.writing_accepted c) fun heq => heq ▸ hmem hc }

/-- An open connection is never missing, so the registry fails only by keeping a
closed one. -/
theorem WellFormed.registered_iff (h : WellFormed s) :
    Registered s ↔ ∀ conn ∈ s.sConns, s.connected conn = true := by
  refine ⟨Registered.connected, fun hopen => ⟨fun conn hc hconn => ?_, hopen⟩⟩
  exact List.count_eq_one_of_mem h.sConns_nodup (h.open_registered conn hc hconn)

theorem registered_step_iff (h : WellFormed s) (hr : Registered s) (hs : Step s e t) :
    Registered t ↔ ClosesInFull s e := by
  rw [(h.step hs).registered_iff]
  rw [h.registered_iff] at hr
  cases effect_of_step hs with
  | @registers conn reading hc _ =>
    refine iff_of_true (fun c hc' => ?_) (fun c calls he => by simp [Event.closes] at he)
    by_cases heq : c = s.constructed
    · simp [heq]
    · simp only [Function.update_of_ne heq]
      rcases List.mem_append.mp hc' with hc' | hc'
      · exact hr c hc'
      · exact List.mem_singleton.mp hc' ▸ (h.accepting conn hc).2.2
  | refuses => exact iff_of_true hr (fun c calls he => by simp [Event.closes] at he)
  | @closes _ conn calls reading writing he hc _ _ =>
    rw [close_eq]
    have hself : conn ∉ remaining s.sConns conn calls ↔ _ := not_mem_remaining_iff h.sConns_nodup
    constructor
    · intro hopen c calls' he' hin
      obtain ⟨rfl, rfl⟩ : conn = c ∧ calls = calls' := by simpa [he] using he'
      refine hself.mp (fun hmem => ?_) hin
      have hclosed := hopen conn hmem
      simp at hclosed
    · intro hfull c hmem
      have hne : c ≠ conn := by
        rintro rfl
        exact hself.mpr (hfull c calls he) hmem
      simp only [Function.update_of_ne hne]
      exact hr c ((mem_remaining_of_ne hne).mp hmem)
  | continues he => exact iff_of_true hr (fun c calls he' => by simp [he] at he')

/-- In a run of a started server the registry holds exactly the open connections
throughout exactly when every socket call made to close a registered one succeeds. -/
theorem run_registered_iff {tr : List (AsyncServer × Event)} (h : Run Step create.start tr s) :
    Throughout Registered tr s ↔ AllSteps ClosesInFull tr :=
  h.throughout_iff wellFormed_start (fun _ _ _ => WellFormed.step)
    (wellFormed_start.registered_iff.mpr (by simp [start, create]))
    (fun _ _ _ => registered_step_iff)

/-- The first client is accepted, and its connection fails later. -/
def clientServed : AsyncServer := create.start.handle (.accept 0 true true false)

def clientLost (calls : SocketCalls) : Event := .read 0 ⟨true, calls, 0, false⟩

theorem run_clientLost (calls : SocketCalls) :
    Run Step create.start
      ([] ++ [(create.start, .accept 0 true true false)] ++ [(clientServed, clientLost calls)])
      (clientServed.handle (clientLost calls)) :=
  (Run.start.next (step_accept true true false)).next ⟨List.mem_singleton_self 0, rfl⟩

theorem run_registered_clientLost : ∃ tr s, Run Step create.start tr s ∧
    Throughout Registered tr s ∧ s.sConns = [] := by
  have hrun := run_clientLost ⟨true, true, true⟩
  refine ⟨_, _, hrun, (run_registered_iff hrun).mpr ?_, rfl⟩
  rw [allSteps_append, allSteps_append]
  refine ⟨⟨by simp [AllSteps], ?_⟩, ?_⟩
  · intro c calls he
    cases he
  · intro c calls he _
    cases he
    exact ⟨rfl, rfl, rfl⟩

/-- The peer is gone and its address cannot be read any more: the connection is closed
and stays registered. -/
theorem not_registered_clientLost : ∃ tr s, Run Step create.start tr s ∧ ¬ Registered s ∧
    s.sConns = [0] ∧ s.connected 0 = false := by
  refine ⟨_, _, run_clientLost ⟨false, true, true⟩, fun h => ?_, rfl, rfl⟩
  have hopen := h.connected 0 (List.mem_singleton_self 0)
  exact Bool.false_ne_true hopen

end Vs17.Asio.AsyncServer
