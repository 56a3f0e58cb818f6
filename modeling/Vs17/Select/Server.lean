import Vs17.Library.Runs
import Mathlib.Data.List.InsertIdx
import Mathlib.Data.List.Nodup
import Mathlib.Logic.Function.Basic

/-! # The descriptors of the select server

`thread_fun` keeps its descriptors twice: in the vector `v_fds`, which it scans after every
`select`, and in the set `read_fds`. A client that is gone is taken out of both while the
scan goes on; the loop that erases it from the vector compares with an element that moves.
-/

namespace Vs17.Select

open Runs

/-- A file descriptor. -/
abbrev Fd := ℕ

/-- The size of an `fd_set`. -/
def fdSetSize : ℕ := 1024

/-- The head of the `while` loop, the `for` loop over `v_fds`, and `exit`. -/
inductive Pc
  | top
  | scan
  | exited
  deriving DecidableEq, Repr

/-- The variables of `thread_fun`, and the descriptors the process has open. -/
structure Server where
  vFds : List Fd
  readFds : Fd → Bool
  testFds : Fd → Bool
  idx : ℕ
  nread : ℕ
  pc : Pc
  isOpen : Fd → Bool

/-- `FD_SET`. A descriptor beyond the set is written somewhere else. -/
def fdSet (fd : Fd) (set : Fd → Bool) : Fd → Bool :=
  if fd < fdSetSize then Function.update set fd true else set

def fdClr (fd : Fd) (set : Fd → Bool) : Fd → Bool := Function.update set fd false

/-- The loop that erases from `v_fds` each element that equals `v_fds[idx]`, which is read
again for every comparison. -/
def eraseLoop (idx : ℕ) (fds : List Fd) (iter : ℕ) : List Fd :=
  if iter < fds.length then
    if fds[iter]? = fds[idx]? then eraseLoop idx (fds.eraseIdx iter) iter
    else eraseLoop idx fds (iter + 1)
  else fds
termination_by fds.length - iter
decreasing_by
  · rw [List.length_eraseIdx]
    split <;> omega
  · omega

namespace Server

/-- The server listens on the first descriptor. -/
def create (socketFd : Fd) : Server where
  vFds := [socketFd]
  readFds := fdSet socketFd fun _ => false
  testFds := fun _ => false
  idx := 0
  nread := 0
  pc := .top
  isOpen := fun fd => fd = socketFd

/-- `select` returns, and the scan meets the next descriptor. -/
inductive Event
  | selected (ready : Fd → Bool)
  | timeout
  | selectFails
  | skip (fd : Fd) -- not set in `test_fds`
  | acceptFails
  | accept (fd : Fd) (fcntl : Bool)
  | client (fd : Fd) (count : ℕ) (closes : Bool)
  | scanned

/-- The descriptor the scan is at. -/
def At (s : Server) (fd : Fd) : Prop := s.pc = .scan ∧ s.vFds[s.idx]? = some fd

def Pending (socketFd : Fd) (s : Server) : Event → Prop
  | .selected _ | .timeout | .selectFails => s.pc = .top
  | .skip fd => s.At fd ∧ s.testFds fd = false
  | .acceptFails => s.At socketFd ∧ s.testFds socketFd = true
  | .accept fd _ => s.At socketFd ∧ s.testFds socketFd = true ∧ s.isOpen fd = false
  | .client fd _ _ => s.At fd ∧ s.testFds fd = true ∧ fd ≠ socketFd
  | .scanned => s.pc = .scan ∧ s.vFds.length ≤ s.idx

/-- What `ioctl` leaves in `nread`: the bytes to be read, or what was there before. -/
def ioctl (s : Server) (fd : Fd) (count : ℕ) : ℕ := if s.isOpen fd then count else s.nread

/-- The client is gone. -/
def disconnect (s : Server) (fd : Fd) : Server :=
  { s with
    isOpen := Function.update s.isOpen fd false
    readFds := fdClr fd s.readFds
    vFds := eraseLoop s.idx s.vFds 0 }

/-- `myrecv`, as far as the descriptors go: it may close the one it reads from. -/
def myrecv (s : Server) (fd : Fd) (closes : Bool) : Server :=
  if closes then { s with isOpen := Function.update s.isOpen fd false } else s

def next (s : Server) : Server := { s with idx := s.idx + 1 }

/-- A connection is accepted. Where `fcntl` fails the scan stays at the listening socket. -/
def accept (s : Server) (fd : Fd) (fcntl : Bool) : Server :=
  let s := { s with isOpen := Function.update s.isOpen fd true }
  if fcntl = false then s
  else { s with readFds := fdSet fd s.readFds, vFds := s.vFds ++ [fd] }.next

def client (s : Server) (fd : Fd) (count : ℕ) (closes : Bool) : Server :=
  let s := { s with nread := s.ioctl fd count }
  if s.nread = 0 then (s.disconnect fd).next else (s.myrecv fd closes).next

def handle (s : Server) : Event → Server
  | .selected ready =>
    { s with testFds := fun fd => s.readFds fd && ready fd, nread := 0, idx := 0, pc := .scan }
  | .timeout => s
  | .selectFails | .acceptFails => { s with pc := .exited }
  | .skip _ => s.next
  | .accept fd fcntl => s.accept fd fcntl
  | .client fd count closes => s.client fd count closes
  | .scanned => { s with pc := .top }

def Step (socketFd : Fd) (s : Server) (e : Event) (t : Server) : Prop :=
  s.Pending socketFd e ∧ t = s.handle e

/-- The two records of the descriptors agree, and each descriptor in them is open. -/
def Consistent (s : Server) : Prop :=
  s.vFds.Nodup ∧ (∀ fd, fd ∈ s.vFds ↔ s.readFds fd = true) ∧ ∀ fd ∈ s.vFds, s.isOpen fd = true

/-- At the top of the loop the records agree. -/
def TopConsistent (s : Server) : Prop := s.pc = .top → Consistent s

/-- A disconnect takes the descriptor out of `v_fds` and leaves the others there. -/
def RemovesOne (s : Server) : Event → Prop
  | .client fd count closes => s.ioctl fd count = 0 →
      ∀ other, other ∈ (s.client fd count closes).vFds ↔ other ∈ s.vFds ∧ other ≠ fd
  | _ => True

/-- A client that is gone has the last descriptor of `v_fds`, `myrecv` closes none, and a
descriptor that is accepted fits into an `fd_set`. -/
def KeepsBooks (s : Server) : Event → Prop
  | .client fd count closes =>
    if s.ioctl fd count = 0 then s.idx + 1 = s.vFds.length else closes = false
  | .accept fd fcntl => fcntl = true → fd < fdSetSize
  | _ => True

end Server

section EraseLoop

variable {idx iter : ℕ} {fds : List Fd}

/-- At the element itself the loop compares it with itself, and after it each of those
that move up. -/
theorem eraseLoop_self (hidx : idx ≤ fds.length) : eraseLoop idx fds idx = fds.take idx := by
  induction hn : fds.length - idx generalizing fds with
  | zero =>
    have hlength : fds.length = idx := by omega
    rw [eraseLoop, if_neg (by omega), List.take_of_length_le (Nat.le_of_eq hlength)]
  | succ n ih =>
    have hlt : idx < fds.length := by omega
    have hlength : (fds.eraseIdx idx).length = fds.length - 1 := by
      rw [List.length_eraseIdx, if_pos hlt]
    rw [eraseLoop, if_pos hlt, if_pos rfl, ih (by omega) (by omega),
      List.take_eraseIdx_eq_take_of_le _ _ _ (Nat.le_refl _)]

/-- Before the element nothing is erased. -/
theorem eraseLoop_of_le (hnodup : fds.Nodup) (hiter : iter ≤ idx) (hidx : idx < fds.length) :
    eraseLoop idx fds iter = fds.take idx := by
  induction hn : idx - iter generalizing iter with
  | zero =>
    have heq : iter = idx := by omega
    rw [heq, eraseLoop_self (Nat.le_of_lt hidx)]
  | succ n ih =>
    have hne : fds[iter]? ≠ fds[idx]? := by
      intro heq
      have hsame : iter = idx := (List.getElem?_inj (by omega) hnodup).mp heq
      omega
    rw [eraseLoop, if_pos (by omega), if_neg hne, ih (by omega) (by omega)]

end EraseLoop

namespace Server

variable {socketFd fd other : Fd} {s t : Server} {e : Event} {count : ℕ} {closes fcntl : Bool}
  {tr : List (Server × Event)}

theorem At.lt (h : s.At fd) : s.idx < s.vFds.length :=
  (List.getElem?_eq_some_iff.mp h.2).1

theorem At.mem (h : s.At fd) : fd ∈ s.vFds := List.mem_of_getElem? h.2

@[simp] theorem fdClr_apply (set : Fd → Bool) :
    fdClr fd set other = if other = fd then false else set other :=
  Function.update_apply ..

theorem fdSet_of_lt (h : fd < fdSetSize) (set : Fd → Bool) :
    fdSet fd set = Function.update set fd true :=
  if_pos h

/-- The descriptors left behind a disconnect are those before the one that is gone. -/
theorem vFds_disconnect (hnodup : s.vFds.Nodup) (hat : s.At fd) :
    (s.disconnect fd).vFds = s.vFds.take s.idx :=
  eraseLoop_of_le hnodup (Nat.zero_le _) hat.lt

theorem mem_take_iff (hnodup : s.vFds.Nodup) (hat : s.At fd) :
    (∀ other, other ∈ s.vFds.take s.idx ↔ other ∈ s.vFds ∧ other ≠ fd) ↔
      s.idx + 1 = s.vFds.length := by
  have hlt := hat.lt
  have hsplit : s.vFds = s.vFds.take s.idx ++ fd :: s.vFds.drop (s.idx + 1) := by
    rw [← (List.getElem?_eq_some_iff.mp hat.2).2, List.getElem_cons_drop, List.take_append_drop]
  have hnodup' := hnodup
  rw [hsplit, List.nodup_append] at hnodup'
  obtain ⟨-, hbehind, hdisjoint⟩ := hnodup'
  constructor
  · intro hall
    by_contra hne
    -- the descriptor behind is not left
    obtain ⟨next, hnext⟩ := List.exists_mem_of_ne_nil (s.vFds.drop (s.idx + 1)) (by
      rw [← List.length_pos_iff, List.length_drop]
      omega)
    have hmem : next ∈ s.vFds.take s.idx := by
      rw [hall]
      refine ⟨List.mem_of_mem_drop hnext, ?_⟩
      rintro rfl
      exact (List.nodup_cons.mp hbehind).1 hnext
    exact hdisjoint next hmem next (List.mem_cons_of_mem _ hnext) rfl
  · intro hlast other
    have hnil : s.vFds.drop (s.idx + 1) = [] := List.drop_eq_nil_of_le (Nat.le_of_eq hlast.symm)
    have hfd : fd ∉ s.vFds.take s.idx := fun hmem =>
      hdisjoint fd hmem fd (List.mem_cons_self ..) rfl
    rw [hnil] at hsplit
    constructor
    · intro hmem
      refine ⟨List.mem_of_mem_take hmem, ?_⟩
      rintro rfl
      exact hfd hmem
    · rintro ⟨hmem, hne⟩
      rw [hsplit] at hmem
      simpa [hne] using hmem

theorem client_of_gone (closes : Bool) (h : s.ioctl fd count = 0) :
    s.client fd count closes = ({ s with nread := s.ioctl fd count }.disconnect fd).next :=
  if_pos h

theorem client_of_readable (closes : Bool) (h : s.ioctl fd count ≠ 0) :
    s.client fd count closes = ({ s with nread := s.ioctl fd count }.myrecv fd closes).next :=
  if_neg h

/-- `myrecv` may close a descriptor, and does nothing else to the server. -/
theorem myrecv_eq (s : Server) (fd : Fd) (closes : Bool) : ∃ isOpen,
    s.myrecv fd closes = { s with isOpen := isOpen } ∧
      ∀ other, s.isOpen other = false → isOpen other = false := by
  unfold myrecv
  split
  · refine ⟨_, rfl, fun other hclosed => ?_⟩
    rw [Function.update_apply]
    split
    · rfl
    · exact hclosed
  · exact ⟨_, rfl, fun _ => id⟩

theorem vFds_client_of_gone (closes : Bool) (hnodup : s.vFds.Nodup) (hat : s.At fd)
    (h : s.ioctl fd count = 0) : (s.client fd count closes).vFds = s.vFds.take s.idx := by
  rw [client_of_gone _ h]
  exact vFds_disconnect (s := { s with nread := s.ioctl fd count }) hnodup hat

theorem vFds_client_of_readable (closes : Bool) (h : s.ioctl fd count ≠ 0) :
    (s.client fd count closes).vFds = s.vFds := by
  obtain ⟨isOpen, heq, -⟩ := myrecv_eq { s with nread := s.ioctl fd count } fd closes
  rw [client_of_readable _ h, heq]
  rfl

/-- A disconnect leaves the other descriptors exactly where it is that of the last. -/
theorem removesOne_iff (hnodup : s.vFds.Nodup) (hat : s.At fd) :
    RemovesOne s (.client fd count closes) ↔
      (s.ioctl fd count = 0 → s.idx + 1 = s.vFds.length) := by
  apply forall_congr'
  intro hgone
  rw [vFds_client_of_gone closes hnodup hat hgone, mem_take_iff hnodup hat]

/-- What holds while the records agree: the first descriptor is the one listened on, and
before the scan has left it every descriptor to be scanned is registered. -/
structure Good (socketFd : Fd) (s : Server) : Prop where
  consistent : Consistent s
  listens : s.vFds[0]? = some socketFd
  tested : s.pc = .scan → s.idx = 0 → ∀ fd, s.testFds fd = true → s.readFds fd = true

/-- A record that does not agree, and that the rest of the scan leaves as it is: a closed
descriptor that is passed, or one that is not registered. -/
structure Broken (socketFd : Fd) (s : Server) : Prop where
  scanning : s.pc = .scan ∧ 0 < s.idx
  listens : s.vFds[0]? = some socketFd
  nodup : s.vFds.Nodup
  bad : (∃ k < s.idx, ∃ fd, s.vFds[k]? = some fd ∧ s.isOpen fd = false) ∨
    ∃ fd ∈ s.vFds, s.readFds fd = false ∧ s.testFds fd = false

theorem good_create (hfd : socketFd < fdSetSize) : Good socketFd (create socketFd) where
  consistent := by
    refine ⟨List.nodup_singleton _, fun fd => ?_, fun fd hmem => ?_⟩
    · simp [create, fdSet_of_lt hfd, Function.update_apply]
    · simpa [create] using hmem
  listens := rfl
  tested := by rintro ⟨⟩

/-- Only the listening socket is at the head of the vector. -/
theorem At.idx_eq_zero_iff (hat : s.At fd) (hlistens : s.vFds[0]? = some socketFd)
    (hnodup : s.vFds.Nodup) : s.idx = 0 ↔ fd = socketFd := by
  constructor
  · intro hidx
    have hfd := hat.2
    rw [hidx, hlistens] at hfd
    exact (Option.some.inj hfd).symm
  · rintro rfl
    exact (List.getElem?_inj hat.lt hnodup).mp (hat.2.trans hlistens.symm)

theorem Consistent.notMem (h : Consistent s) (hclosed : s.isOpen fd = false) : fd ∉ s.vFds :=
  fun hfd => Bool.noConfusion (hclosed.symm.trans (h.2.2 fd hfd))

theorem Consistent.accept (h : Consistent s) (hclosed : s.isOpen fd = false)
    (hlt : fcntl = true → fd < fdSetSize) : Consistent (s.accept fd fcntl) := by
  have hnew : fd ∉ s.vFds := h.notMem hclosed
  obtain ⟨hnodup, hmem, hopen⟩ := h
  have hopen' (other : Fd) (hother : other ∈ s.vFds) :
      Function.update s.isOpen fd true other = true := by
    rw [Function.update_apply]
    split
    · rfl
    · exact hopen other hother
  cases fcntl with
  | false => exact ⟨hnodup, hmem, hopen'⟩
  | true =>
    refine ⟨?_, fun other => ?_, fun other hother => ?_⟩
    · exact hnodup.append (List.nodup_singleton fd) (List.disjoint_singleton.mpr hnew)
    · by_cases hfd : other = fd <;>
        simp [Server.accept, next, fdSet_of_lt (hlt rfl), hfd, hmem]
    · rcases List.mem_append.mp hother with hother | hother
      · exact hopen' other hother
      · simp [Server.accept, next, List.mem_singleton.mp hother]

/-- The last client is gone. -/
theorem Consistent.client_of_gone (h : Consistent s) (hat : s.At fd) (hgone : s.ioctl fd count = 0)
    (hlast : s.idx + 1 = s.vFds.length) : Consistent (s.client fd count closes) := by
  obtain ⟨hnodup, hmem, hopen⟩ := h
  have hvFds := vFds_client_of_gone closes hnodup hat hgone
  have hleft := (mem_take_iff hnodup hat).mpr hlast
  rw [Server.client_of_gone _ hgone] at hvFds ⊢
  refine ⟨?_, fun other => ?_, fun other hother => ?_⟩
  · rw [hvFds]
    exact (List.take_sublist _ _).nodup hnodup
  · rw [hvFds, hleft]
    simp [disconnect, next, hmem, and_comm]
  · rw [hvFds, hleft] at hother
    simpa [disconnect, next, Function.update_apply, hother.2] using hopen other hother.1

theorem Consistent.client_of_readable (h : Consistent s) (hreadable : s.ioctl fd count ≠ 0)
    (hcloses : closes = false) : Consistent (s.client fd count closes) := by
  rw [Server.client_of_readable _ hreadable, hcloses]
  exact h

/-- A step within the guard keeps the records in agreement. -/
theorem Good.step (h : Good socketFd s) (hs : Step socketFd s e t) (hok : KeepsBooks s e) :
    Good socketFd t := by
  obtain ⟨hp, rfl⟩ := hs
  obtain ⟨hconsistent, hlistens, htested⟩ := id h
  cases e with
  | selected ready =>
    refine ⟨hconsistent, hlistens, fun _ _ fd hfd => ?_⟩
    exact (Bool.and_eq_true _ _ ▸ hfd).1
  | timeout => exact h
  | selectFails => exact ⟨hconsistent, hlistens, by rintro ⟨⟩⟩
  | skip fd => exact ⟨hconsistent, hlistens, by rintro - ⟨⟩⟩
  | acceptFails => exact ⟨hconsistent, hlistens, by rintro ⟨⟩⟩
  | accept fd fcntl =>
    refine ⟨hconsistent.accept hp.2.2 hok, ?_, ?_⟩
    · cases fcntl with
      | false => exact hlistens
      | true =>
        have hpos : 0 < s.vFds.length := Nat.lt_of_le_of_lt (Nat.zero_le _) hp.1.lt
        exact (List.getElem?_append_left hpos).trans hlistens
    · cases fcntl with
      | false => exact htested
      | true => rintro - ⟨⟩
  | client fd count closes =>
    have hlisten : 0 < s.idx := by
      rw [Nat.pos_iff_ne_zero, Ne, hp.1.idx_eq_zero_iff hlistens hconsistent.1]
      exact hp.2.2
    by_cases hgone : s.ioctl fd count = 0
    · have hlast : s.idx + 1 = s.vFds.length := by simpa [KeepsBooks, hgone] using hok
      refine ⟨hconsistent.client_of_gone hp.1 hgone hlast, ?_, ?_⟩
      · rw [handle, vFds_client_of_gone closes hconsistent.1 hp.1 hgone,
          List.getElem?_take_of_lt hlisten]
        exact hlistens
      · rw [handle, Server.client_of_gone _ hgone]
        rintro - ⟨⟩
    · have hcloses : closes = false := by simpa [KeepsBooks, hgone] using hok
      refine ⟨hconsistent.client_of_readable hgone hcloses, ?_, ?_⟩
      · rw [handle, vFds_client_of_readable closes hgone]
        exact hlistens
      · rw [handle, Server.client_of_readable _ hgone, hcloses]
        rintro - ⟨⟩
  | scanned => exact ⟨hconsistent, hlistens, by rintro ⟨⟩⟩

theorem Good.removesOne (h : Good socketFd s) (hs : Step socketFd s e t) (hok : KeepsBooks s e) :
    RemovesOne s e := by
  obtain ⟨hp, -⟩ := hs
  cases e with
  | client fd count closes =>
    rw [removesOne_iff h.consistent.1 hp.1]
    intro hgone
    simpa [KeepsBooks, hgone] using hok
  | _ => trivial

/-- A step beyond the guard takes out more than one descriptor, or breaks a record. -/
theorem Good.broken (h : Good socketFd s) (hs : Step socketFd s e t) (hnot : ¬ KeepsBooks s e) :
    ¬ RemovesOne s e ∨ Broken socketFd t := by
  obtain ⟨hp, rfl⟩ := hs
  obtain ⟨hconsistent, hlistens, htested⟩ := id h
  cases e with
  | accept fd fcntl =>
    obtain ⟨rfl, hge⟩ := Classical.not_imp.mp hnot
    have hnew : fd ∉ s.vFds := hconsistent.notMem hp.2.2
    have hidx : s.idx = 0 := (hp.1.idx_eq_zero_iff hlistens hconsistent.1).mpr rfl
    have hread : s.readFds fd = false := by
      rw [← Bool.not_eq_true, ← hconsistent.2.1]
      exact hnew
    have htest : s.testFds fd = false := by
      rw [← Bool.not_eq_true]
      exact fun htest => Bool.noConfusion (hread.symm.trans (htested hp.1.1 hidx fd htest))
    refine .inr ⟨⟨hp.1.1, Nat.succ_pos _⟩, ?_, ?_, .inr ⟨fd, ?_, ?_, htest⟩⟩
    · have hpos : 0 < s.vFds.length := Nat.lt_of_le_of_lt (Nat.zero_le _) hp.1.lt
      exact (List.getElem?_append_left hpos).trans hlistens
    · exact hconsistent.1.append (List.nodup_singleton fd) (List.disjoint_singleton.mpr hnew)
    · exact List.mem_append_right _ (List.mem_singleton_self fd)
    · simpa [handle, Server.accept, next, fdSet, hge] using hread
  | client fd count closes =>
    by_cases hgone : s.ioctl fd count = 0
    · left
      rw [removesOne_iff hconsistent.1 hp.1]
      simpa [KeepsBooks, hgone] using hnot
    · have hcloses : closes = true := by simpa [KeepsBooks, hgone] using hnot
      right
      rw [handle, Server.client_of_readable _ hgone, hcloses]
      refine ⟨⟨hp.1.1, Nat.succ_pos _⟩, hlistens, hconsistent.1,
        .inl ⟨s.idx, Nat.lt_succ_self _, fd, hp.1.2, ?_⟩⟩
      simp [myrecv, next]
  | _ => exact absurd trivial hnot

/-- A broken record stays broken up to the top of the loop, unless a disconnect takes out
more than one descriptor. -/
theorem Broken.step (h : Broken socketFd s) (hs : Step socketFd s e t) (hone : RemovesOne s e) :
    Broken socketFd t ∨ t.pc = .top ∧ ¬ Consistent t := by
  obtain ⟨hp, rfl⟩ := hs
  obtain ⟨⟨hscan, hidx⟩, hlistens, hnodup, hbad⟩ := h
  -- the scan has passed the listening socket
  have hpassed (hat : s.At socketFd) : False :=
    Nat.ne_of_gt hidx ((hat.idx_eq_zero_iff hlistens hnodup).mpr rfl)
  cases e with
  | selected ready => cases hscan.symm.trans hp
  | timeout => cases hscan.symm.trans hp
  | selectFails => cases hscan.symm.trans hp
  | skip fd =>
    refine .inl ⟨⟨hscan, Nat.succ_pos _⟩, hlistens, hnodup, hbad.imp_left ?_⟩
    rintro ⟨k, hk, hclosed⟩
    exact ⟨k, Nat.lt_succ_of_lt hk, hclosed⟩
  | acceptFails => exact (hpassed hp.1).elim
  | accept fd fcntl => exact (hpassed hp.1).elim
  | client fd count closes =>
    left
    by_cases hgone : s.ioctl fd count = 0
    · have hvFds := vFds_client_of_gone closes hnodup hp.1 hgone
      have hleft := hone hgone
      rw [hvFds] at hleft
      rw [handle]
      rw [client_of_gone _ hgone] at hvFds ⊢
      refine ⟨⟨hscan, Nat.succ_pos _⟩, ?_, ?_, ?_⟩
      · rw [hvFds, List.getElem?_take_of_lt hidx]
        exact hlistens
      · rw [hvFds]
        exact (List.take_sublist _ _).nodup hnodup
      · rw [hvFds]
        rcases hbad with ⟨k, hk, other, hother, hclosed⟩ | ⟨other, hmem, hread, htest⟩
        · refine .inl ⟨k, Nat.lt_succ_of_lt hk, other, ?_, ?_⟩
          · rw [List.getElem?_take_of_lt hk]
            exact hother
          · simp [disconnect, next, Function.update_apply, hclosed]
        · have hne : other ≠ fd := by
            rintro rfl
            exact Bool.noConfusion (htest.symm.trans hp.2.1)
          refine .inr ⟨other, (hleft other).mpr ⟨hmem, hne⟩, ?_, htest⟩
          simp [disconnect, next, hread]
    · obtain ⟨isOpen, heq, hstays⟩ := myrecv_eq { s with nread := s.ioctl fd count } fd closes
      rw [handle, client_of_readable _ hgone, heq]
      refine ⟨⟨hscan, Nat.succ_pos _⟩, hlistens, hnodup, hbad.imp_left ?_⟩
      rintro ⟨k, hk, other, hother, hclosed⟩
      exact ⟨k, Nat.lt_succ_of_lt hk, other, hother, hstays other hclosed⟩
  | scanned =>
    refine .inr ⟨rfl, fun hconsistent => ?_⟩
    rcases hbad with ⟨k, -, fd, hfd, hclosed⟩ | ⟨fd, hfd, hread, -⟩
    · exact hconsistent.notMem hclosed (List.mem_of_getElem? hfd)
    · exact Bool.noConfusion (hread.symm.trans ((hconsistent.2.1 fd).mp hfd))

/-- A run without fault: the records agree whenever the loop is at its top, and every
disconnect takes out one descriptor. -/
def KeptBooks (tr : List (Server × Event)) (s : Server) : Prop :=
  Throughout TopConsistent tr s ∧ AllSteps RemovesOne tr

theorem keptBooks_append : KeptBooks (tr ++ [(s, e)]) t ↔
    KeptBooks tr s ∧ TopConsistent t ∧ RemovesOne s e := by
  rw [KeptBooks, KeptBooks, throughout_append, allSteps_append]
  tauto

/-- A run has kept to the guard, or shows a fault, or has a broken record that the scan has
not finished with. -/
theorem run_cases (hfd : socketFd < fdSetSize)
    (h : Run (Step socketFd) (create socketFd) tr s) :
    AllSteps KeepsBooks tr ∧ Good socketFd s ∧ KeptBooks tr s ∨
      ¬ AllSteps KeepsBooks tr ∧ (KeptBooks tr s → Broken socketFd s) := by
  induction h with
  | start =>
    have hgood := good_create hfd
    exact .inl ⟨by simp [AllSteps], hgood, ⟨by simp, fun _ => hgood.consistent⟩, by simp [AllSteps]⟩
  | @next tr s t e hr hs ih =>
    rw [allSteps_append, keptBooks_append]
    rcases ih with ⟨hok, hgood, hkept⟩ | ⟨hnot, hbroken⟩
    · by_cases he : KeepsBooks s e
      · have ht := hgood.step hs he
        exact .inl ⟨⟨hok, he⟩, ht, hkept, fun _ => ht.consistent, hgood.removesOne hs he⟩
      · refine .inr ⟨fun h => he h.2, fun h => ?_⟩
        exact (hgood.broken hs he).resolve_left (not_not_intro h.2.2)
    · refine .inr ⟨fun h => hnot h.1, ?_⟩
      rintro ⟨hkept, htop, hone⟩
      rcases (hbroken hkept).step hs hone with ht | ⟨hpc, hfault⟩
      · exact ht
      · exact absurd (htop hpc) hfault

/-- When every step meets the guard, the records agree at the top of the loop throughout,
and every disconnect takes out one descriptor; a run that comes back to the top and is
without fault has met the guard in every step. -/
theorem run_keptBooks_iff (hfd : socketFd < fdSetSize)
    (h : Run (Step socketFd) (create socketFd) tr s) :
    (AllSteps KeepsBooks tr → KeptBooks tr s) ∧
      (s.pc = .top → KeptBooks tr s → AllSteps KeepsBooks tr) := by
  rcases run_cases hfd h with ⟨hok, -, hkept⟩ | ⟨hnot, hbroken⟩
  · exact ⟨fun _ => hkept, fun _ _ => hok⟩
  · refine ⟨fun hok => absurd hok hnot, fun htop hkept => ?_⟩
    cases htop.symm.trans (hbroken hkept).scanning.1

instance (s : Server) (fd : Fd) : Decidable (s.At fd) := inferInstanceAs (Decidable (_ ∧ _))

instance : ∀ s e, Decidable (Pending socketFd s e)
  | _, .selected _ | _, .timeout | _, .selectFails => inferInstanceAs (Decidable (_ = _))
  | s, .skip fd => inferInstanceAs (Decidable (s.At fd ∧ _ = _))
  | s, .acceptFails => inferInstanceAs (Decidable (s.At socketFd ∧ _ = _))
  | s, .accept .. => inferInstanceAs (Decidable (s.At socketFd ∧ _ = _ ∧ _ = _))
  | s, .client fd _ _ => inferInstanceAs (Decidable (s.At fd ∧ _ = _ ∧ _ ≠ _))
  | _, .scanned => inferInstanceAs (Decidable (_ = _ ∧ _ ≤ _))

instance : ∀ s e, Decidable (KeepsBooks s e)
  | s, .client fd count closes =>
    inferInstanceAs (Decidable (if s.ioctl fd count = 0 then _ = _ else closes = false))
  | _, .accept fd fcntl => inferInstanceAs (Decidable (fcntl = true → fd < fdSetSize))
  | _, .selected _ | _, .timeout | _, .selectFails | _, .skip _ | _, .acceptFails
  | _, .scanned => .isTrue trivial

theorem run_of_events (es : List Event)
    (h : Follows (Pending socketFd) handle (create socketFd) es) :
    Run (Step socketFd) (create socketFd) (steps handle (create socketFd) es)
      (es.foldl handle (create socketFd)) :=
  Run.start.follow (fun _ _ hp => ⟨hp, rfl⟩) h

/-- A client connects, and `select` finds nothing else. -/
def connects (fd : Fd) (others : List Fd) : List Event :=
  [.selected fun ready => ready = 3, .accept fd true] ++ (others ++ [fd]).map .skip ++ [.scanned]

/-- One client connects, sends five bytes, and is gone. -/
def oneClient : List Event :=
  connects 4 [] ++ [.selected fun ready => ready = 4, .skip 3, .client 4 5 false, .scanned,
    .selected fun ready => ready = 4, .skip 3, .client 4 0 false]

theorem run_keptBooks_oneClient : KeptBooks (steps handle (create 3) oneClient)
    (oneClient.foldl handle (create 3)) :=
  (run_keptBooks_iff (by decide) (run_of_events oneClient (by decide))).1 (by decide)

/-- Two clients are connected, and `select` finds the first of them readable. -/
def twoClients : List Event :=
  connects 4 [] ++ connects 5 [4] ++ [.selected fun ready => ready = 4, .skip 3]

def twoReady : Server := twoClients.foldl handle (create 3)

/-- The first of two clients is gone: the second is taken out of `v_fds` with it, and stays
registered. -/
theorem not_topConsistent_twoClients : ∃ tr s, Run (Step 3) (create 3) tr s ∧
    s.vFds = [3] ∧ s.readFds 5 = true ∧ s.isOpen 5 = true ∧ ¬ TopConsistent s := by
  have hfollows : Follows (Pending 3) handle (create 3) twoClients := by decide
  have hgone : twoReady.ioctl 4 0 = 0 := by decide
  have heq := client_of_gone false hgone
  have hvFds : (twoReady.client 4 0 false).vFds = [3] :=
    (vFds_client_of_gone false (by decide) (by decide) hgone).trans (by decide)
  have hread : (twoReady.client 4 0 false).readFds 5 = true := by
    rw [heq]
    decide
  have hopen : (twoReady.client 4 0 false).isOpen 5 = true := by
    rw [heq]
    decide
  have hclient : Step 3 twoReady (.client 4 0 false) (twoReady.client 4 0 false) :=
    ⟨by decide, rfl⟩
  have hscanned : Step 3 (twoReady.client 4 0 false) .scanned
      { twoReady.client 4 0 false with pc := .top } := by
    refine ⟨⟨?_, ?_⟩, rfl⟩
    · rw [heq]
      rfl
    · rw [hvFds, heq]
      decide
  refine ⟨_, _, ((run_of_events _ hfollows).next hclient).next hscanned, hvFds, hread, hopen, ?_⟩
  intro hconsistent
  have hmem : 5 ∈ (twoReady.client 4 0 false).vFds := ((hconsistent rfl).2.1 5).mpr hread
  rw [hvFds] at hmem
  exact absurd hmem (by decide)

end Server

end Vs17.Select
