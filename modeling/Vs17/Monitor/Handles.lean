import Vs17.Library.Resources
import Vs17.Library.Runs

/-! # Process handles

`getProcess_Win` opens the processes of a snapshot, asks about each process of
`mlistProcess` through its handle, and closes the handle of each. The list is a member of
the monitor and is never emptied.
-/

namespace Vs17.Monitor

open Runs

abbrev Handle := ℕ

/-- What is read of a `PROCESSENTRY32`. -/
structure ProcessEntry where
  szExeFile : String
  th32ProcessID : ℕ
  cntThreads : ℕ
  deriving DecidableEq, Repr

structure ProcessInfo where
  handle : Handle
  processName : String
  pid : ℕ
  threadCount : ℕ
  deriving DecidableEq, Repr

/-- What one call meets: the snapshot's handle (none if it fails), the processes it lists,
each with the handle `OpenProcess` returns for it, and the outcome of what else is asked. -/
structure Snapshot where
  hProcessSnap : Option Handle
  entries : List (ProcessEntry × Option Handle)
  windows8OrGreater : Bool
  badLength : Handle → Bool
  fopen : Bool

structure ProcessMonitor where
  mlistProcess : List ProcessInfo
  handles : Resources Handle
  deriving DecidableEq, Repr

def ProcessMonitor.init : ProcessMonitor := ⟨[], .empty⟩

def closeHandle (h : Handle) (s : ProcessMonitor) : ProcessMonitor :=
  { s with handles := s.handles.release h }

/-- `Process32First` and `Process32Next` -/
def readSnapshot (h : Handle) (s : ProcessMonitor) : ProcessMonitor :=
  { s with handles := s.handles.use h }

/-- The body of the loop over the snapshot; `continue` goes on to the loop's condition. -/
def openProcess (s : ProcessMonitor) : ProcessEntry × Option Handle → ProcessMonitor
  | (_, none) => s
  | (pe32, some hProcess) =>
    let tmpProcess : ProcessInfo :=
      ⟨hProcess, pe32.szExeFile, pe32.th32ProcessID, pe32.cntThreads⟩
    ⟨s.mlistProcess ++ [tmpProcess], s.handles.acquire hProcess⟩

def getProcessListWin (e : Snapshot) (s : ProcessMonitor) : ProcessMonitor :=
  match e.hProcessSnap with
  | none => s
  | some hProcessSnap =>
    let s := readSnapshot hProcessSnap { s with handles := s.handles.acquire hProcessSnap }
    match e.entries with
    | [] => closeHandle hProcessSnap s -- `Process32First` fails
    | entries => closeHandle hProcessSnap
        (entries.foldl (fun s x => readSnapshot hProcessSnap (openProcess s x)) s)

/-- `GetProcessTimes` for each process, and again after a second. -/
def getProcessCPUWin (l : List ProcessInfo) (t : Resources Handle) : Resources Handle :=
  (t.useAll (l.map (·.handle))).useAll (l.map (·.handle))

/-- `QueryWorkingSet`, once more if the buffer was too short, or `GetProcessMemoryInfo`. -/
def getProcessMemoryWin (e : Snapshot) (hProcess : Handle) (t : Resources Handle) :
    Resources Handle :=
  if e.windows8OrGreater ∧ e.badLength hProcess then (t.use hProcess).use hProcess
  else t.use hProcess

/-- `QueryFullProcessImageName` for each process, unless the file cannot be opened. -/
def getCMDLine (e : Snapshot) (l : List ProcessInfo) (t : Resources Handle) : Resources Handle :=
  if e.fopen then t.useAll (l.map (·.handle)) else t

def getProcessWin (e : Snapshot) (s : ProcessMonitor) : ProcessMonitor :=
  let s := getProcessListWin e s
  let t := getProcessCPUWin s.mlistProcess s.handles
  let t := s.mlistProcess.foldl (fun t p => getProcessMemoryWin e p.handle t) t
  let t := getCMDLine e s.mlistProcess t
  { s with handles := t.releaseAll (s.mlistProcess.map (·.handle)) }

/-- The processes that could be opened. -/
def openedIn (l : List (ProcessEntry × Option Handle)) : List ProcessInfo :=
  l.filterMap fun x => x.2.map fun h => ⟨h, x.1.szExeFile, x.1.th32ProcessID, x.1.cntThreads⟩

def Snapshot.processes (e : Snapshot) : List ProcessInfo :=
  if e.hProcessSnap.isNone then [] else openedIn e.entries

/-- The handles of these processes. -/
def Snapshot.processHandles (e : Snapshot) : List Handle := e.processes.map (·.handle)

/-- A handle that is handed out is not in use. -/
def Enabled (s : ProcessMonitor) (e : Snapshot) : Prop :=
  (e.hProcessSnap.toList ++ e.processHandles ++ s.handles.live).Nodup

instance (s : ProcessMonitor) (e : Snapshot) : Decidable (Enabled s e) :=
  inferInstanceAs (Decidable (List.Nodup _))

/-- The calls one after another, each with what it meets. -/
def Step (s : ProcessMonitor) (e : Snapshot) (t : ProcessMonitor) : Prop :=
  Enabled s e ∧ t = getProcessWin e s

/-- Every handle opened so far has been closed exactly once, none was used or closed when it
was not open, and the list is that of the processes just opened. -/
def Right (e : Snapshot) (s : ProcessMonitor) : Prop :=
  s.handles.Balanced ∧ s.mlistProcess = e.processes

section Queries

variable {l : List ProcessInfo} {t : Resources Handle} (e : Snapshot)

theorem useAll_handles (h : ∀ p ∈ l, p.handle ∈ t.live) : t.useAll (l.map (·.handle)) = t :=
  Resources.useAll_of_subset (List.forall_mem_map.mpr h)

theorem getProcessCPUWin_eq (h : ∀ p ∈ l, p.handle ∈ t.live) : getProcessCPUWin l t = t := by
  rw [getProcessCPUWin, useAll_handles h, useAll_handles h]

theorem foldl_getProcessMemoryWin (h : ∀ p ∈ l, p.handle ∈ t.live) :
    l.foldl (fun t p => getProcessMemoryWin e p.handle t) t = t := by
  induction l with
  | nil => rfl
  | cons p l ih =>
    have hp : getProcessMemoryWin e p.handle t = t := by
      rw [getProcessMemoryWin, Resources.use_of_mem (h p (by simp)),
        Resources.use_of_mem (h p (by simp)), ite_self]
    rw [List.foldl_cons, hp]
    exact ih fun q hq => h q (by simp [hq])

theorem getCMDLine_eq (h : ∀ p ∈ l, p.handle ∈ t.live) : getCMDLine e l t = t := by
  rw [getCMDLine, useAll_handles h, ite_self]

end Queries

section Call

variable {s : ProcessMonitor} {e : Snapshot}

theorem foldl_openProcess {h : Handle} (l : List (ProcessEntry × Option Handle))
    (hh : h ∈ s.handles.live) :
    l.foldl (fun s x => readSnapshot h (openProcess s x)) s =
      ⟨s.mlistProcess ++ openedIn l, ⟨((openedIn l).map (·.handle)).reverse ++ s.handles.live,
        s.handles.misused⟩⟩ := by
  induction l generalizing s with
  | nil => simp [openedIn]
  | cons x l ih =>
    have hmem : h ∈ (openProcess s x).handles.live := by
      obtain ⟨pe32, _ | hProcess⟩ := x
      · exact hh
      · exact List.mem_cons_of_mem _ hh
    have hread : readSnapshot h (openProcess s x) = openProcess s x := by
      rw [readSnapshot, Resources.use_of_mem hmem]
    rw [List.foldl_cons, hread, ih hmem]
    obtain ⟨pe32, _ | hProcess⟩ := x <;> simp [openProcess, openedIn]

/-- The snapshot's own handle is closed again; those of its processes are open, and the
processes are behind what the list held before. -/
theorem getProcessListWin_eq (he : Enabled s e) : getProcessListWin e s =
    ⟨s.mlistProcess ++ e.processes, ⟨e.processHandles.reverse ++ s.handles.live,
      s.handles.misused⟩⟩ := by
  obtain ⟨snap, entries, w, b, f⟩ := e
  rcases snap with _ | h
  · simp [getProcessListWin, Snapshot.processHandles, Snapshot.processes]
  · have hread : readSnapshot h { s with handles := s.handles.acquire h } =
        { s with handles := s.handles.acquire h } := by
      rw [readSnapshot, Resources.use_of_mem (by simp)]
    have hwalk : ∀ l, getProcessListWin ⟨some h, l, w, b, f⟩ s = closeHandle h
        (l.foldl (fun s x => readSnapshot h (openProcess s x))
          { s with handles := s.handles.acquire h }) := by
      rintro (_ | ⟨x, l⟩)
      · simp only [getProcessListWin, hread, List.foldl_nil]
      · simp only [getProcessListWin, hread]
    have hnot : h ∉ ((openedIn entries).map (·.handle)).reverse := by
      rw [Enabled, Option.toList_some, List.append_assoc, List.singleton_append,
        List.nodup_cons] at he
      rw [List.mem_reverse]
      exact fun hm => he.1 (List.mem_append_left _ hm)
    rw [hwalk, foldl_openProcess entries (by simp), closeHandle]
    simp [Resources.release, List.erase_append_right _ hnot, Snapshot.processHandles,
      Snapshot.processes]

theorem mlistProcess_getProcessWin (he : Enabled s e) :
    (getProcessWin e s).mlistProcess = s.mlistProcess ++ e.processes := by
  rw [getProcessWin, getProcessListWin_eq he]

/-- A call with an empty list closes what it opened. -/
theorem getProcessWin_right (he : Enabled s e) (hs : s.handles.Balanced)
    (hlist : s.mlistProcess = []) : Right e (getProcessWin e s) := by
  constructor
  · obtain ⟨hlive, hmis⟩ := hs
    have hmem : ∀ p ∈ e.processes, p.handle ∈ e.processHandles.reverse := fun p hp => by
      simpa [Snapshot.processHandles] using ⟨p, hp, rfl⟩
    rw [getProcessWin, getProcessListWin_eq he, hlist, hlive, hmis]
    simp only [List.nil_append, List.append_nil]
    rw [getProcessCPUWin_eq hmem, foldl_getProcessMemoryWin e hmem, getCMDLine_eq e hmem,
      Resources.releaseAll_of_perm (List.reverse_perm _)]
    exact ⟨rfl, rfl⟩
  · rw [mlistProcess_getProcessWin he, hlist, List.nil_append]

end Call

section Calls

variable {s : ProcessMonitor} {tr : List (ProcessMonitor × Snapshot)}

/-- Calls that each meet an empty list leave no handle open and misuse none. -/
theorem balanced_of_empty (h : Run Step .init tr s)
    (hempty : AllSteps (fun s _ => s.mlistProcess = []) tr) :
    Throughout (fun s => s.handles.Balanced) tr s := by
  apply (h.restrict hempty).invariant Resources.balanced_empty
  rintro s e t hs ⟨⟨he, rfl⟩, hlist⟩
  exact (getProcessWin_right he hs hlist).1

/-- Over any sequence of calls: all of them are right exactly when the list is empty
whenever the monitor is asked, that is, when no earlier call opened a process. -/
theorem run_right_iff (h : Run Step .init tr s) :
    (∀ x ∈ tr, Right x.2 (getProcessWin x.2 x.1)) ↔
      AllSteps (fun s _ => s.mlistProcess = []) tr := by
  constructor
  · intro hright x hx
    obtain ⟨_, he, _⟩ := h.exists_step hx
    have hlist := (hright x hx).2
    rw [mlistProcess_getProcessWin he] at hlist
    exact List.self_eq_append_left.mp hlist.symm
  · intro hempty x hx
    obtain ⟨_, he, _⟩ := h.exists_step hx
    exact getProcessWin_right he ((balanced_of_empty h hempty).1 x hx) (hempty x hx)

/-- A snapshot of one process, and what `OpenProcess` returns for it. -/
def oneProcess (hProcess : Option Handle) : Snapshot :=
  ⟨some 8, [(⟨"explorer.exe", 4012, 61⟩, hProcess)], true, fun _ => false, true⟩

theorem run_calls (es : List Snapshot) (h : Follows Enabled (flip getProcessWin) .init es) :
    Run Step .init (steps (flip getProcessWin) .init es) (es.foldl (flip getProcessWin) .init) :=
  Run.follow (fun _ _ he => ⟨he, rfl⟩) .start h

/-- Nothing opened by the first call, one process by the second. -/
theorem run_right_refused_opened : ∃ tr s, Run Step .init tr s ∧ tr.length = 2 ∧
    ∀ x ∈ tr, Right x.2 (getProcessWin x.2 x.1) := by
  have hrun := run_calls [oneProcess none, oneProcess (some 12)] (by decide)
  exact ⟨_, _, hrun, rfl, (run_right_iff hrun).mpr (by decide)⟩

/-- One process opened by each of two calls: the second asks about the first one through its
closed handle, closes it again, and still has it in the list. -/
theorem not_right_opened_opened : ∃ tr s, Run Step .init tr s ∧ s.handles.misused = true ∧
    ¬ ∀ x ∈ tr, Right x.2 (getProcessWin x.2 x.1) := by
  refine ⟨_, _, run_calls [oneProcess (some 12), oneProcess (some 16)] (by decide), by decide,
    fun hright => ?_⟩
  have hlist := (hright _ (List.mem_cons_of_mem _ List.mem_cons_self)).2
  exact absurd hlist (by decide)

end Calls

end Vs17.Monitor
