import Vs17.Library.Counters
import Vs17.Monitor.IOStatistic
import Mathlib.Data.Rat.Cast.Order
import Mathlib.Algebra.Order.Field.Basic
import Mathlib.Algebra.BigOperators.Ring.Finset
import Mathlib.Algebra.Order.BigOperators.Group.List
import Mathlib.Tactic.Linarith

/-! # CPU usage

`getCPUUsage` asks for the times of the cores twice, a second apart. `getCPUTime` takes the
differences of each core in the array it is given, and those of the sums in static variables,
which keep their values from one call of `getCPUUsage` to the next.
-/

namespace Vs17.Monitor.CpuUsage

open Counters CString
open IOStatistic (UInt64Delta updateDelta)

/-- The times of a core. The kernel time includes the idle time. -/
structure ProcessorTimes where
  IdleTime : UInt64
  KernelTime : UInt64
  UserTime : UInt64
  deriving DecidableEq, Repr

structure CPUTime where
  szName : Bytes
  lluKernelTime : UInt64Delta
  lluUserTime : UInt64Delta
  lluIdleTime : UInt64Delta
  deriving DecidableEq, Repr

structure CPUCoreRate where
  cpuName : Bytes
  rate : ℚ
  deriving DecidableEq, Repr

/-- The static variables of `getCPUTime`, and the members of the object. -/
structure CpuInfo where
  cpu_kernel_delta : UInt64Delta
  cpu_user_delta : UInt64Delta
  cpu_idle_delta : UInt64Delta
  mn_cpuCores : ℕ
  m_cpuTotalUsage : ℚ
  mv_cores : List CPUCoreRate

/-- The three times that the loop adds up in `cpu_totals`. -/
structure Totals where
  KernelTime : UInt64
  UserTime : UInt64
  IdleTime : UInt64

/-- `x * 100.0 / y`. There is no result for a division by zero. -/
def percent (x y : UInt64) : Option ℚ :=
  if y = 0 then none else some (x.toNat * 100 / y.toNat)

/-- A rate, and 0 if no time has passed. -/
def usage (busy time : UInt64) : Option ℚ := if time ≠ 0 then percent busy time else some 0

/-- The kernel time without the idle time. -/
def ProcessorTimes.kernel (cpu_info : ProcessorTimes) : UInt64 :=
  cpu_info.KernelTime - cpu_info.IdleTime

def CPUTime.update (core : CPUTime) (cpu_info : ProcessorTimes) : CPUTime where
  szName := core.szName
  lluKernelTime := updateDelta core.lluKernelTime cpu_info.kernel
  lluUserTime := updateDelta core.lluUserTime cpu_info.UserTime
  lluIdleTime := updateDelta core.lluIdleTime cpu_info.IdleTime

def CPUTime.busy (core : CPUTime) : UInt64 := core.lluKernelTime.Delta + core.lluUserTime.Delta

def CPUTime.time (core : CPUTime) : UInt64 := core.busy + core.lluIdleTime.Delta

def Totals.add (cpu_totals : Totals) (cpu_info : ProcessorTimes) : Totals where
  KernelTime := cpu_totals.KernelTime + cpu_info.kernel
  UserTime := cpu_totals.UserTime + cpu_info.UserTime
  IdleTime := cpu_totals.IdleTime + cpu_info.IdleTime

/-- The loop over the cores: the array `cpu_cores_time`, the sums and the rates behind it. -/
def coreRounds (getUsage : ℤ) : List ProcessorTimes → List CPUTime → Totals → List CPUCoreRate →
    Option (List CPUTime × Totals × List CPUCoreRate)
  | [], cores, cpu_totals, mv_cores => some (cores, cpu_totals, mv_cores)
  | _ :: _, [], _, _ => none
  | cpu_info :: infos, core :: cores, cpu_totals, mv_cores => do
    let core := core.update cpu_info
    let mv_cores ←
      if getUsage ≠ 0 then do
        let rate ← usage core.busy core.time
        some (mv_cores ++ [⟨core.szName, rate⟩])
      else some mv_cores
    let (cores, cpu_totals, mv_cores) ←
      coreRounds getUsage infos cores (cpu_totals.add cpu_info) mv_cores
    return (core :: cores, cpu_totals, mv_cores)

def getCPUTime (getUsage : ℤ) (infos : List ProcessorTimes) (cores : List CPUTime)
    (s : CpuInfo) : Option (List CPUTime × CpuInfo) := do
  let (cores, cpu_totals, mv_cores) ← coreRounds getUsage infos cores ⟨0, 0, 0⟩ s.mv_cores
  let kernel := updateDelta s.cpu_kernel_delta cpu_totals.KernelTime
  let user := updateDelta s.cpu_user_delta cpu_totals.UserTime
  let idle := updateDelta s.cpu_idle_delta cpu_totals.IdleTime
  let total_time := kernel.Delta + user.Delta + idle.Delta
  let sys_time := kernel.Delta + user.Delta
  let total ← if getUsage ≠ 0 then usage sys_time total_time else some s.m_cpuTotalUsage
  return (cores, ⟨kernel, user, idle, s.mn_cpuCores, total, mv_cores⟩)

/-- What the two queries of a call give for the same cores. -/
structure Snapshots where
  first : List ProcessorTimes
  second : List ProcessorTimes
  length_eq : second.length = first.length

def coreName (i : ℕ) : Bytes := ascii ("CPU " ++ toString i)

/-- The new array of `getCPUUsage`. -/
def newCores (nCores : ℕ) : List CPUTime :=
  (List.range nCores).map fun i => ⟨coreName i, ⟨0, 0⟩, ⟨0, 0⟩, ⟨0, 0⟩⟩

def getCPUUsage (s : CpuInfo) (t : Snapshots) : Option CpuInfo := do
  let nCores := t.first.length
  let s := { s with mn_cpuCores := nCores, mv_cores := [] }
  let (cores, s) ← getCPUTime 0 t.first (newCores nCores) s
  let (_, s) ← getCPUTime 1 t.second cores s
  return s

/-- Calls one after another. -/
def getCPUUsages (s : CpuInfo) (calls : List Snapshots) : Option CpuInfo :=
  calls.foldlM getCPUUsage s

/-- A core between the two queries. -/
abbrev Interval := ProcessorTimes × ProcessorTimes

namespace Interval

def idle (p : Interval) : ℕ := p.2.IdleTime.toNat - p.1.IdleTime.toNat
def user (p : Interval) : ℕ := p.2.UserTime.toNat - p.1.UserTime.toNat
def kernel (p : Interval) : ℕ := p.2.KernelTime.toNat - p.1.KernelTime.toNat

/-- The elapsed time. -/
def elapsed (p : Interval) : ℕ := kernel p + user p

def busy (p : Interval) : ℕ := kernel p - idle p + user p

def rate (p : Interval) : ℚ := busy p * 100 / elapsed p

/-- No time decreases, and the kernel time grows by at least as much as the idle time. -/
structure Advances (p : Interval) : Prop where
  idle_le : p.1.IdleTime ≤ p.2.IdleTime
  user_le : p.1.UserTime ≤ p.2.UserTime
  kernel_le : p.1.KernelTime ≤ p.2.KernelTime
  idle_le_kernel : idle p ≤ kernel p

end Interval

def Snapshots.intervals (t : Snapshots) : List Interval := t.first.zip t.second

/-- The elapsed time of all cores together. -/
def Snapshots.elapsed (t : Snapshots) : ℕ := (t.intervals.map Interval.elapsed).sum

/-- There is an entry for each core, in the order of the cores, and the total is the mean of the
rates weighted by the elapsed times. -/
structure Reports (t : Snapshots) (cores : List CPUCoreRate) (total : ℚ) : Prop where
  entries : cores = t.intervals.mapIdx fun i p => ⟨coreName i, Interval.rate p⟩
  rate_mem : ∀ c ∈ cores, 0 ≤ c.rate ∧ c.rate ≤ 100
  total_mem : 0 ≤ total ∧ total ≤ 100
  total_eq : total =
    (List.zipWith (fun (c : CPUCoreRate) p => c.rate * Interval.elapsed p) cores t.intervals).sum /
      t.elapsed

variable {x y : UInt64} {p : Interval} {l : List Interval} {t : Snapshots} {s : CpuInfo}
  {infos : List ProcessorTimes} {cores : List CPUTime} {getUsage : ℤ}

theorem usage_eq (x y : UInt64) : usage x y = some (x.toNat * 100 / y.toNat : ℚ) := by
  by_cases hy : y = 0
  · simp [usage, hy]
  · simp [usage, percent, hy]

def CPUTime.entry (core : CPUTime) : CPUCoreRate :=
  ⟨core.szName, core.busy.toNat * 100 / core.time.toNat⟩

/-- The sums behind the loop. -/
def Totals.plus (cpu_totals : Totals) (infos : List ProcessorTimes) : Totals where
  KernelTime := cpu_totals.KernelTime + (infos.map (·.kernel)).sum
  UserTime := cpu_totals.UserTime + (infos.map (·.UserTime)).sum
  IdleTime := cpu_totals.IdleTime + (infos.map (·.IdleTime)).sum

theorem Totals.plus_cons (cpu_totals : Totals) (cpu_info : ProcessorTimes)
    (infos : List ProcessorTimes) :
    cpu_totals.plus (cpu_info :: infos) = (cpu_totals.add cpu_info).plus infos := by
  simp [Totals.plus, Totals.add, add_assoc]

theorem coreRounds_eq (h : infos.length = cores.length) (cpu_totals : Totals)
    (mv_cores : List CPUCoreRate) : coreRounds getUsage infos cores cpu_totals mv_cores =
      some (List.zipWith CPUTime.update cores infos, cpu_totals.plus infos,
        if getUsage ≠ 0 then
          mv_cores ++ (List.zipWith CPUTime.update cores infos).map (·.entry)
        else mv_cores) := by
  induction infos generalizing cores cpu_totals mv_cores with
  | nil =>
    obtain rfl : cores = [] := List.eq_nil_of_length_eq_zero h.symm
    simp [coreRounds, Totals.plus]
  | cons cpu_info infos ih =>
    cases cores with
    | nil => simp at h
    | cons core cores =>
      have hrest := fun mv_cores => ih (by simpa using h) (cpu_totals.add cpu_info) mv_cores
      rw [coreRounds, Totals.plus_cons]
      by_cases hget : getUsage = 0
      · subst hget
        simp [hrest]
      · simp [hget, hrest, usage_eq, CPUTime.entry]

/-- The first query only moves the values on. -/
theorem getCPUTime_first (h : infos.length = cores.length) (s : CpuInfo) :
    ∃ s', getCPUTime 0 infos cores s = some (List.zipWith CPUTime.update cores infos, s') ∧
      s'.cpu_kernel_delta.Value = (infos.map (·.kernel)).sum ∧
      s'.cpu_user_delta.Value = (infos.map (·.UserTime)).sum ∧
      s'.cpu_idle_delta.Value = (infos.map (·.IdleTime)).sum ∧ s'.mv_cores = s.mv_cores := by
  rw [getCPUTime, coreRounds_eq h]
  refine ⟨_, rfl, ?_, ?_, ?_, ?_⟩ <;> simp [updateDelta, Totals.plus]

/-- The busy time of all cores since the values of the static variables. -/
def CpuInfo.sysTime (s : CpuInfo) (infos : List ProcessorTimes) : UInt64 :=
  (infos.map (·.kernel)).sum - s.cpu_kernel_delta.Value +
    ((infos.map (·.UserTime)).sum - s.cpu_user_delta.Value)

def CpuInfo.totalTime (s : CpuInfo) (infos : List ProcessorTimes) : UInt64 :=
  s.sysTime infos + ((infos.map (·.IdleTime)).sum - s.cpu_idle_delta.Value)

theorem getCPUTime_second (h : infos.length = cores.length) (s : CpuInfo) :
    ∃ s' rest, getCPUTime 1 infos cores s = some (rest, s') ∧
      s'.mv_cores = s.mv_cores ++ (List.zipWith CPUTime.update cores infos).map (·.entry) ∧
      s'.m_cpuTotalUsage = (s.sysTime infos).toNat * 100 / (s.totalTime infos).toNat := by
  rw [getCPUTime, coreRounds_eq h]
  simp only [usage_eq]
  refine ⟨_, _, rfl, ?_, ?_⟩
  · simp
  · simp [updateDelta, Totals.plus, CpuInfo.totalTime, CpuInfo.sysTime]

section Words

/-- The busy and the elapsed time, as the words of the program. -/
def Interval.busyWord (p : Interval) : UInt64 :=
  p.2.kernel - p.1.kernel + (p.2.UserTime - p.1.UserTime)

def Interval.timeWord (p : Interval) : UInt64 :=
  Interval.busyWord p + (p.2.IdleTime - p.1.IdleTime)

theorem Interval.busy_le (h : Interval.Advances p) : Interval.busy p ≤ Interval.elapsed p := by
  have := h.idle_le_kernel
  unfold Interval.busy Interval.elapsed
  omega

theorem toNat_kernel_sub (h : Interval.Advances p) :
    (p.2.kernel - p.1.kernel).toNat = Interval.kernel p - Interval.idle p :=
  toNat_sub_sub_sub h.kernel_le h.idle_le h.idle_le_kernel

theorem toNat_busyWord (h : Interval.Advances p) (hfits : Interval.elapsed p < 2 ^ 64) :
    (Interval.busyWord p).toNat = Interval.busy p := by
  have hle := Interval.busy_le h
  have huser := UInt64.toNat_sub_of_le _ _ h.user_le
  rw [Interval.busyWord, UInt64.toNat_add, toNat_kernel_sub h, huser]
  exact Nat.mod_eq_of_lt (by unfold Interval.busy Interval.user at *; omega)

theorem toNat_timeWord (h : Interval.Advances p) (hfits : Interval.elapsed p < 2 ^ 64) :
    (Interval.timeWord p).toNat = Interval.elapsed p := by
  have hle := h.idle_le_kernel
  have hidle := UInt64.toNat_sub_of_le _ _ h.idle_le
  rw [Interval.timeWord, UInt64.toNat_add, toNat_busyWord h hfits, hidle]
  unfold Interval.elapsed Interval.busy Interval.idle at *
  rw [Nat.mod_eq_of_lt (by omega)]
  omega

end Words

/-- The entries of the second query, by the words of the program. -/
theorem entries_eq (t : Snapshots) :
    (List.zipWith CPUTime.update
        (List.zipWith CPUTime.update (newCores t.first.length) t.first) t.second).map (·.entry) =
      t.intervals.mapIdx fun i p => ⟨coreName i,
        (Interval.busyWord p).toNat * 100 / (Interval.timeWord p).toNat⟩ := by
  apply List.ext_getElem
  · simp [newCores, Snapshots.intervals, t.length_eq]
  · intro i _ _
    simp [newCores, Snapshots.intervals, CPUTime.entry, CPUTime.time, CPUTime.busy,
      CPUTime.update, updateDelta, Interval.timeWord, Interval.busyWord]

/-- A call, whatever the earlier ones have left behind. -/
theorem getCPUUsage_eq (s : CpuInfo) (t : Snapshots) : ∃ s', getCPUUsage s t = some s' ∧
    s'.mv_cores = (t.intervals.mapIdx fun i p => ⟨coreName i,
      (Interval.busyWord p).toNat * 100 / (Interval.timeWord p).toNat⟩) ∧
    s'.m_cpuTotalUsage = (t.intervals.map Interval.busyWord).sum.toNat * 100 /
      (t.intervals.map Interval.timeWord).sum.toNat := by
  have hlen : t.first.length = (newCores t.first.length).length := by simp [newCores]
  have hlen' : t.second.length =
      (List.zipWith CPUTime.update (newCores t.first.length) t.first).length := by
    rw [List.length_zipWith, t.length_eq, ← hlen, Nat.min_self]
  obtain ⟨s₁, hfirst, hkernel, huser, hidle, hcores⟩ := getCPUTime_first hlen
    { s with mn_cpuCores := t.first.length, mv_cores := [] }
  obtain ⟨s₂, rest, hsecond, hentries, htotal⟩ := getCPUTime_second hlen' s₁
  refine ⟨s₂, ?_, ?_, ?_⟩
  · simp [getCPUUsage, hfirst, hsecond]
  · rw [hentries, hcores, List.nil_append, entries_eq]
  · rw [htotal, CpuInfo.totalTime, CpuInfo.sysTime, hkernel, huser, hidle,
      sum_map_zip_sub (·.kernel) t.length_eq, sum_map_zip_sub (·.UserTime) t.length_eq,
      sum_map_zip_sub (·.IdleTime) t.length_eq, ← List.sum_map_add, ← List.sum_map_add]
    rfl

theorem getCPUUsages_append (s : CpuInfo) (history : List Snapshots) (t : Snapshots) :
    ∃ s', getCPUUsages s (history ++ [t]) = getCPUUsage s' t := by
  induction history generalizing s with
  | nil => exact ⟨s, by simp [getCPUUsages]⟩
  | cons t₁ history ih =>
    obtain ⟨s₁, hcall, -⟩ := getCPUUsage_eq s t₁
    obtain ⟨s', hs'⟩ := ih s₁
    refine ⟨s', ?_⟩
    rw [← hs', getCPUUsages, List.cons_append, List.foldlM_cons, hcall]
    rfl

theorem percentage_mem {b e : ℕ} (h : b ≤ e) :
    0 ≤ (b * 100 / e : ℚ) ∧ (b * 100 / e : ℚ) ≤ 100 := by
  have hle : (b : ℚ) ≤ e := by exact_mod_cast h
  refine ⟨by positivity, div_le_of_le_mul₀ (by positivity) (by norm_num) ?_⟩
  linarith

/-- A rate, weighted by the elapsed time, which may be 0. -/
theorem rate_mul_elapsed (h : Interval.Advances p) :
    Interval.rate p * Interval.elapsed p = Interval.busy p * 100 := by
  have hle := Interval.busy_le h
  rw [Interval.rate]
  by_cases hzero : Interval.elapsed p = 0
  · have hbusy : Interval.busy p = 0 := by omega
    simp [hbusy]
  · exact div_mul_cancel₀ _ (by exact_mod_cast hzero)

theorem weighted_sum (h : ∀ p ∈ t.intervals, Interval.Advances p) :
    (List.zipWith (fun (c : CPUCoreRate) p => c.rate * Interval.elapsed p)
      (t.intervals.mapIdx fun i p => ⟨coreName i, Interval.rate p⟩) t.intervals).sum =
      ((t.intervals.map Interval.busy).sum : ℕ) * 100 := by
  have hterms : List.zipWith (fun (c : CPUCoreRate) p => c.rate * Interval.elapsed p)
      (t.intervals.mapIdx fun i p => ⟨coreName i, Interval.rate p⟩) t.intervals =
      t.intervals.map fun p => (Interval.busy p : ℚ) * 100 := by
    apply List.ext_getElem
    · simp
    · intro i _ hi
      rw [List.length_map] at hi
      simpa using rate_mul_elapsed (h _ (List.getElem_mem hi))
  rw [hterms, List.sum_map_mul_right, Nat.cast_list_sum, List.map_map]
  rfl

/-- Each core gets an entry with its rate, and the total is their weighted mean, whatever calls
have gone before. -/
theorem getCPUUsage_reports (t : Snapshots) (h : ∀ p ∈ t.intervals, Interval.Advances p)
    (hfits : t.elapsed < 2 ^ 64) : ∃ cores total, Reports t cores total ∧
      ∀ s history, ∃ s', getCPUUsages s (history ++ [t]) = some s' ∧
        s'.mv_cores = cores ∧ s'.m_cpuTotalUsage = total := by
  have hword : ∀ p ∈ t.intervals, Interval.elapsed p < 2 ^ 64 := fun p hp =>
    (List.single_le_sum (by simp) _ (List.mem_map_of_mem hp)).trans_lt hfits
  have hbusy : (t.intervals.map Interval.busy).sum ≤ t.elapsed :=
    List.sum_le_sum fun p hp => Interval.busy_le (h p hp)
  have hbusyWord := toNat_sum (fun p hp => toNat_busyWord (h p hp) (hword p hp))
    (hbusy.trans_lt hfits)
  have htimeWord := toNat_sum (fun p hp => toNat_timeWord (h p hp) (hword p hp)) hfits
  refine ⟨t.intervals.mapIdx fun i p => ⟨coreName i, Interval.rate p⟩,
    (t.intervals.map Interval.busy).sum * 100 / t.elapsed, ⟨rfl, ?_, ?_, ?_⟩, ?_⟩
  · intro c hc
    obtain ⟨i, hi, rfl⟩ := List.mem_mapIdx.mp hc
    exact percentage_mem (Interval.busy_le (h _ (List.getElem_mem hi)))
  · exact percentage_mem hbusy
  · rw [weighted_sum h]
  · intro s history
    obtain ⟨s', hs'⟩ := getCPUUsages_append s history t
    obtain ⟨s'', hcall, hcores, htotal⟩ := getCPUUsage_eq s' t
    refine ⟨s'', hs' ▸ hcall, ?_, ?_⟩
    · rw [hcores]
      apply List.ext_getElem (by simp)
      intro i hi _
      rw [List.length_mapIdx] at hi
      have hmem := List.getElem_mem hi
      simp [Interval.rate, toNat_busyWord (h _ hmem) (hword _ hmem),
        toNat_timeWord (h _ hmem) (hword _ hmem)]
    · rw [htotal, hbusyWord, htimeWord, Snapshots.elapsed]

/-- Two cores, one of which is stopped. -/
def twoCores : Snapshots where
  first := [⟨10, 20, 5⟩, ⟨7, 7, 0⟩]
  second := [⟨15, 30, 10⟩, ⟨7, 7, 0⟩]
  length_eq := rfl

theorem getCPUUsage_reports_twoCores : ∃ cores total, Reports twoCores cores total ∧
    ∀ s history, ∃ s', getCPUUsages s (history ++ [twoCores]) = some s' ∧
      s'.mv_cores = cores ∧ s'.m_cpuTotalUsage = total := by
  have hadvances : ∀ p ∈ twoCores.intervals, Interval.Advances p := by
    rw [Snapshots.intervals, twoCores, List.zip_cons_cons, List.forall_mem_cons]
    refine ⟨⟨by decide, by decide, by decide, by decide⟩, ?_⟩
    rw [List.zip_cons_cons, List.forall_mem_cons]
    exact ⟨⟨by decide, by decide, by decide, by decide⟩, by simp⟩
  exact getCPUUsage_reports twoCores hadvances (by decide)

end Vs17.Monitor.CpuUsage
