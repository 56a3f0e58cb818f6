import Vs17.Library.Rounding

/-! # The CPU rates of the processes

`getProcessCPU_Win` asks for the times of each process twice, a second apart, through the same
variables, and does not look at whether a query has failed. The rates are computed in doubles.
-/

namespace Vs17.Monitor.ProcessCPU

open Rounding

/-- What `GetProcessTimes` reports, in units of 100 ns. -/
structure ProcessTimes where
  kernelTime : ℕ
  userTime : ℕ
  fits : kernelTime + userTime < 2 ^ 63

namespace ProcessTimes

def total (t : ProcessTimes) : ℕ := t.kernelTime + t.userTime

/-- The time of a process on one of the cores. -/
def share (cpuCores : ℕ) (t : ProcessTimes) : ℤ := (t.total / cpuCores : ℕ)

end ProcessTimes

/-- The variables `kernel_time` and `user_time` after a query. If it has failed they are as they
were, and at first they are uninitialised. -/
def getProcessTimes (vars outcome : Option ProcessTimes) : Option ProcessTimes :=
  outcome.or vars

/-- The first loop: `vlast_process_time`, and what the variables are left with. -/
def firstPass (cpuCores : ℕ) :
    Option ProcessTimes → List (Option ProcessTimes) → Option (List ℤ × Option ProcessTimes)
  | vars, [] => some ([], vars)
  | vars, outcome :: outcomes => do
    let t ← getProcessTimes vars outcome
    let (vlast, vars) ← firstPass cpuCores (some t) outcomes
    return (t.share cpuCores :: vlast, vars)

/-- The nearest `double`. -/
def toDouble : ℚ → ℚ := nearest 52

def rate (processTimeDelta sysTimeDelta : ℤ) : ℚ :=
  toDouble (toDouble (toDouble processTimeDelta * 100) / toDouble sysTimeDelta)

/-- A round of the second loop: the times of the process, and the rate that is stored. -/
structure Round where
  lastProcessTime : ℤ
  thisProcessTime : ℤ
  cpuRate : ℚ
  deriving DecidableEq

def Round.times (x : Round) : ℤ × ℤ := (x.lastProcessTime, x.thisProcessTime)

def mkRound (sysTimeDelta last this : ℤ) : Round := ⟨last, this, rate (this - last) sysTimeDelta⟩

/-- The second loop. -/
def secondPass (cpuCores : ℕ) (sysTimeDelta : ℤ) (vlast : List ℤ) :
    ℕ → Option ProcessTimes → List (Option ProcessTimes) → Option (List Round)
  | _, _, [] => some []
  | index, vars, outcome :: outcomes => do
    let t ← getProcessTimes vars outcome
    let last ← vlast[index]?
    let rounds ← secondPass cpuCores sysTimeDelta vlast (index + 1) (some t) outcomes
    return mkRound sysTimeDelta last (t.share cpuCores) :: rounds

/-- The rounds with the rates, for the outcomes of both queries of each process. -/
def getProcessCPUWin (cpuCores : ℕ) (sysTimeDelta : ℤ)
    (l : List (Option ProcessTimes × Option ProcessTimes)) : Option (List Round) := do
  let (vlast, vars) ← firstPass cpuCores none (l.map (·.1))
  secondPass cpuCores sysTimeDelta vlast 0 vars (l.map (·.2))

section Outcomes

variable (n : ℕ) (ok : ℕ → Bool) (T : ℕ → ProcessTimes)

/-- The outcome of a query. The queries are counted through both passes. -/
def outcome (j : ℕ) : Option ProcessTimes := if ok j then some (T j) else none

/-- The outcomes for `n` processes: process `i` is asked in the queries `i` and `n + i`. -/
def outcomes : List (Option ProcessTimes × Option ProcessTimes) :=
  (List.range' 0 n).map fun i => (outcome ok T i, outcome ok T (n + i))

/-- The last query up to this one that has not failed, if the first one has not. -/
def latest : ℕ → ℕ
  | 0 => 0
  | j + 1 => if ok (j + 1) then j + 1 else latest j

/-- The round of a process, by the samples that are in the variables. -/
def roundOf (cpuCores : ℕ) (sysTimeDelta : ℤ) (i : ℕ) : Round :=
  mkRound sysTimeDelta ((T (latest ok i)).share cpuCores) ((T (latest ok (n + i))).share cpuCores)

end Outcomes

/-- The time of each process grows by at most the elapsed time on all cores. -/
def Admissible (cpuCores : ℕ) (sysTimeDelta : ℤ) (n : ℕ) (T : ℕ → ProcessTimes) : Prop :=
  ∀ i < n, (T i).total ≤ (T (n + i)).total ∧
    ((T (n + i)).total : ℤ) ≤ (T i).total + sysTimeDelta * cpuCores

/-- This part of the round of a process depends on no samples but its own. -/
def DependsOnOwn {α : Type} (part : Round → α) (cpuCores : ℕ) (sysTimeDelta : ℤ) (n : ℕ)
    (ok : ℕ → Bool) : Prop :=
  ∀ T T' r r', Admissible cpuCores sysTimeDelta n T → Admissible cpuCores sysTimeDelta n T' →
    getProcessCPUWin cpuCores sysTimeDelta (outcomes n ok T) = some r →
    getProcessCPUWin cpuCores sysTimeDelta (outcomes n ok T') = some r' →
    ∀ i < n, T i = T' i → T (n + i) = T' (n + i) → r[i]?.map part = r'[i]?.map part

/-- With these queries successful, each process gets a rate between 0 and 100 that depends on no
samples but its own. Whatever queries have failed, no times of another process count for it. -/
structure Attributes (cpuCores : ℕ) (sysTimeDelta : ℤ) (n : ℕ) (ok : ℕ → Bool) : Prop where
  rates : ∀ T, Admissible cpuCores sysTimeDelta n T →
    ∃ r, getProcessCPUWin cpuCores sysTimeDelta (outcomes n ok T) = some r ∧ r.length = n ∧
      ∀ x ∈ r, 0 ≤ x.cpuRate ∧ x.cpuRate ≤ 100
  own : DependsOnOwn Round.cpuRate cpuCores sysTimeDelta n ok
  failed : DependsOnOwn Round.times cpuCores sysTimeDelta n ok

/-- The time that a process can have used on one of the cores. -/
def longest (cpuCores : ℕ) (sysTimeDelta : ℤ) : ℤ :=
  min sysTimeDelta ((2 ^ 63 - 1) / cpuCores : ℕ)

/-- The product with 100 is not rounded up by so much that the quotient of doubles is above 100,
for a process that has used all the time that it can. -/
def NotLifted (cpuCores : ℕ) (sysTimeDelta : ℤ) : Prop :=
  toDouble (toDouble (longest cpuCores sysTimeDelta) * 100) ≤
    (100 + 1 / 2 ^ 47) * toDouble sysTimeDelta

variable {cpuCores n : ℕ} {sysTimeDelta : ℤ} {ok : ℕ → Bool} {T T' : ℕ → ProcessTimes}

theorem getProcessTimes_outcome (j : ℕ) :
    getProcessTimes (some (T (latest ok j))) (outcome ok T (j + 1)) =
      some (T (latest ok (j + 1))) := by
  rw [getProcessTimes, outcome, latest]
  split_ifs <;> rfl

theorem firstPass_eq (j k : ℕ) :
    firstPass cpuCores (some (T (latest ok j)))
        ((List.range' (j + 1) k).map (outcome ok T)) =
      some ((List.range' (j + 1) k).map fun i => (T (latest ok i)).share cpuCores,
        some (T (latest ok (j + k)))) := by
  induction k generalizing j with
  | zero => rfl
  | succ k ih =>
    rw [List.range'_succ, List.map_cons, firstPass, getProcessTimes_outcome]
    have hrest := ih (j + 1)
    simp only [Option.bind_eq_bind, Option.bind_some, hrest]
    rw [List.map_cons, show j + (k + 1) = j + 1 + k by omega]
    rfl

theorem secondPass_eq {m : ℕ} (hn : n = m + 1) (vlast : List ℤ)
    (hvlast : vlast = (List.range' 0 n).map fun i => (T (latest ok i)).share cpuCores) (i k : ℕ)
    (hik : i + k = n) :
    secondPass cpuCores sysTimeDelta vlast i (some (T (latest ok (m + i))))
        ((List.range' i k).map fun i => outcome ok T (n + i)) =
      some ((List.range' i k).map (roundOf n ok T cpuCores sysTimeDelta)) := by
  induction k generalizing i with
  | zero => rfl
  | succ k ih =>
    have hindex : vlast[i]? = some ((T (latest ok i)).share cpuCores) := by
      rw [hvlast, List.getElem?_map, List.getElem?_range' (by omega)]
      simp
    have hquery : n + i = m + i + 1 := by omega
    have hrest := ih (i + 1) (by omega)
    rw [List.range'_succ, List.map_cons, secondPass, hquery, getProcessTimes_outcome]
    simp only [Option.bind_eq_bind, Option.bind_some, hindex]
    rw [← Nat.add_assoc] at hrest
    rw [hrest, List.map_cons, roundOf, hquery]
    rfl

theorem getProcessCPUWin_of_ok (hn : 0 < n) (h : ok 0 = true) :
    getProcessCPUWin cpuCores sysTimeDelta (outcomes n ok T) =
      some ((List.range' 0 n).map (roundOf n ok T cpuCores sysTimeDelta)) := by
  obtain ⟨m, rfl⟩ := Nat.exists_eq_add_of_lt hn
  rw [zero_add] at *
  have hquery : getProcessTimes none (outcome ok T 0) = some (T (latest ok 0)) := by
    simp [getProcessTimes, outcome, latest, h]
  have hfirst : firstPass cpuCores none ((List.range' 0 (m + 1)).map (outcome ok T)) =
      some ((List.range' 0 (m + 1)).map fun i => (T (latest ok i)).share cpuCores,
        some (T (latest ok m))) := by
    rw [List.range'_succ, List.map_cons, firstPass, hquery]
    simp only [Option.bind_eq_bind, Option.bind_some, firstPass_eq, zero_add]
    rfl
  have hsecond := @secondPass_eq cpuCores (m + 1) sysTimeDelta ok T m rfl _ rfl 0 (m + 1)
    (zero_add _)
  rw [getProcessCPUWin, outcomes, List.map_map, List.map_map]
  exact (congrArg (Option.bind · _) hfirst).trans hsecond

/-- If the first query fails, uninitialised variables are read. -/
theorem getProcessCPUWin_of_not_ok (hn : 0 < n) (h : ok 0 = false) :
    getProcessCPUWin cpuCores sysTimeDelta (outcomes n ok T) = none := by
  obtain ⟨m, rfl⟩ := Nat.exists_eq_add_of_lt hn
  have hquery : getProcessTimes none (outcome ok T 0) = none := by
    simp [getProcessTimes, outcome, h]
  rw [zero_add, getProcessCPUWin, outcomes, List.range'_succ, List.map_cons, List.map_cons,
    firstPass, hquery]
  rfl

section Rate

theorem toDouble_mono {x y : ℚ} (hx : 0 ≤ x) (h : x ≤ y) : toDouble x ≤ toDouble y :=
  nearest_mono hx h

theorem toDouble_nonneg {x : ℚ} (hx : 0 ≤ x) : 0 ≤ toDouble x := nearest_nonneg hx

theorem toDouble_intCast_pos {d : ℤ} (hd : 0 < d) : 0 < toDouble d := nearest_pos (mod_cast hd)

@[simp] theorem rate_zero (sysTimeDelta : ℤ) : rate 0 sysTimeDelta = 0 := by
  simp [rate, toDouble]

/-- The product of the time with 100. -/
theorem product_mono {d d' : ℤ} (hd : 0 ≤ d) (h : d ≤ d') :
    toDouble (toDouble d * 100) ≤ toDouble (toDouble d' * 100) := by
  have hd' : (0 : ℚ) ≤ d := mod_cast hd
  have hfactor := toDouble_mono hd' (mod_cast h : (d : ℚ) ≤ d')
  exact toDouble_mono (mul_nonneg (toDouble_nonneg hd') (by norm_num)) (by linarith)

theorem quotient_nonneg {d : ℤ} (hd : 0 ≤ d) (hdelta : 0 < sysTimeDelta) :
    0 ≤ toDouble (toDouble d * 100) / toDouble sysTimeDelta := by
  have hproduct := toDouble_nonneg (toDouble_nonneg (mod_cast hd : (0 : ℚ) ≤ d))
  have hmono := product_mono le_rfl hd
  have hzero : toDouble (toDouble (0 : ℤ) * 100) = 0 := by simp [toDouble]
  exact div_nonneg (hzero ▸ hmono) (toDouble_intCast_pos hdelta).le

theorem rate_nonneg {d : ℤ} (hd : 0 ≤ d) (hdelta : 0 < sysTimeDelta) : 0 ≤ rate d sysTimeDelta :=
  toDouble_nonneg (quotient_nonneg hd hdelta)

/-- A quotient is rounded to at most 100 up to half the distance to the next double. -/
theorem rate_le_iff {d : ℤ} (hd : 0 ≤ d) (hdelta : 0 < sysTimeDelta) :
    rate d sysTimeDelta ≤ 100 ↔
      toDouble (toDouble d * 100) ≤ (100 + 1 / 2 ^ 47) * toDouble sysTimeDelta := by
  have hround := @nearest_le_iff 52 _ 6 (25 * 2 ^ 48) (by decide) (by norm_num) (by norm_num)
    (quotient_nonneg hd hdelta)
  rw [div_le_iff₀ (toDouble_intCast_pos hdelta)] at hround
  norm_num at hround ⊢
  exact hround

end Rate

section Share

/-- Rounding down leaves a growth between 0 and the elapsed time. -/
theorem share_sub_mem (hcores : 0 < cpuCores) {t t' : ProcessTimes} (hle : t.total ≤ t'.total)
    (hgrowth : (t'.total : ℤ) ≤ t.total + sysTimeDelta * cpuCores) :
    0 ≤ t'.share cpuCores - t.share cpuCores ∧
      t'.share cpuCores - t.share cpuCores ≤ longest cpuCores sysTimeDelta := by
  have hmono : t.total / cpuCores ≤ t'.total / cpuCores := Nat.div_le_div_right hle
  have hmax : t'.total / cpuCores ≤ (2 ^ 63 - 1) / cpuCores :=
    Nat.div_le_div_right (Nat.le_pred_of_lt t'.fits)
  have hcast : (0 : ℤ) < cpuCores := mod_cast hcores
  have hdiv : (t'.total : ℤ) / cpuCores ≤ t.total / cpuCores + sysTimeDelta := by
    rw [← Int.add_mul_ediv_right _ _ hcast.ne']
    exact Int.ediv_le_ediv hcast hgrowth
  have hnonneg := Int.natCast_nonneg (t.total / cpuCores)
  rw [ProcessTimes.share, ProcessTimes.share]
  refine ⟨by omega, le_min ?_ (by omega)⟩
  push_cast
  omega

theorem rate_mem (hcores : 0 < cpuCores) (hdelta : 0 < sysTimeDelta)
    (hlifted : NotLifted cpuCores sysTimeDelta) {i : ℕ} (hi : i < n)
    (hT : Admissible cpuCores sysTimeDelta n T) :
    0 ≤ rate ((T (n + i)).share cpuCores - (T i).share cpuCores) sysTimeDelta ∧
      rate ((T (n + i)).share cpuCores - (T i).share cpuCores) sysTimeDelta ≤ 100 := by
  obtain ⟨hlo, hhi⟩ := share_sub_mem hcores (hT i hi).1 (hT i hi).2
  have hproduct := (product_mono hlo hhi).trans hlifted
  exact ⟨rate_nonneg hlo hdelta, (rate_le_iff hlo hdelta).mpr hproduct⟩

end Share

section Latest

theorem latest_le (ok : ℕ → Bool) (j : ℕ) : latest ok j ≤ j := by
  induction j with
  | zero => rfl
  | succ j ih =>
    rw [latest]
    split_ifs <;> omega

theorem latest_mono (ok : ℕ → Bool) {j k : ℕ} (h : j ≤ k) : latest ok j ≤ latest ok k := by
  induction k, h using Nat.le_induction with
  | base => rfl
  | succ k _ ih =>
    have hle := latest_le ok k
    rw [latest]
    split_ifs <;> omega

/-- A query is the last one that has not failed if it has not failed itself. -/
theorem latest_eq_self {j : ℕ} (h₀ : ok 0 = true) : latest ok j = j ↔ ok j = true := by
  cases j with
  | zero => simp [latest, h₀]
  | succ j =>
    have hle := latest_le ok j
    rw [latest]
    split_ifs with hok
    · simp [hok]
    · exact iff_of_false (by omega) hok

/-- When the times of the process are computed, the variables hold samples of its own. -/
def HoldsOwn (n : ℕ) (ok : ℕ → Bool) (i : ℕ) : Prop :=
  latest ok i = i ∧ (latest ok (n + i) = i ∨ latest ok (n + i) = n + i)

theorem holdsOwn_of_mod {i : ℕ} (hi : i < n) (hfirst : latest ok i % n = i)
    (hsecond : latest ok (n + i) % n = i) : HoldsOwn n ok i := by
  have hle := latest_le ok i
  have hle' := latest_le ok (n + i)
  rw [Nat.mod_eq_of_lt (by omega)] at hfirst
  refine ⟨hfirst, ?_⟩
  rcases Nat.lt_or_ge (latest ok (n + i)) n with hlt | hge
  · rw [Nat.mod_eq_of_lt hlt] at hsecond
    exact .inl hsecond
  · rw [Nat.mod_eq_sub_mod hge, Nat.mod_eq_of_lt (by omega)] at hsecond
    exact .inr (by omega)

theorem holdsOwn_of_ok (h : ∀ j < 2 * n, ok j = true) {i : ℕ} (hi : i < n) :
    latest ok i = i ∧ latest ok (n + i) = n + i := by
  have h₀ := h 0 (by omega)
  exact ⟨(latest_eq_self h₀).mpr (h i (by omega)), (latest_eq_self h₀).mpr (h (n + i) (by omega))⟩

/-- Only the second query of a single process can fail without harm. -/
theorem ok_of_holdsOwn (hn : 0 < n) (h₀ : ok 0 = true) (h : ∀ i < n, HoldsOwn n ok i) :
    (∀ j < 2 * n, ok j = true) ∨ n = 1 ∧ ok 0 = true ∧ ok 1 = false := by
  by_cases hsecond : latest ok n = n
  · left
    intro j hj
    rw [← latest_eq_self h₀]
    rcases Nat.lt_or_ge j n with hlt | hge
    · exact (h j hlt).1
    · obtain ⟨i, rfl⟩ := Nat.exists_eq_add_of_le hge
      have hmono := latest_mono ok hge
      exact (h i (by omega)).2.resolve_left (by omega)
  · right
    -- the variables hold the first sample of the first process still after the first pass
    have hzero : latest ok n = 0 := (h 0 hn).2.resolve_right hsecond
    have hlast := (h (n - 1) (by omega)).1
    have hmono : latest ok (n - 1) ≤ latest ok n := latest_mono ok (Nat.sub_le n 1)
    obtain rfl : n = 1 := by omega
    exact ⟨rfl, h₀, by simpa using mt (latest_eq_self h₀).mpr hsecond⟩

end Latest

section Run

theorem getElem?_run {r : List Round} {i : ℕ} (hn : 0 < n) (h : ok 0 = true) (hi : i < n)
    (hr : getProcessCPUWin cpuCores sysTimeDelta (outcomes n ok T) = some r) :
    r[i]? = some (roundOf n ok T cpuCores sysTimeDelta i) := by
  cases hr.symm.trans (getProcessCPUWin_of_ok hn h)
  rw [List.getElem?_map, List.getElem?_range' hi, Option.map_some, zero_add, one_mul]

theorem roundOf_congr {i : ℕ} (hown : HoldsOwn n ok i) (hfirst : T i = T' i)
    (hsecond : T (n + i) = T' (n + i)) :
    roundOf n ok T cpuCores sysTimeDelta i = roundOf n ok T' cpuCores sysTimeDelta i := by
  obtain ⟨hi, hni | hni⟩ := hown
  · rw [roundOf, roundOf, hi, hni, hfirst]
  · rw [roundOf, roundOf, hi, hni, hfirst, hsecond]

theorem dependsOnOwn_of_holdsOwn {α : Type} (part : Round → α) (hn : 0 < n) (h₀ : ok 0 = true)
    (hown : ∀ i < n, HoldsOwn n ok i) : DependsOnOwn part cpuCores sysTimeDelta n ok := by
  intro T T' r r' hT hT' hr hr' i hi hfirst hsecond
  rw [getElem?_run hn h₀ hi hr, getElem?_run hn h₀ hi hr', roundOf_congr (hown i hi) hfirst hsecond]

theorem attributes_of_holdsOwn (hn : 0 < n) (h₀ : ok 0 = true) (hown : ∀ i < n, HoldsOwn n ok i)
    (hmem : ∀ T, Admissible cpuCores sysTimeDelta n T → ∀ i < n,
      0 ≤ (roundOf n ok T cpuCores sysTimeDelta i).cpuRate ∧
        (roundOf n ok T cpuCores sysTimeDelta i).cpuRate ≤ 100) :
    Attributes cpuCores sysTimeDelta n ok := by
  refine ⟨fun T hT => ⟨_, getProcessCPUWin_of_ok hn h₀, by simp, fun x hx => ?_⟩,
    dependsOnOwn_of_holdsOwn _ hn h₀ hown, dependsOnOwn_of_holdsOwn _ hn h₀ hown⟩
  obtain ⟨i, hi, rfl⟩ := List.mem_map.mp hx
  obtain ⟨-, hi⟩ := List.mem_range'_1.mp hi
  exact hmem T hT i (by omega)

theorem attributes_zero : Attributes cpuCores sysTimeDelta 0 ok :=
  ⟨fun T _ => ⟨[], rfl, rfl, by simp⟩, fun T T' r r' _ _ _ _ i hi => absurd hi (Nat.not_lt_zero i),
    fun T T' r r' _ _ _ _ i hi => absurd hi (Nat.not_lt_zero i)⟩

theorem attributes_of_ok (hcores : 0 < cpuCores) (hdelta : 0 < sysTimeDelta) (hn : 0 < n)
    (hok : ∀ j < 2 * n, ok j = true) (hlifted : NotLifted cpuCores sysTimeDelta) :
    Attributes cpuCores sysTimeDelta n ok := by
  refine attributes_of_holdsOwn hn (hok 0 (by omega))
    (fun i hi => (holdsOwn_of_ok hok hi).imp_right .inr) fun T hT i hi => ?_
  obtain ⟨hfirst, hsecond⟩ := holdsOwn_of_ok hok hi
  rw [roundOf, hfirst, hsecond]
  exact rate_mem hcores hdelta hlifted hi hT

theorem attributes_one (h₀ : ok 0 = true) (h₁ : ok 1 = false) :
    Attributes cpuCores sysTimeDelta 1 ok := by
  have hzero : latest ok (1 + 0) = 0 := by simp [latest, h₁]
  refine attributes_of_holdsOwn one_pos h₀ (fun i hi => ?_) fun T _ i hi => ?_
  · obtain rfl := Nat.lt_one_iff.mp hi
    exact ⟨rfl, .inl hzero⟩
  · obtain rfl := Nat.lt_one_iff.mp hi
    rw [roundOf, hzero, latest, mkRound, sub_self, rate_zero]
    norm_num

end Run

section Pulses

/-- Samples with this share where the predicate holds, and of 0 elsewhere. -/
def pulse (cpuCores d : ℕ) (hd : d * cpuCores < 2 ^ 63) (p : ℕ → Bool) (j : ℕ) : ProcessTimes :=
  if p j then ⟨d * cpuCores, 0, hd⟩ else ⟨0, 0, by norm_num⟩

variable {d : ℕ}

theorem admissible_pulse (hd : d * cpuCores < 2 ^ 63) (hdelta : (d : ℤ) ≤ sysTimeDelta)
    {p : ℕ → Bool} (hp : ∀ i < n, p i → p (n + i)) :
    Admissible cpuCores sysTimeDelta n (pulse cpuCores d hd p) := by
  intro i hi
  have hgrowth : (d * cpuCores : ℤ) ≤ sysTimeDelta * cpuCores :=
    mul_le_mul_of_nonneg_right hdelta (Int.natCast_nonneg _)
  have hshare : (0 : ℤ) ≤ d * cpuCores := by positivity
  have hnonneg := hshare.trans hgrowth
  have hpi := hp i hi
  rw [pulse, pulse, ProcessTimes.total, ProcessTimes.total]
  split_ifs with hfirst hsecond hsecond
  · exact ⟨le_rfl, by simpa using hnonneg⟩
  · exact absurd (hpi hfirst) hsecond
  · exact ⟨Nat.zero_le _, by simpa using hgrowth⟩
  · exact ⟨le_rfl, by simpa using hnonneg⟩

theorem share_pulse (hpos : 0 < cpuCores) (hd : d * cpuCores < 2 ^ 63) (p : ℕ → Bool) (j : ℕ) :
    (pulse cpuCores d hd p j).share cpuCores = if p j then (d : ℤ) else 0 := by
  rw [pulse, ProcessTimes.share, ProcessTimes.total]
  split_ifs
  · simp [Nat.mul_div_cancel d hpos]
  · simp

namespace Attributes

variable (h : Attributes cpuCores sysTimeDelta n ok)
include h

theorem ok_zero (hdelta : 0 < sysTimeDelta) (hn : 0 < n) : ok 0 = true := by
  by_contra hnot
  have hzero : 0 * cpuCores < 2 ^ 63 := by simp
  obtain ⟨r, hr, -⟩ := h.rates (pulse cpuCores 0 hzero fun _ => false)
    (admissible_pulse hzero hdelta.le (by simp))
  rw [getProcessCPUWin_of_not_ok hn (by simpa using hnot)] at hr
  cases hr

/-- Of the samples that the times of a process are computed from, none is of another process. -/
theorem holdsOwn (hpos : 0 < cpuCores) (hcores : cpuCores < 2 ^ 31) (hdelta : 0 < sysTimeDelta)
    {i : ℕ} (hi : i < n) : HoldsOwn n ok i := by
  have hn : 0 < n := by omega
  have hone : 1 * cpuCores < 2 ^ 63 := by omega
  have hok := h.ok_zero hdelta hn
  have hadm (p : ℕ → Bool) (hp : ∀ i < n, p i → p (n + i)) :
      Admissible cpuCores sysTimeDelta n (pulse cpuCores 1 hone p) :=
    admissible_pulse hone (by omega) hp
  -- all other processes have used time, and this one has not
  have heq := h.failed (pulse cpuCores 1 hone fun _ => false)
    (pulse cpuCores 1 hone fun j => j % n ≠ i) _ _ (hadm _ (by simp)) (hadm _ (by simp))
    (getProcessCPUWin_of_ok hn hok) (getProcessCPUWin_of_ok hn hok) i hi
    (by simp [pulse, Nat.mod_eq_of_lt hi]) (by simp [pulse, Nat.mod_eq_of_lt hi])
  rw [getElem?_run hn hok hi (getProcessCPUWin_of_ok hn hok),
    getElem?_run hn hok hi (getProcessCPUWin_of_ok hn hok)] at heq
  simp only [Option.map_some, Option.some_inj, Round.times, roundOf, mkRound, share_pulse hpos,
    Prod.mk.injEq] at heq
  exact holdsOwn_of_mod hi (by simpa using heq.1) (by simpa using heq.2)

/-- The first process can have used all the time that there is. -/
theorem notLifted (hpos : 0 < cpuCores) (hdelta : 0 < sysTimeDelta) (hn : 0 < n)
    (hok : ∀ j < 2 * n, ok j = true) : NotLifted cpuCores sysTimeDelta := by
  have hmin : 0 ≤ longest cpuCores sysTimeDelta := le_min hdelta.le (Int.natCast_nonneg _)
  obtain ⟨d, hd⟩ := Int.eq_ofNat_of_zero_le hmin
  have hfits : d * cpuCores < 2 ^ 63 := by
    have hle : longest cpuCores sysTimeDelta ≤ ((2 ^ 63 - 1) / cpuCores : ℕ) := min_le_right _ _
    rw [hd, Nat.cast_le, Nat.le_div_iff_mul_le hpos] at hle
    omega
  have hle : (d : ℤ) ≤ sysTimeDelta := hd ▸ min_le_left _ _
  obtain ⟨r, hr, -, hmem⟩ := h.rates (pulse cpuCores d hfits fun j => j = n)
    (admissible_pulse hfits hle fun i hi hin => absurd (of_decide_eq_true hin) hi.ne)
  have hround := getElem?_run hn (hok 0 (by omega)) hn hr
  have hrate := (hmem _ (List.mem_of_getElem? hround)).2
  obtain ⟨hfirst, hsecond⟩ := holdsOwn_of_ok hok hn
  rw [roundOf, hfirst, hsecond, Nat.add_zero, mkRound, share_pulse hpos, share_pulse hpos,
    decide_eq_true rfl, decide_eq_false hn.ne, if_pos rfl, if_neg Bool.false_ne_true, ← hd] at hrate
  dsimp only at hrate
  rw [sub_zero] at hrate
  exact (rate_le_iff hmin hdelta).mp hrate

end Attributes

end Pulses

/-- Each process gets a rate of its own exactly if every query succeeds and no rate is rounded to
more than 100, or there is a single process and its second query fails, and then its rate is 0. -/
theorem attributes_iff (hpos : 0 < cpuCores) (hcores : cpuCores < 2 ^ 31)
    (hdelta : 0 < sysTimeDelta) : Attributes cpuCores sysTimeDelta n ok ↔
      n = 0 ∨ (∀ j < 2 * n, ok j = true) ∧ NotLifted cpuCores sysTimeDelta ∨
        n = 1 ∧ ok 0 = true ∧ ok 1 = false := by
  rcases Nat.eq_zero_or_pos n with rfl | hn
  · exact iff_of_true attributes_zero (.inl rfl)
  constructor
  · intro h
    have hown : ∀ i < n, HoldsOwn n ok i := fun i hi => h.holdsOwn hpos hcores hdelta hi
    rcases ok_of_holdsOwn hn (h.ok_zero hdelta hn) hown with hok | hone
    · exact .inr (.inl ⟨hok, h.notLifted hpos hdelta hn hok⟩)
    · exact .inr (.inr hone)
  · rintro (rfl | ⟨hok, hlifted⟩ | ⟨rfl, h₀, h₁⟩)
    · exact attributes_zero
    · exact attributes_of_ok hpos hdelta hn hok hlifted
    · exact attributes_one h₀ h₁

/-- If 100 times the elapsed time has 53 digits, nothing is rounded before the division. -/
theorem notLifted_of_lt (hdelta : 0 < sysTimeDelta) (hlt : sysTimeDelta * 100 < 2 ^ 53) :
    NotLifted cpuCores sysTimeDelta := by
  obtain ⟨d, rfl⟩ := Int.eq_ofNat_of_zero_le hdelta.le
  have hfactor : toDouble ((d : ℤ) : ℚ) = d := nearest_natCast (by omega)
  have hproduct : toDouble (toDouble ((d : ℤ) : ℚ) * 100) = d * 100 := by
    have hround := nearest_natCast (p := 52) (n := d * 100) (by omega)
    rw [hfactor, toDouble]
    exact_mod_cast hround
  have hle := product_mono (le_min hdelta.le (Int.natCast_nonneg _)) (min_le_left (d : ℤ)
    ((2 ^ 63 - 1) / cpuCores : ℕ))
  rw [hproduct] at hle
  rw [NotLifted, hfactor, longest]
  have hnonneg : (0 : ℚ) ≤ d := Nat.cast_nonneg d
  linarith

/-- Two processes on one core, of which both queries succeed. -/
theorem attributes_iff_two : Attributes 1 10000000 2 fun _ => true :=
  (attributes_iff (by norm_num) (by norm_num) (by norm_num)).mpr
    (.inr (.inl ⟨fun _ _ => rfl, notLifted_of_lt (by norm_num) (by norm_num)⟩))

/-- The first query of the second process fails: the time of the first process, 10 seconds, is
taken for its own. After 417 days the rate of a process that has used all the time is above 100,
also if no query fails. -/
theorem not_attributes_failed :
    getProcessCPUWin 1 10000000
        [(some ⟨60000000, 40000000, by decide⟩, some ⟨60000000, 40000000, by decide⟩),
          (none, some ⟨0, 0, by decide⟩)] =
      some [⟨100000000, 100000000, 0⟩, ⟨100000000, 0, -1000⟩] ∧
      ¬ Attributes 1 10000000 2 (fun j => j ≠ 1) ∧
      100 < rate 360287970189643 360287970189643 := by
  refine ⟨by decide +kernel, fun h => ?_, by decide +kernel⟩
  have hown := h.holdsOwn (i := 1) (by norm_num) (by norm_num) (by norm_num) (by norm_num)
  exact absurd hown.1 (by decide)

end Vs17.Monitor.ProcessCPU
