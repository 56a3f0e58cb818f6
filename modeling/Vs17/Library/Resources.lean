import Mathlib.Data.List.Nodup
import Mathlib.Data.List.Perm.Basic

/-! # Resources that are acquired, used and released

A ledger keeps the resources held at the moment, and whether one was ever used or released
that was not held. It is balanced when nothing is held any more and no use was wrong: each
resource acquired has then been released exactly once, and not used afterwards.
-/

namespace Vs17

structure Resources (ι : Type*) where
  live : List ι
  misused : Bool
  deriving DecidableEq, Repr

namespace Resources

variable {ι : Type*}

def empty : Resources ι := ⟨[], false⟩

def acquire (i : ι) (t : Resources ι) : Resources ι := { t with live := i :: t.live }

@[simp] theorem live_acquire (i : ι) (t : Resources ι) : (t.acquire i).live = i :: t.live := rfl

@[simp] theorem misused_acquire (i : ι) (t : Resources ι) :
    (t.acquire i).misused = t.misused := rfl

/-- Something that was never acquired is used or released. -/
def misuse (t : Resources ι) : Resources ι := { t with misused := true }

/-- Nothing is held, and nothing was used or released that was not held. -/
structure Balanced (t : Resources ι) : Prop where
  live_eq : t.live = []
  not_misused : t.misused = false

theorem balanced_empty : (empty : Resources ι).Balanced := ⟨rfl, rfl⟩

variable [DecidableEq ι]

def use (i : ι) (t : Resources ι) : Resources ι :=
  { t with misused := t.misused || decide (i ∉ t.live) }

def release (i : ι) (t : Resources ι) : Resources ι :=
  ⟨t.live.erase i, t.misused || decide (i ∉ t.live)⟩

def useAll (l : List ι) (t : Resources ι) : Resources ι := l.foldl (fun t i => t.use i) t

def releaseAll (l : List ι) (t : Resources ι) : Resources ι := l.foldl (fun t i => t.release i) t

variable {i : ι} {t : Resources ι} {l : List ι}

@[simp] theorem live_use : (t.use i).live = t.live := rfl

@[simp] theorem live_release : (t.release i).live = t.live.erase i := rfl

theorem use_of_mem (h : i ∈ t.live) : t.use i = t := by
  simp [use, h]

@[simp] theorem release_acquire : (t.acquire i).release i = t := by
  simp [release, acquire]

theorem useAll_of_subset (h : ∀ i ∈ l, i ∈ t.live) : t.useAll l = t := by
  induction l with
  | nil => rfl
  | cons i l ih =>
    rw [useAll, List.foldl_cons, use_of_mem (h i (by simp))]
    exact ih fun j hj => h j (by simp [hj])

/-- Releasing everything that is held, each once, balances the ledger. -/
theorem releaseAll_of_perm (h : t.live.Perm l) : t.releaseAll l = ⟨[], t.misused⟩ := by
  induction l generalizing t with
  | nil =>
    obtain ⟨live, misused⟩ := t
    obtain rfl := h.eq_nil
    rfl
  | cons i l ih =>
    have hmem : i ∈ t.live := h.mem_iff.mpr (by simp)
    have herase : (t.release i).live.Perm l := by simpa using h.erase i
    rw [releaseAll, List.foldl_cons]
    exact (ih herase).trans (by simp [release, hmem])

end Resources

end Vs17
