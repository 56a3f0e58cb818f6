import Mathlib.Data.List.Induction
import Vs17.Library.Arrays
import Vs17.Library.Counted

/-! # Moving the rest of an array to the front

The elements behind a gap are copied over it one after the other, from the front to the end.
-/

namespace Vs17.Shifting

open Arrays Counted

variable {α σ : Type} {a a' : List α} {i j m : ℤ}

/-- `a[j] = a[j + m]` -/
def pull (m j : ℤ) (a : List α) : Option (List α) := do
  let x ← load a (j + m)
  store a j x

/-- The elements `v` stand at the place of the gap, and behind them is what was not
overwritten. -/
theorem forUp_pull (u x v w : List α) :
    forUp (pull x.length) u.length (u.length + v.length) (u ++ x ++ v ++ w) =
      some (u ++ v ++ (x ++ v).drop v.length ++ w) := by
  induction v generalizing u x with
  | nil => simp [forUp_of_le]
  | cons c v ih =>
    have hget : load (u ++ x ++ c :: v ++ w) (u.length + x.length) = some c := by
      simpa using load_at (u ++ x) c (v ++ w)
    obtain ⟨y, z, hyz⟩ := List.exists_cons_of_ne_nil (by simp : x ++ [c] ≠ [])
    have hxv : x ++ c :: v = y :: (z ++ v) := by
      rw [List.append_cons, hyz, List.cons_append]
    have hset : store (u ++ x ++ c :: v ++ w) u.length c = some (u ++ [c] ++ z ++ v ++ w) := by
      have hat := store_at u y c (z ++ v ++ w)
      rw [List.append_assoc u x, hxv]
      simpa using hat
    have hlen : z.length = x.length := by
      simpa using (congrArg List.length hyz).symm
    have hu : ((u ++ [c]).length : ℤ) = u.length + 1 := by simp
    have hnext := ih (u ++ [c]) z
    rw [hlen, hu] at hnext
    have hround : pull x.length u.length (u ++ x ++ c :: v ++ w) =
        some (u ++ [c] ++ z ++ v ++ w) := by
      rw [pull, hget, Option.bind_eq_bind, Option.bind_some, hset]
    have hsum : (u.length : ℤ) + (c :: v).length = u.length + 1 + v.length := by
      rw [List.length_cons]
      omega
    rw [forUp_of_lt (by simp), hround, Option.bind_some, hsum, hnext, hxv]
    simp

/-- A copy that succeeds reads inside the array and keeps its length. -/
theorem pull_bounds (h : pull m j a = some a') : j + m < a.length ∧ a'.length = a.length := by
  obtain ⟨x, hx, hstore⟩ := Option.bind_eq_some_iff.mp h
  exact ⟨(load_bounds hx).2, length_of_store hstore⟩

theorem load_pull (h : pull m j a = some a') (l : ℤ) :
    load a' l = if l = j then load a (j + m) else load a l := by
  obtain ⟨x, hx, hstore⟩ := Option.bind_eq_some_iff.mp h
  rw [store] at hstore
  split at hstore
  · rename_i hin
    obtain rfl := Option.some.inj hstore
    rw [load_set hin.1 hin.2, hx]
  · cases hstore

/-- A loop of copies that succeeds has read inside the array. -/
theorem forUp_pull_bounds {lo hi : ℤ} (h : forUp (pull m) lo hi a = some a') (hlt : lo < hi) :
    hi - 1 + m < a.length := by
  obtain ⟨_, hread⟩ := forUp_invariant
    (fun i s => s.length = a.length ∧ (lo < i → i - 1 + m < a.length)) h hlt.le
    ⟨rfl, fun hlo => absurd hlo (lt_irrefl lo)⟩ fun i s s' _ _ hI hs => by
      obtain ⟨hread, hlen⟩ := pull_bounds hs
      rw [hI.1] at hread hlen
      exact ⟨hlen, fun _ => by omega⟩
  exact hread hlt

theorem length_of_forUp_pull {lo hi : ℤ} (h : forUp (pull m) lo hi a = some a') (hle : lo ≤ hi) :
    a'.length = a.length := by
  apply forUp_invariant (fun _ s => s.length = a.length) h hle rfl
  intro i s s' _ _ hI hs
  exact (pull_bounds hs).2.trans hI

/-- An element that none of the places read holds does not get to the front. -/
theorem forUp_pull_avoids {lo hi n : ℤ} {x : α} (h : forUp (pull m) lo hi a = some a')
    (hle : lo ≤ hi) (hn : hi - 1 + m < n) (ha : ∀ l < n, load a l ≠ some x) :
    ∀ l < n, load a' l ≠ some x := by
  apply forUp_invariant (fun _ s => ∀ l < n, load s l ≠ some x) h hle ha
  intro i s s' _ hi hI hs l hl
  rw [load_pull hs]
  split
  · exact hI _ (by omega)
  · exact hI l hl

/-- A loop over the elements of a list, from its end. -/
theorem forDown_load (g : α → σ → Option σ) (l post : List α) (s : σ) :
    forDown (fun n s => (load (l ++ post) n).bind fun x => g x s) l.length 0 s =
      l.foldrM g s := by
  induction l using List.reverseRecOn generalizing post s with
  | nil => exact forDown_of_le le_rfl
  | append_singleton l x ih =>
    have hlast : ((l ++ [x]).length : ℤ) - 1 = l.length := by simp
    have hget : load (l ++ [x] ++ post) l.length = some x := by
      simpa using load_at l x post
    rw [forDown_of_lt (by simp), hlast, hget, Option.bind_some, List.foldrM_append]
    simp only [List.foldrM_cons, List.foldrM_nil, pure_bind, Option.bind_eq_bind]
    congr 1
    funext t
    rw [List.append_assoc]
    exact ih ([x] ++ post) t

end Vs17.Shifting
