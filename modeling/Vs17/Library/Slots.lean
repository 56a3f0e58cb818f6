import Mathlib.Data.List.Induction
import Mathlib.Data.List.Nodup

/-! # Slots for keys

An array of slots is searched for a key, as far as its slots are in use. The rows of a table are
entered one after another, each under its key, and only the first row of a key counts.
-/

namespace Vs17.Slots

section Search

variable {α κ : Type*}

/-- The index of the first slot with the property, from index `n` on and with so many slots left
to search. If there is none, it is the index behind them. -/
def search (xs : List α) (p : α → Bool) (n : ℕ) : ℕ → Option ℕ
  | 0 => some n
  | k + 1 =>
    match xs[n]? with
    | none => none
    | some x => if p x then some n else search xs p (n + 1) k

variable {xs : List α} {p : α → Bool} {n k : ℕ}

theorem search_eq (h : n + k ≤ xs.length) :
    search xs p n k = some (n + ((xs.drop n).take k).findIdx p) := by
  induction k generalizing n with
  | zero => simp [search]
  | succ k ih =>
    have hn : n < xs.length := by omega
    rw [search, List.getElem?_eq_getElem hn, List.drop_eq_getElem_cons hn, List.take_succ_cons,
      List.findIdx_cons]
    dsimp only
    cases hp : p xs[n] with
    | true => simp
    | false =>
      rw [if_neg Bool.false_ne_true, ih (by omega), cond_false, Nat.add_assoc, Nat.add_comm 1]

variable [DecidableEq κ] {key : α → κ} {ks : List κ}

/-- A search among slots with these keys. -/
theorem search_key (h : (xs.take ks.length).map key = ks) (k : κ) :
    search xs (fun x => key x = k) 0 ks.length = some (ks.findIdx fun k' => k' = k) := by
  have hlen : ks.length ≤ xs.length := by
    have hlen := congrArg List.length h
    rw [List.length_map, List.length_take] at hlen
    omega
  rw [search_eq (by omega), List.drop_zero, Nat.zero_add]
  conv_rhs => rw [← h]
  rw [List.findIdx_map]
  rfl

end Search

section Records

variable {ρ κ : Type*} [DecidableEq κ] (key : ρ → κ)

/-- A row is entered if its key is not there. -/
def record (rs : List ρ) (r : ρ) : List ρ := if key r ∈ rs.map key then rs else rs ++ [r]

def records (rows : List ρ) : List ρ := rows.foldl (record key) []

variable {key} {rs rows more : List ρ} {r : ρ} {k : κ}

@[simp] theorem records_nil : records key [] = [] := rfl

theorem records_concat : records key (rows ++ [r]) = record key (records key rows) r :=
  List.foldl_concat ..

theorem prefix_record : rs <+: record key rs r := by
  rw [record]
  split_ifs
  · exact List.prefix_rfl
  · exact List.prefix_append ..

theorem prefix_records : records key rows <+: records key (rows ++ more) := by
  induction more using List.reverseRecOn with
  | nil => simp
  | append_singleton more r ih =>
    rw [← List.append_assoc, records_concat]
    exact ih.trans prefix_record

theorem nodup_records (rows : List ρ) : ((records key rows).map key).Nodup := by
  induction rows using List.reverseRecOn with
  | nil => exact List.nodup_nil
  | append_singleton rows r ih =>
    rw [records_concat, record]
    split_ifs with hr
    · exact ih
    · rw [List.map_append, List.map_singleton]
      exact List.concat_eq_append ▸ ih.concat hr

/-- The rows that are entered are the first ones of their keys. -/
theorem find?_records (rows : List ρ) (k : κ) :
    (records key rows).find? (fun r => key r = k) = rows.find? fun r => key r = k := by
  induction rows using List.reverseRecOn with
  | nil => rfl
  | append_singleton rows r ih =>
    rw [records_concat, record, List.find?_append, ← ih]
    split_ifs with hr
    · by_cases hk : key r = k
      · obtain ⟨r', hr', hkey⟩ := List.mem_map.mp hr
        have hsome : ((records key rows).find? fun r => key r = k).isSome := by
          rw [List.find?_isSome]
          exact ⟨r', hr', by simp [hkey, hk]⟩
        rw [Option.or_of_isSome hsome]
      · simp [hk]
    · rw [List.find?_append]

theorem mem_keys_iff : k ∈ rows.map key ↔ (rows.find? fun r => key r = k).isSome := by
  simp [List.find?_isSome]

theorem mem_keys_records : k ∈ (records key rows).map key ↔ k ∈ rows.map key := by
  rw [mem_keys_iff, mem_keys_iff, find?_records]

/-- Among rows with different keys each is the one that its key finds. -/
theorem find?_of_nodup (hnodup : (rs.map key).Nodup) (hr : r ∈ rs) :
    (rs.find? fun r' => key r' = key r) = some r := by
  have hsome : (rs.find? fun r' => key r' = key r).isSome :=
    mem_keys_iff.mp (List.mem_map_of_mem hr)
  obtain ⟨r', hr'⟩ := Option.isSome_iff_exists.mp hsome
  have hkey : key r' = key r := by simpa using List.find?_some hr'
  rw [hr', List.inj_on_of_nodup_map hnodup (List.mem_of_find?_eq_some hr') hr hkey]

end Records

end Vs17.Slots
