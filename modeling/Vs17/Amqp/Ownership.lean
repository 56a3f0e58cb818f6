import Vs17.Amqp.BasicMessage
import Vs17.Amqp.Copying
import Vs17.Library.Holders

/-! # What a message owns

The memory of `malloc` is divided between the messages: each of its blocks is held in one place of
one message. A call on a message neither loses nor takes anything, and it spares what others have.
-/

namespace Vs17.Amqp.Tables

open Calls Heap

/-! ### Flags -/

theorem Property.bit_lt (p : Property) : p.bit < 32 := by
  rcases p with p | n | _
  · cases p <;> decide
  · cases n <;> decide
  · decide

theorem Property.bit_injective : Function.Injective Property.bit := by
  intro p q h
  rcases p with p | n | _ <;> try cases p
  all_goals try cases n
  all_goals rcases q with q | n | _ <;> try cases q
  all_goals try cases n
  all_goals first | rfl | cases h

namespace BasicMessageImpl

variable {i : BasicMessageImpl} {p q : Property}

theorem isSet_eq : i.isSet p = i.properties.flags.getLsbD p.bit := by
  unfold isSet Property.flag
  rw [BitVec.and_twoPow]
  split_ifs with h
  · rw [h, beq_self_eq_true]
  · have hne : BitVec.twoPow 32 p.bit ≠ 0#32 := by
      intro hzero
      have hbit := congrArg (fun v => v.getLsbD p.bit) hzero
      simp [p.bit_lt] at hbit
    rw [Bool.not_eq_true] at h
    rw [h, beq_eq_false_iff_ne]
    exact hne

theorem isSet_setFlag : (i.setFlag p).isSet q = (i.isSet q || decide (p = q)) := by
  simp only [isSet_eq, ← Property.bit_injective.eq_iff]
  unfold setFlag Property.flag
  rw [BitVec.getLsbD_or, BitVec.getLsbD_twoPow, decide_eq_true p.bit_lt, Bool.true_and]

theorem isSet_clearFlag : (i.clearFlag p).isSet q = (i.isSet q && !decide (p = q)) := by
  simp only [isSet_eq, ← Property.bit_injective.eq_iff]
  unfold clearFlag Property.flag
  rw [BitVec.getLsbD_and, BitVec.getLsbD_not, BitVec.getLsbD_twoPow, decide_eq_true p.bit_lt,
    decide_eq_true q.bit_lt, Bool.true_and, Bool.true_and]

theorem isSet_setFlag_of_ne (hpq : p ≠ q) : (i.setFlag p).isSet q = i.isSet q := by
  rw [isSet_setFlag, decide_eq_false hpq, Bool.or_false]

theorem isSet_clearFlag_of_ne (hpq : p ≠ q) : (i.clearFlag p).isSet q = i.isSet q := by
  rw [isSet_clearFlag, decide_eq_false hpq, Bool.not_false, Bool.and_true]

end BasicMessageImpl

/-! ### Places of a message -/

/-- Where a message has a block of `malloc`. -/
inductive Slot
  | body
  | string (p : StringProperty)
  | pool
  deriving DecidableEq, Repr

def BasicMessageImpl.slot (i : BasicMessageImpl) : Slot → Ptr
  | .body => i.body.bytes
  | .string p => if i.isSet (.string p) then (i.properties.strings p).bytes else none
  | .pool => i.tablePool

theorem BasicMessageImpl.slot_string {i : BasicMessageImpl} {p : StringProperty} :
    i.slot (.string p) = if i.isSet (.string p) then (i.properties.strings p).bytes else none := rfl

/-- The blocks that others have: those of `malloc` at their addresses `X`, those of their pools, and
those of the connection. -/
def Foreign (X : Set ℕ) (a : ℕ) : Owner → Prop
  | .malloc => a ∈ X
  | .pool p => p ∈ X
  | .channel _ => True

/-- What others have stays as it is. -/
def Spares (X : Set ℕ) (m k : Memory) : Prop :=
  ∀ a o b, Foreign X a o → m.block? a = some (o, b) → k.block? a = some (o, b)

theorem Spares.refl {X : Set ℕ} {m : Memory} : Spares X m m := fun _ _ _ _ hb => hb

theorem Spares.trans {X : Set ℕ} {m k l : Memory} (h₁ : Spares X m k) (h₂ : Spares X k l) :
    Spares X m l := fun a o b ho hb => h₂ a o b ho (h₁ a o b ho hb)

variable {m k : Memory} {g : Slot → Ptr} {X : Set ℕ} {B : Slot → Block} {s : Slot} {a : ℕ}

/-- The places of a message, with the blocks that are there. What others have of `malloc` is `X`,
and a pool that has memory is there itself. -/
structure Has (m : Memory) (g : Slot → Ptr) (X : Set ℕ) (B : Slot → Block) : Prop where
  others : X ⊆ m.owned .malloc
  held : Held g (m.owned .malloc \ X)
  pools : ∀ a p b, m.block? a = some (.pool p, b) → m.block? p = some (.malloc, .pool)
  block : ∀ s a, g s = some a → m.block? a = some (.malloc, B s)

theorem Has.notMem (h : Has m g X B) (hs : g s = some a) : a ∉ X := (h.held.mem hs).2

theorem Has.congr (h : Has m g X B) {g' : Slot → Ptr} {B' : Slot → Block} (hg : ∀ s, g' s = g s)
    (hB : ∀ s a, g s = some a → B' s = B s) : Has m g' X B' := by
  obtain rfl : g' = g := funext hg
  exact { h with block := fun s a hs => hB s a hs ▸ h.block s a hs }

/-- Only a pool has memory. -/
theorem Has.owned_pool (h : Has m g X B) (hs : g s = some a) (hB : B s ≠ .pool) :
    m.owned (.pool a) = ∅ := by
  ext n
  constructor
  · rintro ⟨b, hb⟩
    have hp := h.pools n a b hb
    rw [h.block s a hs, Option.some.injEq, Prod.mk.injEq] at hp
    exact hB hp.2
  · rintro ⟨⟩

/-- A block is freed in which nothing is left. -/
theorem Has.release (h : Has m g X B) (hs : g s = some a) (ha : m.owned (.pool a) = ∅) :
    Has (m.release a) (Function.update g s none) X B where
  others n hn := by
    rw [owned_release]
    refine ⟨h.others hn, ?_⟩
    rintro rfl
    exact h.notMem hs hn
  held := by
    rw [owned_release, Set.sdiff_sdiff_comm]
    exact h.held.take hs
  pools n p b hb := by
    rw [block?_release] at hb ⊢
    split_ifs at hb
    have hpa : p ≠ a := by
      rintro rfl
      have hmem : n ∈ m.owned (.pool p) := ⟨b, hb⟩
      rw [ha] at hmem
      exact hmem
    rw [if_neg hpa, h.pools n p b hb]
  block t n ht := by
    rcases eq_or_ne t s with rfl | hts
    · rw [Function.update_self] at ht
      cases ht
    · rw [Function.update_of_ne hts] at ht
      rw [block?_release, if_neg (h.held.ne_of_ne ht hs hts)]
      exact h.block t n ht

/-- The memory of a pool of the message is released. -/
theorem Has.releaseOwned {p : ℕ} (h : Has m g X B) : Has (m.releaseOwned (.pool p)) g X B where
  others := by
    rw [owned_releaseOwned_of_ne (by simp)]
    exact h.others
  held := by
    rw [owned_releaseOwned_of_ne (by simp)]
    exact h.held
  pools n q b hb := by
    obtain ⟨hb, -⟩ := block?_releaseOwned_eq_some.mp hb
    exact block?_releaseOwned_eq_some.mpr ⟨h.pools n q b hb, by simp⟩
  block t n ht := block?_releaseOwned_eq_some.mpr ⟨h.block t n ht, by simp⟩

theorem Has.spares_release (h : Has m g X B) (hs : g s = some a) : Spares X m (m.release a) := by
  intro n o b ho hb
  have hna : n ≠ a := by
    rintro rfl
    rw [h.block s n hs] at hb
    cases hb
    exact h.notMem hs ho
  rw [block?_release, if_neg hna, hb]

theorem Has.alloc (h : Has m g X B) (hs : g s = none) {b : Block} :
    Has (m.alloc .malloc b) (Function.update g s (some m.top)) X (Function.update B s b) where
  others n hn := by
    rw [owned_alloc]
    exact .inr (h.others hn)
  held := by
    have htop : m.top ∉ X := fun hX => top_notMem_owned (h.others hX)
    rw [owned_alloc, Set.insert_sdiff_of_notMem _ htop]
    exact h.held.give hs fun hmem => top_notMem_owned hmem.1
  pools n p c hc := by
    rw [block?_alloc] at hc
    split_ifs at hc
    · cases hc
    · exact keeps_alloc {p} p rfl _ (h.pools n p c hc)
  block t n ht := by
    rcases eq_or_ne t s with rfl | hts
    · rw [Function.update_self, Option.some.injEq] at ht
      rw [← ht, Function.update_self, block?_alloc_top]
    · rw [Function.update_of_ne hts] at ht
      rw [Function.update_of_ne hts]
      exact keeps_alloc {n} n rfl _ (h.block t n ht)

theorem spares_alloc {o : Owner} {b : Block} : Spares X m (m.alloc o b) :=
  fun a _ _ _ hb => keeps_alloc {a} a rfl _ hb

theorem Has.livePool (h : Has m g X B) (hB : B .pool = .pool) : LivePool m (g .pool) :=
  fun p hp => hB ▸ h.block .pool p hp

/-- The pool is deleted with all its memory. -/
theorem Has.dropPool (h : Has m g X B) :
    Has (dropPool (g .pool) m) (Function.update g .pool none) X B := by
  cases hp : g .pool with
  | none => exact h.congr (fun s => by rw [← hp, Function.update_eq_self]) fun _ _ _ => rfl
  | some p => exact h.releaseOwned.release hp owned_releaseOwned

theorem Has.spares_dropPool (h : Has m g X B) : Spares X m (Tables.dropPool (g .pool) m) := by
  cases hp : g .pool with
  | none => exact Spares.refl
  | some p =>
    refine Spares.trans (k := m.releaseOwned (.pool p)) ?_ (h.releaseOwned.spares_release hp)
    intro a o b ho hb
    refine block?_releaseOwned_eq_some.mpr ⟨hb, ?_⟩
    rintro rfl
    exact h.notMem hp ho

theorem renewPool_eq {pool : Option ℕ} (hp : LivePool m pool) :
    renewPool pool m = (dropPool pool m).alloc .malloc .pool := by
  cases pool with
  | none => rfl
  | some p =>
    have htop : p < (m.releaseOwned (.pool p)).top := by
      rw [top_releaseOwned]
      exact Heap.lt_top (hp p rfl)
    exact (congrArg (Heap.release · p) (releaseOwned_alloc (by simp))).trans (release_alloc htop)

/-- A pool is made in the place of another. -/
theorem Has.renewPool (h : Has m g X B) (hB : B .pool = .pool) :
    Has (renewPool (g .pool) m) (Function.update g .pool (some m.top)) X B := by
  rw [renewPool_eq (h.livePool hB)]
  have hnew := h.dropPool.alloc (b := .pool) (Function.update_self ..)
  rw [top_dropPool] at hnew
  refine hnew.congr (fun s => ?_) fun s a _ => ?_
  · rw [Function.update_idem]
  · rw [← hB, Function.update_eq_self]

theorem Has.spares_renewPool (h : Has m g X B) (hB : B .pool = .pool) :
    Spares X m (Tables.renewPool (g .pool) m) := by
  rw [renewPool_eq (h.livePool hB)]
  exact h.spares_dropPool.trans spares_alloc

theorem Grows.spares {o : Owner} (hk : Grows o m k) : Spares X m k :=
  fun a _ _ _ hb => hk.keeps {a} a rfl _ hb

/-- The pool of the message gets memory. -/
theorem Has.grows {p : ℕ} (h : Has m g X B) (hp : g .pool = some p) (hB : B .pool = .pool)
    (hk : Grows (.pool p) m k) : Has k g X B where
  others := by
    rw [hk.owned_of_ne (by simp)]
    exact h.others
  held := by
    rw [hk.owned_of_ne (by simp)]
    exact h.held
  pools n q b hb := by
    have hkeep : ∀ q, m.block? q = some (.malloc, .pool) → k.block? q = some (.malloc, .pool) :=
      fun q hq => hk.keeps {q} q rfl _ hq
    rcases Nat.lt_or_ge n m.top with hn | hn
    · rw [hk.old n hn] at hb
      exact hkeep q (h.pools n q b hb)
    · obtain ⟨c, hc⟩ := hk.new n hn (Heap.lt_top hb)
      rw [hc] at hb
      cases hb
      exact hkeep p (h.livePool hB p hp)
  block t n ht := hk.keeps {n} n rfl _ (h.block t n ht)

end Vs17.Amqp.Tables
