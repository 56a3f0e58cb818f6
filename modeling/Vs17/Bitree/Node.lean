import Mathlib.Data.List.Nodup
import Mathlib.Logic.Function.Basic
import Vs17.Library.Trees

/-! # Nodes in memory

A `MyBitree` is a node with pointers to its children. The nodes lie at addresses, and a null
pointer has none. A tree in memory is described by the inductive tree of the addresses and
values of its nodes.
-/

namespace Vs17.Bitree

open Trees

variable {α : Type}

/-- A node; no address is the null pointer. -/
structure MyBitree (α : Type) where
  value : α
  lchild : Option ℕ
  rchild : Option ℕ
  deriving DecidableEq, Repr

/-- The live nodes. -/
abbrev Nodes (α : Type) := ℕ → Option (MyBitree α)

/-- The pointer leads to the root of this tree. -/
def Linked (nodes : Nodes α) : Option ℕ → BinaryTree (ℕ × α) → Prop
  | p, .nil => p = none
  | p, .node (a, v) l r => p = some a ∧ ∃ lchild rchild, nodes a = some ⟨v, lchild, rchild⟩ ∧
      Linked nodes lchild l ∧ Linked nodes rchild r

def addresses (t : BinaryTree (ℕ × α)) : List ℕ :=
  (preorder t).map Prod.fst

/-- A tree in memory: no two of its nodes are at one address. -/
structure IsTree (nodes : Nodes α) (p : Option ℕ) (t : BinaryTree (ℕ × α)) : Prop where
  linked : Linked nodes p t
  nodup : (addresses t).Nodup

section Links

variable {nodes nodes' : Nodes α} {p : Option ℕ} {t l r : BinaryTree (ℕ × α)} {a : ℕ} {v : α}

theorem addresses_node : addresses (.node (a, v) l r) = a :: (addresses l ++ addresses r) := by
  simp [addresses, preorder]

theorem nodup_node : (addresses (.node (a, v) l r)).Nodup ↔ a ∉ addresses l ++ addresses r ∧
    (addresses l).Nodup ∧ (addresses r).Nodup ∧ (addresses l).Disjoint (addresses r) := by
  rw [addresses_node, List.nodup_cons, List.nodup_append']

theorem Linked.exists_node (h : Linked nodes (some a) t) : ∃ v l r, t = .node (a, v) l r := by
  cases t with
  | nil => exact absurd h (Option.some_ne_none a)
  | node x l r =>
    obtain ⟨b, v⟩ := x
    obtain ⟨hab, _⟩ := h
    obtain rfl := Option.some.inj hab
    exact ⟨v, l, r, rfl⟩

theorem Linked.eq_nil (h : Linked nodes none t) : t = .nil := by
  cases t with
  | nil => rfl
  | node x l r => exact absurd h.1.symm (Option.some_ne_none _)

theorem Linked.congr (h : Linked nodes p t) (hsame : ∀ a ∈ addresses t, nodes' a = nodes a) :
    Linked nodes' p t := by
  induction t generalizing p with
  | nil => exact h
  | node x l r ihl ihr =>
    obtain ⟨a, v⟩ := x
    obtain ⟨rfl, lchild, rchild, hnode, hl, hr⟩ := h
    rw [addresses_node] at hsame
    refine ⟨rfl, lchild, rchild, ?_, ihl hl fun b hb => hsame b ?_, ihr hr fun b hb => hsame b ?_⟩
    · rw [hsame a List.mem_cons_self, hnode]
    · exact List.mem_cons_of_mem _ (List.mem_append_left _ hb)
    · exact List.mem_cons_of_mem _ (List.mem_append_right _ hb)

theorem update_of_mem {c : ℕ} {x y : Option (MyBitree α)}
    (hnodup : (addresses (.node (a, v) l r)).Nodup) (hc : c ∉ addresses (.node (a, v) l r)) :
    ∀ b ∈ addresses l ++ addresses r,
      Function.update (Function.update nodes c x) a y b = nodes b := by
  rw [addresses_node] at hc
  obtain ⟨hroot, _⟩ := nodup_node.mp hnodup
  intro b hb
  rw [Function.update_of_ne, Function.update_of_ne]
  · rintro rfl
    exact hc (List.mem_cons_of_mem _ hb)
  · rintro rfl
    exact hroot hb

theorem linked_leaf {c : ℕ} {u : α} {y : Option (MyBitree α)} (hca : c ≠ a) :
    Linked (Function.update (Function.update nodes c (some ⟨u, none, none⟩)) a y) (some c)
      (.node (c, u) .nil .nil) := by
  refine ⟨rfl, none, none, ?_, rfl, rfl⟩
  rw [Function.update_of_ne hca, Function.update_self]

theorem Linked.attach_left {c : ℕ} {u : α} {rchild : Option ℕ} (hr : Linked nodes rchild r)
    (hnodup : (addresses (.node (a, v) l r)).Nodup) (hc : c ∉ addresses (.node (a, v) l r)) :
    Linked (Function.update (Function.update nodes c (some ⟨u, none, none⟩)) a
      (some ⟨v, some c, rchild⟩)) (some a) (.node (a, v) (.node (c, u) .nil .nil) r) := by
  refine ⟨rfl, _, _, Function.update_self .., linked_leaf ?_, hr.congr fun b hb => ?_⟩
  · rintro rfl
    exact hc (by simp [addresses_node])
  · exact update_of_mem hnodup hc b (List.mem_append_right _ hb)

theorem Linked.attach_right {c : ℕ} {u : α} {lchild : Option ℕ} (hl : Linked nodes lchild l)
    (hnodup : (addresses (.node (a, v) l r)).Nodup) (hc : c ∉ addresses (.node (a, v) l r)) :
    Linked (Function.update (Function.update nodes c (some ⟨u, none, none⟩)) a
      (some ⟨v, lchild, some c⟩)) (some a) (.node (a, v) l (.node (c, u) .nil .nil)) := by
  refine ⟨rfl, _, _, Function.update_self .., hl.congr fun b hb => ?_, linked_leaf ?_⟩
  · exact update_of_mem hnodup hc b (List.mem_append_left _ hb)
  · rintro rfl
    exact hc (by simp [addresses_node])

theorem Linked.live (h : Linked nodes p t) (ha : a ∈ addresses t) :
    ∃ node, nodes a = some node := by
  induction t generalizing p with
  | nil => simp [addresses, preorder] at ha
  | node x l r ihl ihr =>
    obtain ⟨b, v⟩ := x
    obtain ⟨rfl, lchild, rchild, hnode, hl, hr⟩ := h
    rw [addresses_node] at ha
    rcases List.mem_cons.mp ha with rfl | ha
    · exact ⟨_, hnode⟩
    · rcases List.mem_append.mp ha with ha | ha
      · exact ihl hl ha
      · exact ihr hr ha

end Links

/-- The live nodes, and the address the next `new` gives out. -/
structure Memory (α : Type) where
  nodes : Nodes α
  next : ℕ
  fresh : ∀ a, next ≤ a → nodes a = none

namespace Memory

/-- `new` -/
def new (mem : Memory α) (node : MyBitree α) : ℕ × Memory α :=
  (mem.next, {
    nodes := Function.update mem.nodes mem.next (some node)
    next := mem.next + 1
    fresh a ha := by
      rw [Function.update_of_ne (by omega)]
      exact mem.fresh a (by omega) })

def write (mem : Memory α) (a : ℕ) (node : MyBitree α) : Option (Memory α) :=
  if h : a < mem.next ∧ (mem.nodes a).isSome then some {
    nodes := Function.update mem.nodes a (some node)
    next := mem.next
    fresh b hb := by
      rw [Function.update_of_ne (by omega)]
      exact mem.fresh b hb }
  else none

/-- A memory with one node, which has no children. -/
def single (v : α) : Memory α where
  nodes a := if a = 0 then some ⟨v, none, none⟩ else none
  next := 1
  fresh a ha := if_neg (by omega)

variable {mem : Memory α} {a : ℕ} {node : MyBitree α}

theorem lt_next (h : mem.nodes a = some node) : a < mem.next := by
  by_contra hle
  rw [mem.fresh a (by omega)] at h
  cases h

theorem write_eq (h : mem.nodes a = some node) (node' : MyBitree α) :
    ∃ mem', mem.write a node' = some mem' ∧
      mem'.nodes = Function.update mem.nodes a (some node') ∧ mem'.next = mem.next :=
  ⟨_, dif_pos ⟨lt_next h, by rw [h, Option.isSome_some]⟩, rfl, rfl⟩

end Memory

theorem next_not_mem {mem : Memory α} {p : Option ℕ} {t : BinaryTree (ℕ × α)}
    (h : Linked mem.nodes p t) : mem.next ∉ addresses t := by
  intro hmem
  obtain ⟨node, hnode⟩ := h.live hmem
  exact Nat.lt_irrefl _ (Memory.lt_next hnode)

end Vs17.Bitree
