import Mathlib.Data.List.Perm.Basic
import Mathlib.Data.Tree.Basic
import Mathlib.Order.Lattice

/-! # Orders of the nodes of a binary tree

The orders in which the recursive traversals visit the nodes, and search trees: the keys in
the left subtree of a node are smaller than its own, those in the right subtree are not.
-/

namespace Vs17.Trees

open BinaryTree

variable {α : Type*}

def preorder : BinaryTree α → List α
  | .nil => []
  | .node a l r => a :: (preorder l ++ preorder r)

def inorder : BinaryTree α → List α
  | .nil => []
  | .node a l r => inorder l ++ a :: inorder r

def postorder : BinaryTree α → List α
  | .nil => []
  | .node a l r => postorder l ++ postorder r ++ [a]

theorem inorder_perm (t : BinaryTree α) : (inorder t).Perm (preorder t) := by
  induction t with
  | nil => exact .nil
  | node a l r ihl ihr => exact List.perm_middle.trans ((ihl.append ihr).cons a)

theorem postorder_perm (t : BinaryTree α) : (postorder t).Perm (preorder t) := by
  induction t with
  | nil => exact .nil
  | node a l r ihl ihr =>
    exact (List.perm_append_singleton a _).trans ((ihl.append ihr).cons a)

theorem length_preorder (t : BinaryTree α) : (preorder t).length = t.numNodes := by
  induction t with
  | nil => rfl
  | node a l r ihl ihr => simp [preorder, ihl, ihr]

section Search

variable {κ : Type*} [LinearOrder κ] (key : α → κ)

def Search : BinaryTree α → Prop
  | .nil => True
  | .node a l r => (∀ x ∈ preorder l, key x < key a) ∧ (∀ x ∈ preorder r, key a ≤ key x) ∧
      Search l ∧ Search r

/-- A new leaf, to the right of elements with the same key. -/
def insertLeaf (x : α) : BinaryTree α → BinaryTree α
  | .nil => .node x .nil .nil
  | .node a l r => if key x < key a then .node a (insertLeaf x l) r else .node a l (insertLeaf x r)

variable {key} {x : α} {t : BinaryTree α}

theorem insertLeaf_perm (key : α → κ) (x : α) (t : BinaryTree α) :
    (preorder (insertLeaf key x t)).Perm (x :: preorder t) := by
  induction t with
  | nil => exact .refl _
  | node a l r ihl ihr =>
    rw [insertLeaf]
    split
    · exact ((ihl.append_right _).cons a).trans (.swap x a _)
    · exact (((ihr.append_left _).trans List.perm_middle).cons a).trans (.swap x a _)

theorem Search.leaf (h : Search key t) : Search key (insertLeaf key x t) := by
  induction t with
  | nil => simp [insertLeaf, Search, preorder]
  | node a l r ihl ihr =>
    obtain ⟨hl, hr, hsl, hsr⟩ := h
    rw [insertLeaf]
    split
    · rename_i hlt
      refine ⟨fun y hy => ?_, hr, ihl hsl, hsr⟩
      rcases List.mem_cons.mp ((insertLeaf_perm key x l).mem_iff.mp hy) with rfl | hy
      · exact hlt
      · exact hl y hy
    · rename_i hle
      refine ⟨hl, fun y hy => ?_, hsl, ihr hsr⟩
      rcases List.mem_cons.mp ((insertLeaf_perm key x r).mem_iff.mp hy) with rfl | hy
      · exact not_lt.mp hle
      · exact hr y hy

/-- The recursive traversal from left to right visits a search tree in ascending order. -/
theorem Search.inorder_sorted (h : Search key t) : (inorder t).Pairwise (key · ≤ key ·) := by
  induction t with
  | nil => exact .nil
  | node a l r ihl ihr =>
    obtain ⟨hl, hr, hsl, hsr⟩ := h
    have hleft : ∀ x ∈ inorder l, key x < key a := fun x hx =>
      hl x ((inorder_perm l).mem_iff.mp hx)
    have hright : ∀ x ∈ inorder r, key a ≤ key x := fun x hx =>
      hr x ((inorder_perm r).mem_iff.mp hx)
    rw [inorder, List.pairwise_append, List.pairwise_cons]
    refine ⟨ihl hsl, ⟨hright, ihr hsr⟩, fun x hx y hy => ?_⟩
    rcases List.mem_cons.mp hy with rfl | hy
    · exact (hleft x hx).le
    · exact (hleft x hx).le.trans (hright y hy)

end Search

section Levels

variable {l : List α} {k : ℕ}

/-- The nodes of a complete tree, level by level, that wait in the queue of a traversal after
the first ones have been taken off it. -/
def waiting (l : List α) (k : ℕ) : List α :=
  (l.take (2 * k + 1)).drop k

/-- The first of them is taken off, and its two children come to the end. -/
theorem waiting_succ (h : k < l.length) : ∃ rest, waiting l k = l[k] :: rest ∧
    waiting l (k + 1) = rest ++ l[2 * k + 1]?.toList ++ l[2 * k + 2]?.toList := by
  refine ⟨(l.take (2 * k + 1)).drop (k + 1), ?_, ?_⟩
  · have hk : k < (l.take (2 * k + 1)).length := by
      rw [List.length_take]
      omega
    rw [waiting, List.drop_eq_getElem_cons hk, List.getElem_take]
  · have hk : k + 1 ≤ (l.take (2 * k + 1)).length := by
      rw [List.length_take]
      omega
    rw [waiting, show 2 * (k + 1) + 1 = 2 * k + 1 + 1 + 1 by omega, List.take_add_one,
      List.take_add_one, List.append_assoc, List.drop_append_of_le_length hk, List.append_assoc]

theorem waiting_all : waiting l l.length = [] :=
  List.drop_eq_nil_of_le (List.length_take_le' ..)

end Levels

end Vs17.Trees
