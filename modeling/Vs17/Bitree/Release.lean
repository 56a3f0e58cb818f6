import Mathlib.Data.List.Forall2
import Vs17.Bitree.Node
import Vs17.Library.Loop

/-! # Releasing trees

Both `deleteTree` collect the nodes of a tree in a list, and then unlink and delete them from
the end of the list. The destructor deletes the trees of both children first. A deletion of a
node that is not live is a fault, and what has been freed is recorded.
-/

namespace Vs17.Bitree

open Trees

variable {α : Type}

/-- The live nodes, and the addresses freed so far. -/
structure Live (α : Type) where
  nodes : Nodes α
  freed : List ℕ

namespace Live

/-- The two assignments that make a node childless. -/
def unlink (s : Live α) (a : ℕ) : Option (Live α) := do
  let node ← s.nodes a
  return { s with nodes := Function.update s.nodes a (some ⟨node.value, none, none⟩) }

/-- The memory of a live node is given back. -/
def free (s : Live α) (a : ℕ) : Option (Live α) := do
  let _ ← s.nodes a
  return ⟨Function.update s.nodes a none, s.freed ++ [a]⟩

end Live

/-- A round of the loop that collects the nodes: those the iterator has passed, and those from
it on. -/
def collectBody (nodes : Nodes α) (s : List ℕ × List ℕ) :
    (List ℕ × List ℕ) ⊕ Option (List ℕ) :=
  match s.2 with
  | [] => .inr none
  | iter :: rest =>
    match nodes iter with
    | none => .inr none
    | some node =>
      let rest := rest ++ node.lchild.toList ++ node.rchild.toList
      if rest = [] then .inr (some (s.1 ++ [iter])) else .inl (s.1 ++ [iter], rest)

/-- The loop from the end of the list: a node is unlinked and deleted. -/
def releaseAll (delete : Live α → ℕ → Option (Live α)) (tmpList : List ℕ) (s : Live α) :
    Option (Live α) :=
  tmpList.reverse.foldlM (fun s p => do
    let s ← s.unlink p
    delete s p) s

mutual

/-- `delete`: the destructor, and then the memory. -/
def destroy : ℕ → Live α → ℕ → Option (Live α)
  | 0, _, _ => none
  | n + 1, s, this => do
    let node ← s.nodes this
    let s ← deleteTree n s node.lchild
    let node ← s.nodes this
    let s ← deleteTree n s node.rchild
    s.free this

/-- `deleteTree(bt)`, with fuel for its loop and for the calls below one another. -/
def deleteTree : ℕ → Live α → Option ℕ → Option (Live α)
  | 0, _, _ => none
  | _ + 1, s, none => some s
  | n + 1, s, some bt => do
    let node ← s.nodes bt
    if node.lchild = none ∧ node.rchild = none then some s
    else do
      let tmpList ← (Loop.run (collectBody s.nodes) n ([], [bt])).join
      releaseAll (fun s p => destroy n s p) tmpList s

end

/-- `deleteTree()`, which keeps the root. -/
def deleteTreeThis (n : ℕ) (s : Live α) : Option ℕ → Option (Live α)
  | none => some s
  | some this => do
    let node ← s.nodes this
    if node.lchild = none ∧ node.rchild = none then some s
    else do
      let tmpList ← (Loop.run (collectBody s.nodes) n ([], [this])).join
      let s ← releaseAll (destroy n) tmpList.tail s
      s.unlink this

section Collecting

variable {nodes : Nodes α} {p : Option ℕ} {t : BinaryTree (ℕ × α)}

/-- Pointers to the roots of these trees. -/
def Forest (nodes : Nodes α) : List ℕ → List (BinaryTree (ℕ × α)) → Prop :=
  List.Forall₂ fun a t => Linked nodes (some a) t

theorem Linked.forest (h : Linked nodes p t) :
    ∃ F, Forest nodes p.toList F ∧ F.flatMap addresses = addresses t := by
  cases p with
  | none =>
    obtain rfl := h.eq_nil
    exact ⟨[], .nil, rfl⟩
  | some a => exact ⟨[t], .cons h .nil, by simp⟩

theorem collect_ends {iter : ℕ} {rest : List ℕ} (passed : List ℕ) {F : List (BinaryTree (ℕ × α))}
    (h : Forest nodes (iter :: rest) F) : ∃ l, (iter :: l).Perm (F.flatMap addresses) ∧
      Loop.Ends (collectBody nodes) (passed, iter :: rest) (some (passed ++ iter :: l)) := by
  induction hn : (F.flatMap addresses).length generalizing iter rest passed F with
  | zero =>
    cases h with
    | cons ht _ =>
      obtain ⟨v, l, r, rfl⟩ := ht.exists_node
      simp [addresses_node] at hn
  | succ n ih =>
    cases h with
    | @cons _ t _ F ht hF =>
      obtain ⟨v, l, r, rfl⟩ := ht.exists_node
      obtain ⟨_, lchild, rchild, hnode, hl, hr⟩ := ht
      obtain ⟨Fl, hFl, hal⟩ := hl.forest
      obtain ⟨Fr, hFr, har⟩ := hr.forest
      have hforest : Forest nodes (rest ++ lchild.toList ++ rchild.toList) (F ++ Fl ++ Fr) :=
        List.rel_append (List.rel_append hF hFl) hFr
      have hperm : (iter :: (F ++ Fl ++ Fr).flatMap addresses).Perm
          ((.node (iter, v) l r :: F).flatMap addresses) := by
        rw [List.flatMap_append, List.flatMap_append, hal, har, List.flatMap_cons, addresses_node,
          List.append_assoc, List.cons_append]
        exact List.perm_append_comm.cons iter
      cases hrest : rest ++ lchild.toList ++ rchild.toList with
      | nil =>
        rw [hrest] at hforest
        rw [List.forall₂_nil_left_iff.mp hforest] at hperm
        exact ⟨[], hperm, .exit (by simp [collectBody, hnode, hrest])⟩
      | cons c rest' =>
        rw [hrest] at hforest
        have hlen := hperm.length_eq
        rw [hn, List.length_cons, Nat.succ_inj] at hlen
        obtain ⟨l', hl', hends⟩ := ih (passed ++ [iter]) hforest hlen
        rw [List.append_assoc, List.singleton_append] at hends
        exact ⟨c :: l', (hl'.cons iter).trans hperm,
          .round (by simp [collectBody, hnode, hrest]) hends⟩

end Collecting

section Releasing

variable {s : Live α} {a : ℕ} {n : ℕ} {v : α}

/-- The state once these nodes have been freed, in this order. -/
def Live.without (s : Live α) (l : List ℕ) : Live α :=
  ⟨fun a => if a ∈ l then none else s.nodes a, s.freed ++ l⟩

theorem without_nil (s : Live α) : s.without [] = s := by
  simp [Live.without]

theorem without_append (s : Live α) (l l' : List ℕ) :
    (s.without l).without l' = s.without (l ++ l') := by
  simp only [Live.without, List.append_assoc, List.mem_append, Live.mk.injEq, and_true]
  ext b : 1
  split_ifs <;> simp_all

theorem without_nodes_of_mem {l : List ℕ} (h : a ∈ l) : (s.without l).nodes a = none :=
  if_pos h

theorem without_nodes_of_notMem {l : List ℕ} (h : a ∉ l) : (s.without l).nodes a = s.nodes a :=
  if_neg h

theorem without_singleton (s : Live α) (a : ℕ) :
    s.without [a] = ⟨Function.update s.nodes a none, s.freed ++ [a]⟩ := by
  simp only [Live.without, List.mem_singleton, Live.mk.injEq, and_true]
  ext b : 1
  by_cases hb : b = a
  · simp [hb]
  · simp [hb]

theorem free_eq {node : MyBitree α} (h : s.nodes a = some node) :
    s.free a = some (s.without [a]) := by
  rw [Live.free, h, without_singleton]
  rfl

theorem destroy_succ {s₁ s₂ : Live α} {node node₁ node₂ : MyBitree α} (h : s.nodes a = some node)
    (hleft : deleteTree n s node.lchild = some s₁) (h₁ : s₁.nodes a = some node₁)
    (hright : deleteTree n s₁ node₁.rchild = some s₂) (h₂ : s₂.nodes a = some node₂) :
    destroy (n + 1) s a = some (s₂.without [a]) := by
  rw [destroy]
  simp only [h, hleft, h₁, hright, free_eq h₂, Option.bind_eq_bind, Option.bind_some]

theorem unlink_spec {node : MyBitree α} (h : s.nodes a = some node) : ∃ s',
    s.unlink a = some s' ∧ s'.nodes a = some ⟨node.value, none, none⟩ ∧
      s'.without [a] = s.without [a] := by
  refine ⟨_, by rw [Live.unlink, h]; rfl, Function.update_self .., ?_⟩
  rw [without_singleton, without_singleton, Function.update_idem]

theorem unlink_destroy {node : MyBitree α} (h : s.nodes a = some node) :
    ((s.unlink a).bind fun s => destroy (n + 2) s a) = some (s.without [a]) := by
  obtain ⟨s', hunlink, hnode, hwithout⟩ := unlink_spec h
  have hnull : deleteTree (n + 1) s' none = some s' := by rw [deleteTree]
  rw [hunlink, Option.bind_some, destroy_succ hnode hnull hnode hnull hnode, hwithout]

theorem releaseAll_eq {l : List ℕ} (hnodup : l.Nodup)
    (hlive : ∀ a ∈ l, ∃ node, s.nodes a = some node) :
    releaseAll (destroy (n + 2)) l s = some (s.without l.reverse) := by
  have hfold : ∀ (l : List ℕ) (s : Live α), l.Nodup → (∀ a ∈ l, ∃ node, s.nodes a = some node) →
      l.foldlM (fun s p => (s.unlink p).bind fun s => destroy (n + 2) s p) s =
        some (s.without l) := by
    intro l
    induction l with
    | nil => exact fun s _ _ => congrArg some (without_nil s).symm
    | cons a l ih =>
      intro s hnodup hlive
      obtain ⟨ha, hl⟩ := List.nodup_cons.mp hnodup
      obtain ⟨node, hnode⟩ := hlive a List.mem_cons_self
      rw [List.foldlM_cons, unlink_destroy hnode, Option.bind_eq_bind, Option.bind_some, ih _ hl,
        without_append, List.singleton_append]
      intro b hb
      have hba : b ∉ [a] := fun h => ha (List.mem_singleton.mp h ▸ hb)
      rw [without_nodes_of_notMem hba]
      exact hlive b (List.mem_cons_of_mem a hb)
  apply hfold
  · exact List.nodup_reverse.mpr hnodup
  · exact fun a ha => hlive a (List.mem_reverse.mp ha)

end Releasing

section Trees

variable {s : Live α} {a : ℕ} {n : ℕ} {v : α} {p : Option ℕ} {t l r : BinaryTree (ℕ × α)}

theorem collect_tree (h : IsTree s.nodes (some a) (.node (a, v) l r)) :
    ∃ rest, (a :: rest).Perm (addresses (.node (a, v) l r)) ∧
      (∃ n₀, ∀ n ≥ n₀, Loop.run (collectBody s.nodes) n ([], [a]) = some (some (a :: rest))) ∧
      (a :: rest).Nodup ∧ ∀ b ∈ a :: rest, ∃ node, s.nodes b = some node := by
  have hforest : Forest s.nodes [a] [.node (a, v) l r] := .cons h.linked .nil
  obtain ⟨rest, hperm, hends⟩ := collect_ends [] hforest
  rw [List.flatMap_singleton] at hperm
  refine ⟨rest, hperm, hends.exists_run, hperm.nodup_iff.mpr h.nodup, fun b hb => ?_⟩
  exact h.linked.live (hperm.mem_iff.mp hb)

def Leaf (t : BinaryTree (ℕ × α)) : Prop :=
  t.numNodes = 1

theorem leaf_iff {lchild rchild : Option ℕ} {nodes : Nodes α} (hl : Linked nodes lchild l)
    (hr : Linked nodes rchild r) :
    Leaf (.node (a, v) l r) ↔ lchild = none ∧ rchild = none := by
  have hnull : ∀ {p : Option ℕ} {t : BinaryTree (ℕ × α)}, Linked nodes p t →
      (t.numNodes = 0 ↔ p = none) := by
    intro p t ht
    cases t with
    | nil =>
      obtain rfl := ht
      simp
    | node x l r =>
      obtain ⟨b, v⟩ := x
      obtain ⟨rfl, _⟩ := ht
      simp
  rw [← hnull hl, ← hnull hr, Leaf, BinaryTree.numNodes]
  omega

/-- What `deleteTree(bt)` frees of a tree: nothing of one node, and else each node once. -/
structure Deleted (t : BinaryTree (ℕ × α)) (freed : List ℕ) : Prop where
  leaf : Leaf t → freed = []
  other : ¬ Leaf t → freed.Perm (addresses t)

theorem Deleted.mem {freed : List ℕ} {b : ℕ} (h : Deleted t freed) (hb : b ∈ freed) :
    b ∈ addresses t := by
  by_cases hleaf : Leaf t
  · rw [h.leaf hleaf] at hb
    cases hb
  · exact (h.other hleaf).mem_iff.mp hb

theorem Deleted.nodup {freed : List ℕ} (h : Deleted t freed) (ht : (addresses t).Nodup) :
    freed.Nodup := by
  by_cases hleaf : Leaf t
  · rw [h.leaf hleaf]
    exact .nil
  · exact (h.other hleaf).nodup_iff.mpr ht

theorem deleteTree_eq (h : IsTree s.nodes p t) : ∃ freed,
    (∃ n₀, ∀ n ≥ n₀, deleteTree n s p = some (s.without freed)) ∧ Deleted t freed := by
  cases t with
  | nil =>
    obtain rfl := h.linked
    refine ⟨[], ⟨1, fun n hn => ?_⟩, fun _ => rfl, fun _ => .nil⟩
    obtain ⟨n, rfl⟩ := Nat.exists_eq_add_of_le' hn
    rw [deleteTree, without_nil]
  | node x l r =>
    obtain ⟨a, v⟩ := x
    obtain ⟨rfl, lchild, rchild, hnode, hl, hr⟩ := h.linked
    have hleaf := leaf_iff (a := a) (v := v) hl hr
    by_cases hnull : lchild = none ∧ rchild = none
    · refine ⟨[], ⟨1, fun n hn => ?_⟩, fun _ => rfl, fun hnot => absurd (hleaf.mpr hnull) hnot⟩
      obtain ⟨n, rfl⟩ := Nat.exists_eq_add_of_le' hn
      rw [deleteTree, hnode, Option.bind_eq_bind, Option.bind_some, if_pos hnull, without_nil]
    · obtain ⟨rest, hperm, ⟨n₀, hn₀⟩, hnodup, hlive⟩ := collect_tree h
      refine ⟨(a :: rest).reverse, ⟨n₀ + 3, fun n hn => ?_⟩,
        fun hlf => absurd (hleaf.mp hlf) hnull, fun _ => (List.reverse_perm _).trans hperm⟩
      obtain ⟨n, rfl⟩ : ∃ k, n = k + 2 + 1 := ⟨n - 3, by omega⟩
      rw [deleteTree, hnode, Option.bind_eq_bind, Option.bind_some, if_neg hnull,
        hn₀ _ (by omega), Option.join_some, Option.bind_eq_bind, Option.bind_some]
      exact releaseAll_eq hnodup hlive

theorem deleteTreeThis_eq (h : IsTree s.nodes (some a) (.node (a, v) l r)) : ∃ freed,
    freed.Perm (addresses l ++ addresses r) ∧ ∃ n₀, ∀ n ≥ n₀, deleteTreeThis n s (some a) =
      some ⟨Function.update (s.without freed).nodes a (some ⟨v, none, none⟩),
        s.freed ++ freed⟩ := by
  obtain ⟨_, lchild, rchild, hnode, hl, hr⟩ := h.linked
  by_cases hnull : lchild = none ∧ rchild = none
  · obtain ⟨rfl, rfl⟩ := hnull
    obtain rfl := hl.eq_nil
    obtain rfl := hr.eq_nil
    refine ⟨[], .nil, 0, fun n _ => ?_⟩
    have hsame : Function.update s.nodes a (some ⟨v, none, none⟩) = s.nodes := by
      rw [← hnode, Function.update_eq_self]
    rw [deleteTreeThis, hnode, Option.bind_eq_bind, Option.bind_some, if_pos ⟨rfl, rfl⟩,
      without_nil, hsame, List.append_nil]
  · obtain ⟨rest, hperm, ⟨n₀, hn₀⟩, hnodup, hlive⟩ := collect_tree h
    obtain ⟨ha, hrest⟩ := List.nodup_cons.mp hnodup
    rw [addresses_node] at hperm
    refine ⟨rest.reverse, (List.reverse_perm rest).trans hperm.cons_inv, n₀ + 2, fun n hn => ?_⟩
    obtain ⟨n, rfl⟩ : ∃ k, n = k + 2 := ⟨n - 2, by omega⟩
    have hroot : (s.without rest.reverse).nodes a = some ⟨v, lchild, rchild⟩ := by
      rw [without_nodes_of_notMem (mt List.mem_reverse.mp ha), hnode]
    rw [deleteTreeThis, hnode, Option.bind_eq_bind, Option.bind_some, if_neg hnull,
      hn₀ _ (by omega), Option.join_some, Option.bind_eq_bind, Option.bind_some, List.tail_cons,
      releaseAll_eq hrest fun b hb => hlive b (List.mem_cons_of_mem a hb), Option.bind_eq_bind,
      Option.bind_some, Live.unlink, hroot]
    rfl

theorem destroy_eq (h : IsTree s.nodes (some a) (.node (a, v) l r)) : ∃ left right,
    (∃ n₀, ∀ n ≥ n₀, destroy n s a = some (s.without (left ++ right ++ [a]))) ∧
      Deleted l left ∧ Deleted r right := by
  obtain ⟨_, lchild, rchild, hnode, hl, hr⟩ := h.linked
  obtain ⟨ha, hnl, hnr, hdisjoint⟩ := nodup_node.mp h.nodup
  obtain ⟨left, ⟨n₁, hn₁⟩, hleft⟩ := deleteTree_eq ⟨hl, hnl⟩
  have hroot : (s.without left).nodes a = some ⟨v, lchild, rchild⟩ := by
    rw [without_nodes_of_notMem fun hal => ha (List.mem_append_left _ (hleft.mem hal)), hnode]
  have hr' : Linked (s.without left).nodes rchild r := hr.congr fun b hb =>
    without_nodes_of_notMem fun hbl => hdisjoint (hleft.mem hbl) hb
  obtain ⟨right, ⟨n₂, hn₂⟩, hright⟩ := deleteTree_eq ⟨hr', hnr⟩
  have hroot' : ((s.without left).without right).nodes a = some ⟨v, lchild, rchild⟩ := by
    rw [without_nodes_of_notMem fun har => ha (List.mem_append_right _ (hright.mem har)), hroot]
  refine ⟨left, right, ⟨n₁ + n₂ + 1, fun n hn => ?_⟩, hleft, hright⟩
  obtain ⟨n, rfl⟩ : ∃ k, n = k + 1 := ⟨n - 1, by omega⟩
  rw [destroy_succ hnode (hn₁ n (by omega)) hroot (hn₂ n (by omega)) hroot', without_append,
    without_append, List.append_assoc]

end Trees

section Correctness

variable {s : Live α} {a : ℕ} {v : α} {p : Option ℕ} {t l r : BinaryTree (ℕ × α)}

/-- With enough fuel this is the state left. -/
def Leaves (run : ℕ → Option (Live α)) (s' : Live α) : Prop :=
  ∃ n₀, ∀ n ≥ n₀, run n = some s'

theorem Leaves.unique {run : ℕ → Option (Live α)} {s₁ s₂ : Live α} (h₁ : Leaves run s₁)
    (h₂ : Leaves run s₂) : s₁ = s₂ := by
  obtain ⟨n₁, hn₁⟩ := h₁
  obtain ⟨n₂, hn₂⟩ := h₂
  have hrun := hn₁ (max n₁ n₂) (le_max_left _ _)
  rw [hn₂ _ (le_max_right _ _)] at hrun
  exact (Option.some.inj hrun).symm

/-- Each of these nodes has been freed, once, and no other has. -/
structure Frees (s s' : Live α) (nodes : List ℕ) : Prop where
  once : ∃ freed, freed.Perm nodes ∧ s'.freed = s.freed ++ freed
  dead : ∀ a ∈ nodes, s'.nodes a = none

/-- `deleteTree(bt)` frees every node of the tree exactly once. -/
def DeletesTree (s : Live α) (p : Option ℕ) (t : BinaryTree (ℕ × α)) : Prop :=
  ∃ s', Leaves (fun n => deleteTree n s p) s' ∧ Frees s s' (addresses t) ∧
    ∀ b ∉ addresses t, s'.nodes b = s.nodes b

/-- `deleteTree()` frees every node below the root exactly once, and unlinks the root. -/
def DeletesBelow (s : Live α) (a : ℕ) (v : α) (l r : BinaryTree (ℕ × α)) : Prop :=
  ∃ s', Leaves (fun n => deleteTreeThis n s (some a)) s' ∧
    Frees s s' (addresses l ++ addresses r) ∧ s'.nodes a = some ⟨v, none, none⟩ ∧
    ∀ b ∉ addresses (.node (a, v) l r), s'.nodes b = s.nodes b

/-- Destroying the root leaves no node below it live and frees none twice. -/
def Destroys (s : Live α) (a : ℕ) (l r : BinaryTree (ℕ × α)) : Prop :=
  ∃ s', Leaves (fun n => destroy n s a) s' ∧
    (∀ b ∈ addresses l ++ addresses r, s'.nodes b = none) ∧
    ∃ freed, freed.Nodup ∧ s'.freed = s.freed ++ freed

theorem exists_mem_of_leaf (h : Leaf t) : ∃ b, b ∈ addresses t := by
  cases t with
  | nil => simp [Leaf] at h
  | node x l r =>
    obtain ⟨a, v⟩ := x
    exact ⟨a, by simp [addresses_node]⟩

theorem deletesTree_iff (h : IsTree s.nodes p t) : DeletesTree s p t ↔ ¬ Leaf t := by
  obtain ⟨freed, hrun, hdeleted⟩ := deleteTree_eq h
  constructor
  · rintro ⟨s', hs', hfrees, _⟩ hleaf
    obtain rfl := hs'.unique hrun
    rw [hdeleted.leaf hleaf, without_nil] at hfrees
    obtain ⟨b, hb⟩ := exists_mem_of_leaf hleaf
    obtain ⟨node, hnode⟩ := h.linked.live hb
    exact absurd (hfrees.dead b hb) (by rw [hnode]; exact Option.some_ne_none node)
  · intro hleaf
    have hperm := hdeleted.other hleaf
    refine ⟨_, hrun, ⟨⟨freed, hperm, rfl⟩, fun b hb => ?_⟩, fun b hb => ?_⟩
    · exact without_nodes_of_mem (hperm.mem_iff.mpr hb)
    · exact without_nodes_of_notMem (mt hperm.mem_iff.mp hb)

theorem deletesBelow (h : IsTree s.nodes (some a) (.node (a, v) l r)) :
    DeletesBelow s a v l r := by
  obtain ⟨freed, hperm, hrun⟩ := deleteTreeThis_eq h
  obtain ⟨ha, _⟩ := nodup_node.mp h.nodup
  refine ⟨_, hrun, ⟨⟨freed, hperm, rfl⟩, fun b hb => ?_⟩, Function.update_self .., fun b hb => ?_⟩
  · have hba : b ≠ a := by
      rintro rfl
      exact ha hb
    exact (Function.update_of_ne hba _ _).trans (without_nodes_of_mem (hperm.mem_iff.mpr hb))
  · rw [addresses_node] at hb
    obtain ⟨hba, hbelow⟩ := not_or.mp (mt List.mem_cons.mpr hb)
    exact (Function.update_of_ne hba _ _).trans
      (without_nodes_of_notMem (mt hperm.mem_iff.mp hbelow))

theorem destroys_iff (h : IsTree s.nodes (some a) (.node (a, v) l r)) :
    Destroys s a l r ↔ ¬ Leaf l ∧ ¬ Leaf r := by
  obtain ⟨left, right, hrun, hleft, hright⟩ := destroy_eq h
  obtain ⟨ha, hnl, hnr, hdisjoint⟩ := nodup_node.mp h.nodup
  constructor
  · rintro ⟨s', hs', hdead, _⟩
    obtain rfl := hs'.unique hrun
    have hfreed : ∀ b ∈ addresses l ++ addresses r, b ∈ left ++ right := by
      intro b hb
      by_contra hnot
      have hkept : b ∉ left ++ right ++ [a] := by
        rw [List.mem_append, List.mem_singleton]
        rintro (hb' | rfl)
        · exact hnot hb'
        · exact ha hb
      have hin : b ∈ addresses (.node (a, v) l r) := by
        rw [addresses_node]
        exact List.mem_cons_of_mem a hb
      obtain ⟨node, hnode⟩ := h.linked.live hin
      have hnone := hdead b hb
      rw [without_nodes_of_notMem hkept, hnode] at hnone
      cases hnone
    constructor
    · intro hleaf
      obtain ⟨b, hb⟩ := exists_mem_of_leaf hleaf
      have hb' := hfreed b (List.mem_append_left _ hb)
      rw [hleft.leaf hleaf, List.nil_append] at hb'
      exact hdisjoint hb (hright.mem hb')
    · intro hleaf
      obtain ⟨b, hb⟩ := exists_mem_of_leaf hleaf
      have hb' := hfreed b (List.mem_append_right _ hb)
      rw [hright.leaf hleaf, List.append_nil] at hb'
      exact hdisjoint (hleft.mem hb') hb
  · rintro ⟨hl, hr⟩
    have hperm := (hleft.other hl).append (hright.other hr)
    refine ⟨_, hrun, fun b hb => ?_, left ++ right ++ [a], ?_, rfl⟩
    · exact without_nodes_of_mem (List.mem_append_left _ (hperm.mem_iff.mpr hb))
    · rw [((List.perm_append_singleton a _).trans (hperm.cons a)).nodup_iff, ← addresses_node]
      exact h.nodup

/-- `deleteTree(bt)` leaves a single node live, and so does the destructor with a child that
is one; `deleteTree()` frees all it should. -/
theorem release_correct_iff (h : IsTree s.nodes p t) : (DeletesTree s p t ↔ ¬ Leaf t) ∧
    ∀ a v l r, t = .node (a, v) l r →
      DeletesBelow s a v l r ∧ (Destroys s a l r ↔ ¬ Leaf l ∧ ¬ Leaf r) := by
  refine ⟨deletesTree_iff h, fun a v l r ht => ?_⟩
  subst ht
  obtain ⟨rfl, _⟩ := h.linked
  exact ⟨deletesBelow h, destroys_iff h⟩

/-- A root, its left child and the left child of that. -/
def chain : Nodes ℕ
  | 0 => some ⟨5, some 1, none⟩
  | 1 => some ⟨3, some 2, none⟩
  | 2 => some ⟨7, none, none⟩
  | _ => none

theorem chain_isTree : IsTree chain (some 0)
    (.node (0, 5) (.node (1, 3) (.node (2, 7) .nil .nil) .nil) .nil) :=
  ⟨⟨rfl, _, _, rfl, ⟨rfl, _, _, rfl, ⟨rfl, _, _, rfl, rfl, rfl⟩, rfl⟩, rfl⟩, by decide⟩

theorem release_chain :
    (DeletesTree ⟨chain, []⟩ (some 0)
      (.node (0, 5) (.node (1, 3) (.node (2, 7) .nil .nil) .nil) .nil) ↔
        ¬ Leaf (.node (0, 5) (.node (1, 3) (.node (2, 7) .nil .nil) .nil) .nil)) ∧
    ∀ a v l r, BinaryTree.node (0, 5) (.node (1, 3) (.node (2, 7) .nil .nil) .nil) .nil =
        .node (a, v) l r →
      DeletesBelow ⟨chain, []⟩ a v l r ∧ (Destroys ⟨chain, []⟩ a l r ↔ ¬ Leaf l ∧ ¬ Leaf r) :=
  release_correct_iff chain_isTree

/-- The lowest node of the chain is not freed by `deleteTree(bt)`, and stays live when the node
above it is destroyed. -/
theorem leaf_leaks : ¬ DeletesTree ⟨chain, []⟩ (some 2) (.node (2, 7) .nil .nil) ∧
    ¬ Destroys ⟨chain, []⟩ 1 (.node (2, 7) .nil .nil) .nil := by
  have hlow : IsTree chain (some 2) (.node (2, 7) .nil .nil) :=
    ⟨⟨rfl, _, _, rfl, rfl, rfl⟩, by decide⟩
  have habove : IsTree chain (some 1) (.node (1, 3) (.node (2, 7) .nil .nil) .nil) :=
    ⟨⟨rfl, _, _, rfl, ⟨rfl, _, _, rfl, rfl, rfl⟩, rfl⟩, by decide⟩
  constructor
  · exact fun h => (deletesTree_iff hlow).mp h rfl
  · exact fun h => ((destroys_iff habove).mp h).1 rfl

end Correctness

example : (destroy 6 ⟨chain, []⟩ 1).map Live.freed = some [1] := by decide

example : (deleteTree 6 ⟨chain, []⟩ (some 0)).map Live.freed = some [2, 1, 0] := by decide

end Vs17.Bitree
