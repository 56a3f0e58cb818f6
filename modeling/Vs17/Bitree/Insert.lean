import Mathlib.Data.List.Induction
import Vs17.Bitree.Traversal

/-! # Insertion into a search tree

`insertOne` walks down to a free place and hangs a new node there. In memory this is the
insertion of a leaf into the tree, so that every sequence of insertions leaves a search tree,
which `midTraversal` prints in ascending order.
-/

namespace Vs17.Bitree

open Trees

variable {α : Type} [LinearOrder α]

/-- `insertOne`, with at most the given number of calls below one another. -/
def insertOne : ℕ → Memory α → Option ℕ → α → Option (Memory α)
  | 0, _, _, _ => none
  | _ + 1, mem, none, _ => some mem
  | n + 1, mem, some bt, value => do
    let node ← mem.nodes bt
    if value < node.value then
      match node.lchild with
      | none =>
        let (child, mem) := mem.new ⟨value, none, none⟩
        mem.write bt { node with lchild := some child }
      | some lchild => insertOne n mem (some lchild) value
    else
      match node.rchild with
      | none =>
        let (child, mem) := mem.new ⟨value, none, none⟩
        mem.write bt { node with rchild := some child }
      | some rchild => insertOne n mem (some rchild) value

def insertAll (n : ℕ) (mem : Memory α) (bt : Option ℕ) (values : List α) : Option (Memory α) :=
  values.foldlM (fun mem value => insertOne n mem bt value) mem

section Step

variable {mem : Memory α} {t l r : BinaryTree (ℕ × α)} {value v : α} {a n : ℕ}
  {lchild rchild : Option ℕ}

theorem addresses_insertLeaf (x : ℕ × α) (t : BinaryTree (ℕ × α)) :
    (addresses (insertLeaf Prod.snd x t)).Perm (x.1 :: addresses t) :=
  (insertLeaf_perm Prod.snd x t).map Prod.fst

/-- What an insertion below a node leaves: the tree with the new leaf, one more address in use,
and all other nodes as they were. -/
structure Inserted (mem mem' : Memory α) (a : ℕ) (value : α) (t : BinaryTree (ℕ × α)) : Prop where
  linked : Linked mem'.nodes (some a) (insertLeaf Prod.snd (mem.next, value) t)
  next : mem'.next = mem.next + 1
  frame : ∀ b, b ∉ addresses t → b ≠ mem.next → mem'.nodes b = mem.nodes b

variable (value) in
theorem Inserted.attach {node : MyBitree α} (h : IsTree mem.nodes (some a) (.node (a, v) l r))
    (hlinked : Linked (Function.update (mem.new ⟨value, none, none⟩).2.nodes a (some node)) (some a)
      (insertLeaf Prod.snd (mem.next, value) (.node (a, v) l r))) :
    ∃ mem', (mem.new ⟨value, none, none⟩).2.write a node = some mem' ∧
      Inserted mem mem' a value (.node (a, v) l r) := by
  obtain ⟨_, lchild, rchild, hnode, _⟩ := h.linked
  have ha : a ≠ mem.next := (Memory.lt_next hnode).ne
  have hlive : (mem.new ⟨value, none, none⟩).2.nodes a = some ⟨v, lchild, rchild⟩ :=
    (Function.update_of_ne ha _ _).trans hnode
  obtain ⟨mem', hwrite, hnodes, hnext⟩ := Memory.write_eq hlive node
  refine ⟨mem', hwrite, by rwa [hnodes], hnext, fun b hb hnew => ?_⟩
  have hba : b ≠ a := by
    rintro rfl
    exact hb (by simp [addresses_node])
  rw [hnodes, Function.update_of_ne hba]
  exact Function.update_of_ne hnew _ _

theorem Inserted.keeps {mem' : Memory α} {b : ℕ} {p : Option ℕ} {u : BinaryTree (ℕ × α)}
    (hins : Inserted mem mem' b value t) (hu : Linked mem.nodes p u)
    (hdisjoint : (addresses t).Disjoint (addresses u)) : Linked mem'.nodes p u := by
  apply hu.congr
  intro c hc
  apply hins.frame c fun hct => hdisjoint hct hc
  rintro rfl
  exact next_not_mem hu hc

theorem Inserted.node_eq {mem' : Memory α} {b c : ℕ} {node : MyBitree α}
    (hins : Inserted mem mem' b value t) (hc : c ∉ addresses t)
    (hnode : mem.nodes c = some node) : mem'.nodes c = some node := by
  rw [hins.frame c hc (Memory.lt_next hnode).ne, hnode]

theorem Inserted.left {mem' : Memory α} {b : ℕ}
    (h : IsTree mem.nodes (some a) (.node (a, v) l r)) (hlt : value < v)
    (hnode : mem.nodes a = some ⟨v, some b, rchild⟩) (hr : Linked mem.nodes rchild r)
    (hins : Inserted mem mem' b value l) : Inserted mem mem' a value (.node (a, v) l r) := by
  obtain ⟨hroot, _, _, hdisjoint⟩ := nodup_node.mp h.nodup
  have hal : a ∉ addresses l := fun hal => hroot (List.mem_append_left _ hal)
  constructor
  · rw [insertLeaf, if_pos hlt]
    exact ⟨rfl, some b, rchild, hins.node_eq hal hnode, hins.linked, hins.keeps hr hdisjoint⟩
  · exact hins.next
  · intro c hc hnew
    apply hins.frame c _ hnew
    intro hcl
    exact hc (by simp [addresses_node, hcl])

theorem Inserted.right {mem' : Memory α} {b : ℕ}
    (h : IsTree mem.nodes (some a) (.node (a, v) l r)) (hge : ¬ value < v)
    (hnode : mem.nodes a = some ⟨v, lchild, some b⟩) (hl : Linked mem.nodes lchild l)
    (hins : Inserted mem mem' b value r) : Inserted mem mem' a value (.node (a, v) l r) := by
  obtain ⟨hroot, _, _, hdisjoint⟩ := nodup_node.mp h.nodup
  have har : a ∉ addresses r := fun har => hroot (List.mem_append_right _ har)
  constructor
  · rw [insertLeaf, if_neg hge]
    have hkept := hins.keeps hl (List.disjoint_symm hdisjoint)
    exact ⟨rfl, lchild, some b, hins.node_eq har hnode, hkept, hins.linked⟩
  · exact hins.next
  · intro c hc hnew
    apply hins.frame c _ hnew
    intro hcr
    exact hc (by simp [addresses_node, hcr])

theorem insertOne_inserts (value : α) (h : IsTree mem.nodes (some a) t) :
    ∃ mem', (∀ n > t.height, insertOne n mem (some a) value = some mem') ∧
      Inserted mem mem' a value t := by
  induction t generalizing a with
  | nil => exact absurd h.linked (Option.some_ne_none a)
  | node x l r ihl ihr =>
    obtain ⟨b, v⟩ := x
    obtain ⟨hab, lchild, rchild, hnode, hl, hr⟩ := h.linked
    obtain rfl := Option.some.inj hab
    obtain ⟨_, hnl, hnr, _⟩ := nodup_node.mp h.nodup
    have hnew : mem.next ∉ addresses (.node (a, v) l r) := next_not_mem h.linked
    have hfuel : ∀ n > (BinaryTree.node (a, v) l r).height,
        ∃ k, n = k + 1 ∧ l.height < k ∧ r.height < k := by
      intro n hn
      rw [BinaryTree.height] at hn
      exact ⟨n - 1, by omega, by omega, by omega⟩
    by_cases hlt : value < v
    · cases lchild with
      | none =>
        obtain rfl := hl.eq_nil
        obtain ⟨mem', hwrite, hins⟩ := Inserted.attach value h (by
          rw [insertLeaf, if_pos hlt]
          exact hr.attach_left h.nodup hnew)
        refine ⟨mem', fun n hn => ?_, hins⟩
        obtain ⟨n, rfl, _⟩ := hfuel n hn
        rw [insertOne, hnode, Option.bind_eq_bind, Option.bind_some, if_pos hlt]
        exact hwrite
      | some b =>
        obtain ⟨mem', hrun, hins⟩ := ihl ⟨hl, hnl⟩
        refine ⟨mem', fun n hn => ?_, .left h hlt hnode hr hins⟩
        obtain ⟨n, rfl, hn, _⟩ := hfuel n hn
        rw [insertOne, hnode, Option.bind_eq_bind, Option.bind_some, if_pos hlt]
        exact hrun n hn
    · cases rchild with
      | none =>
        obtain rfl := hr.eq_nil
        obtain ⟨mem', hwrite, hins⟩ := Inserted.attach value h (by
          rw [insertLeaf, if_neg hlt]
          exact hl.attach_right h.nodup hnew)
        refine ⟨mem', fun n hn => ?_, hins⟩
        obtain ⟨n, rfl, _⟩ := hfuel n hn
        rw [insertOne, hnode, Option.bind_eq_bind, Option.bind_some, if_neg hlt]
        exact hwrite
      | some b =>
        obtain ⟨mem', hrun, hins⟩ := ihr ⟨hr, hnr⟩
        refine ⟨mem', fun n hn => ?_, .right h hlt hnode hl hins⟩
        obtain ⟨n, rfl, _, hn⟩ := hfuel n hn
        rw [insertOne, hnode, Option.bind_eq_bind, Option.bind_some, if_neg hlt]
        exact hrun n hn

/-- A search tree in memory, which `midTraversal` prints in ascending order. -/
structure SearchTree (mem : Memory α) (a : ℕ) (t : BinaryTree (ℕ × α)) : Prop where
  tree : IsTree mem.nodes (some a) t
  search : Search Prod.snd t
  prints : ∃ n₀, ∀ n ≥ n₀, midTraversal mem.nodes n (some a) = some (0, inorder t)
  ascending : ((inorder t).map Prod.snd).Pairwise (· ≤ ·)

def values (t : BinaryTree (ℕ × α)) : List α :=
  (preorder t).map Prod.snd

theorem SearchTree.of_search (htree : IsTree mem.nodes (some a) t) (hsearch : Search Prod.snd t) :
    SearchTree mem a t := by
  refine ⟨htree, hsearch, ⟨t.height + 1, fun n hn => ?_⟩, ?_⟩
  · rw [midTraversal_visits htree.linked (by omega), if_neg (Option.some_ne_none a)]
  · rw [List.pairwise_map]
    exact hsearch.inorder_sorted

theorem SearchTree.step (h : SearchTree mem a t) (value : α) :
    ∃ mem' t', (∃ n₀, ∀ n ≥ n₀, insertOne n mem (some a) value = some mem') ∧
      SearchTree mem' a t' ∧ (values t').Perm (value :: values t) := by
  obtain ⟨mem', hrun, hins⟩ := insertOne_inserts value h.tree
  refine ⟨mem', insertLeaf Prod.snd (mem.next, value) t, ⟨t.height + 1, fun n hn => ?_⟩,
    .of_search ⟨hins.linked, ?_⟩ h.search.leaf, ?_⟩
  · exact hrun n (by omega)
  · rw [(addresses_insertLeaf _ t).nodup_iff, List.nodup_cons]
    exact ⟨next_not_mem h.tree.linked, h.tree.nodup⟩
  · exact (insertLeaf_perm Prod.snd (mem.next, value) t).map Prod.snd

/-- Every sequence of insertions into a single node leaves a search tree with the values
inserted, and every further insertion adds the value that is inserted. -/
theorem insertAll_searchTree (hsingle : mem.nodes a = some ⟨v, none, none⟩) (inserted : List α) :
    ∃ mem₁ t₁, (∃ n₀, ∀ n ≥ n₀, insertAll n mem (some a) inserted = some mem₁) ∧
      SearchTree mem₁ a t₁ ∧ (values t₁).Perm (v :: inserted) ∧
      ∀ value, ∃ mem₂ t₂, (∃ n₀, ∀ n ≥ n₀, insertOne n mem₁ (some a) value = some mem₂) ∧
        SearchTree mem₂ a t₂ ∧ (values t₂).Perm (value :: values t₁) := by
  have hrun : ∃ mem₁ t₁, (∃ n₀, ∀ n ≥ n₀, insertAll n mem (some a) inserted = some mem₁) ∧
      SearchTree mem₁ a t₁ ∧ (values t₁).Perm (v :: inserted) := by
    induction inserted using List.reverseRecOn with
    | nil =>
      refine ⟨mem, .node (a, v) .nil .nil, ⟨0, fun n _ => rfl⟩, .of_search ⟨?_, ?_⟩ ?_, .refl _⟩
      · exact ⟨rfl, _, _, hsingle, rfl, rfl⟩
      · exact List.nodup_singleton a
      · simp [Search, preorder]
    | append_singleton inserted value ih =>
      obtain ⟨mem₁, t₁, ⟨n₁, hn₁⟩, htree, hperm⟩ := ih
      obtain ⟨mem₂, t₂, ⟨n₂, hn₂⟩, htree', hperm'⟩ := htree.step value
      refine ⟨mem₂, t₂, ⟨max n₁ n₂, fun n hn => ?_⟩, htree', ?_⟩
      · have hfirst := hn₁ n (by omega)
        rw [insertAll] at hfirst ⊢
        rw [List.foldlM_append, hfirst]
        simp [hn₂ n (by omega)]
      · refine hperm'.trans ((hperm.cons value).trans ?_)
        exact (List.perm_append_singleton value (v :: inserted)).symm
  obtain ⟨mem₁, t₁, hall, htree, hperm⟩ := hrun
  exact ⟨mem₁, t₁, hall, htree, hperm, htree.step⟩

theorem insertAll_searchTree_four :
    ∃ mem₁ t₁, (∃ n₀, ∀ n ≥ n₀, insertAll n (.single 5) (some 0) [2, 5, 8, 1] = some mem₁) ∧
      SearchTree mem₁ 0 t₁ ∧ (values t₁).Perm (5 :: [2, 5, 8, 1]) ∧
      ∀ value, ∃ mem₂ t₂, (∃ n₀, ∀ n ≥ n₀, insertOne n mem₁ (some 0) value = some mem₂) ∧
        SearchTree mem₂ 0 t₂ ∧ (values t₂).Perm (value :: values t₁) :=
  insertAll_searchTree (v := 5) rfl [2, 5, 8, 1]

end Step

end Vs17.Bitree
