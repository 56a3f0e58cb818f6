import Vs17.Bitree.Node
import Vs17.Library.Loop

/-! # Traversals with an explicit stack

`preTraversal` and `postTraversal` do without recursion. The bottom of their stack is the root
itself: `preTraversal` stops when it comes back to it, while `postTraversal` visits the root
and its right subtree once more, and prints the value of the root for every node.
-/

namespace Vs17.Bitree

open Trees

variable {α : Type}

/-- The variables of `preTraversal`, and the nodes whose values it has printed. -/
structure Walk (α : Type) where
  pos : ℕ
  tmp : List ℕ
  printed : List (ℕ × α)
  deriving DecidableEq, Repr

/-- A round of `preTraversal`. No result is an access to a node that is not there. -/
def preBody (nodes : Nodes α) (s : Walk α) : Walk α ⊕ Option (List (ℕ × α)) :=
  if s.tmp = [] then .inr (some s.printed)
  else
    match nodes s.pos with
    | none => .inr none
    | some node =>
      let printed := s.printed ++ [(s.pos, node.value)]
      let tmp := node.rchild.toList ++ s.tmp
      match node.lchild, tmp with
      | some lchild, tmp => .inl ⟨lchild, tmp, printed⟩
      | none, top :: tmp => .inl ⟨top, tmp, printed⟩
      | none, [] => .inl ⟨s.pos, [], printed⟩

/-- The returned number, and the nodes printed. -/
def preTraversal (nodes : Nodes α) (n : ℕ) : Option ℕ → Option (ℤ × List (ℕ × α))
  | none => some (-1, [])
  | some bt => (Loop.run (preBody nodes) n ⟨bt, [bt], []⟩).join.map fun printed => (0, printed)

def midTraversal (nodes : Nodes α) : ℕ → Option ℕ → Option (ℤ × List (ℕ × α))
  | 0, _ => none
  | _ + 1, none => some (-1, [])
  | n + 1, some bt => do
    let node ← nodes bt
    let left ← midTraversal nodes n node.lchild
    let right ← midTraversal nodes n node.rchild
    return (0, left.2 ++ (bt, node.value) :: right.2)

/-- The three loops of `postTraversal`: the outer one, the way down to the left and the way
up. -/
inductive PostLoop
  | outer
  | descend
  | climb
  deriving DecidableEq, Repr

/-- The variables of `postTraversal`, and the values it has printed. -/
structure PostWalk (α : Type) where
  loop : PostLoop
  pos : Option ℕ
  q : Option ℕ
  tmp : List ℕ
  printed : List α
  deriving DecidableEq, Repr

/-- A round of one of the loops. What is printed is the value of `bt`. -/
def postBody (nodes : Nodes α) (bt : ℕ) (s : PostWalk α) : PostWalk α ⊕ Option (List α) :=
  match s.loop with
  | .outer =>
    match s.pos with
    | none => .inr (some s.printed)
    | some _ => .inl { s with loop := .descend }
  | .descend =>
    match s.pos with
    | none => .inl { s with loop := .climb }
    | some pos =>
      match nodes pos with
      | none => .inr none
      | some node =>
        match node.lchild with
        | some lchild => .inl { s with pos := some lchild, tmp := pos :: s.tmp }
        | none => .inl { s with loop := .climb }
  | .climb =>
    match s.pos with
    | none => .inr none
    | some pos =>
      match nodes pos, nodes bt with
      | some node, some root =>
        if node.rchild = none ∨ node.rchild = s.q then
          match s.tmp with
          | [] => .inr (some (s.printed ++ [root.value]))
          | top :: tmp => .inl ⟨.climb, some top, some pos, tmp, s.printed ++ [root.value]⟩
        else .inl ⟨.outer, node.rchild, s.q, pos :: s.tmp, s.printed⟩
      | _, _ => .inr none

def postTraversal (nodes : Nodes α) (n : ℕ) : Option ℕ → Option (ℤ × List α)
  | none => some (-1, [])
  | some bt =>
    (Loop.run (postBody nodes bt) n ⟨.outer, some bt, some bt, [bt], []⟩).join.map
      fun printed => (0, printed)

section Preorder

variable {nodes : Nodes α} {a top : ℕ} {v : α} {bt lchild rchild : Option ℕ} {tmp : List ℕ}
  {printed : List (ℕ × α)} {t r : BinaryTree (ℕ × α)}

/-- With a left child the loop goes there, and the right child waits on the stack. -/
theorem preBody_left {b : ℕ} (hnode : nodes a = some ⟨v, some b, rchild⟩) (htmp : tmp ≠ []) :
    preBody nodes ⟨a, tmp, printed⟩ =
      .inl ⟨b, rchild.toList ++ tmp, printed ++ [(a, v)]⟩ := by
  simp [preBody, htmp, hnode]

/-- Without one it goes back to the top of the stack. -/
theorem preBody_back {rest : List ℕ} (hnode : nodes a = some ⟨v, none, rchild⟩) (htmp : tmp ≠ [])
    (hstack : rchild.toList ++ tmp = top :: rest) :
    preBody nodes ⟨a, tmp, printed⟩ = .inl ⟨top, rest, printed ++ [(a, v)]⟩ := by
  simp [preBody, htmp, hnode, hstack]

/-- From the root of a subtree the loop visits the subtree in preorder and goes on with the
top of the stack. -/
theorem pre_reaches (h : Linked nodes (some a) t) :
    Loop.Reaches (preBody nodes) ⟨a, top :: tmp, printed⟩ ⟨top, tmp, printed ++ preorder t⟩ := by
  induction t generalizing a top tmp printed with
  | nil => exact absurd h (Option.some_ne_none a)
  | node x l r ihl ihr =>
    obtain ⟨b, v⟩ := x
    obtain ⟨hab, lchild, rchild, hnode, hl, hr⟩ := h
    obtain rfl := Option.some.inj hab
    -- the right child waits on the stack while the left subtree is visited
    obtain ⟨top', tmp', hstack, hright⟩ : ∃ top' tmp', rchild.toList ++ top :: tmp = top' :: tmp' ∧
        ∀ out, Loop.Reaches (preBody nodes) ⟨top', tmp', out⟩ ⟨top, tmp, out ++ preorder r⟩ := by
      cases rchild with
      | none =>
        obtain rfl := hr.eq_nil
        exact ⟨top, tmp, rfl, fun out => by simpa [preorder] using Loop.Reaches.refl⟩
      | some c => exact ⟨c, top :: tmp, rfl, fun out => ihr hr⟩
    have hrest := fun out => hright (printed ++ [(a, v)] ++ out)
    cases lchild with
    | none =>
      obtain rfl := hl.eq_nil
      have hback : preBody nodes ⟨a, top :: tmp, printed⟩ =
          .inl ⟨top', tmp', printed ++ [(a, v)]⟩ :=
        preBody_back hnode (List.cons_ne_nil top tmp) hstack
      have hvisit := hrest []
      rw [List.append_nil, List.append_assoc] at hvisit
      exact .head hback hvisit
    | some b =>
      have hleft : preBody nodes ⟨a, top :: tmp, printed⟩ =
          .inl ⟨b, rchild.toList ++ top :: tmp, printed ++ [(a, v)]⟩ :=
        preBody_left hnode (List.cons_ne_nil top tmp)
      rw [hstack] at hleft
      have hvisit := (ihl hl).trans (hrest (preorder l))
      rw [List.append_assoc, List.append_assoc] at hvisit
      exact .head hleft hvisit

/-- The loop with its stack visits the nodes of every tree in the order of the recursive
traversal: the root, then its left and its right subtree. -/
theorem preTraversal_visits (h : Linked nodes bt t) : ∃ n₀, ∀ n ≥ n₀,
    preTraversal nodes n bt = some (if bt = none then -1 else 0, preorder t) := by
  cases bt with
  | none =>
    obtain rfl := h.eq_nil
    exact ⟨0, fun n _ => rfl⟩
  | some a =>
    have hreach : Loop.Reaches (preBody nodes) ⟨a, [a], []⟩ ⟨a, [], preorder t⟩ := pre_reaches h
    have hends : Loop.Ends (preBody nodes) ⟨a, [a], []⟩ (some (preorder t)) :=
      hreach.ends (.exit rfl)
    obtain ⟨n₀, hn₀⟩ := hends.exists_run
    refine ⟨n₀, fun n hn => ?_⟩
    rw [preTraversal, hn₀ n hn]
    rfl

/-- A root with a left child and a right one. -/
def threeNodes : Nodes ℕ
  | 0 => some ⟨5, some 1, some 2⟩
  | 1 => some ⟨3, none, none⟩
  | 2 => some ⟨7, none, none⟩
  | _ => none

theorem threeNodes_linked : Linked threeNodes (some 0)
    (.node (0, 5) (.node (1, 3) .nil .nil) (.node (2, 7) .nil .nil)) :=
  ⟨rfl, _, _, rfl, ⟨rfl, _, _, rfl, rfl, rfl⟩, ⟨rfl, _, _, rfl, rfl, rfl⟩⟩

theorem preTraversal_threeNodes : ∃ n₀, ∀ n ≥ n₀, preTraversal threeNodes n (some 0) =
    some (if some 0 = none then -1 else 0,
      preorder (.node (0, 5) (.node (1, 3) .nil .nil) (.node (2, 7) .nil .nil))) :=
  preTraversal_visits threeNodes_linked

/-- The recursive traversal from left to right. -/
theorem midTraversal_visits (h : Linked nodes bt t) {n : ℕ} (hn : t.height < n) :
    midTraversal nodes n bt = some (if bt = none then -1 else 0, inorder t) := by
  induction n generalizing bt t with
  | zero => omega
  | succ n ih =>
    cases t with
    | nil =>
      obtain rfl := h
      rfl
    | node x l r =>
      obtain ⟨a, v⟩ := x
      obtain ⟨rfl, lchild, rchild, hnode, hl, hr⟩ := h
      rw [BinaryTree.height] at hn
      simp [midTraversal, hnode, ih hl (by omega), ih hr (by omega), inorder]

end Preorder

section Postorder

variable {nodes : Nodes α} {a bt : ℕ} {v w : α} {lchild rchild q : Option ℕ} {tmp : List ℕ}
  {printed : List α} {t l r : BinaryTree (ℕ × α)}

/-- On its way through a subtree the loop takes the top of the stack off, and prints the value
of the root of the whole tree once for each node. -/
def Passes (nodes : Nodes α) (bt : ℕ) (w : α) (a : ℕ) (t : BinaryTree (ℕ × α)) : Prop :=
  ∀ q top tmp printed, (∀ b ∈ addresses t, q = some b → b = a) →
    Loop.Reaches (postBody nodes bt) ⟨.descend, some a, q, top :: tmp, printed⟩
      ⟨.climb, some top, some a, tmp, printed ++ List.replicate t.numNodes w⟩

theorem descend_left {b : ℕ} (hnode : nodes a = some ⟨v, some b, rchild⟩) :
    postBody nodes bt ⟨.descend, some a, q, tmp, printed⟩ =
      .inl ⟨.descend, some b, q, a :: tmp, printed⟩ := by
  simp [postBody, hnode]

theorem descend_stop (hnode : nodes a = some ⟨v, none, rchild⟩) :
    postBody nodes bt ⟨.descend, some a, q, tmp, printed⟩ =
      .inl ⟨.climb, some a, q, tmp, printed⟩ := by
  simp [postBody, hnode]

theorem climb_pop {top : ℕ} {node root : MyBitree α} (hnode : nodes a = some node)
    (hroot : nodes bt = some root) (hdone : node.rchild = none ∨ node.rchild = q) :
    postBody nodes bt ⟨.climb, some a, q, top :: tmp, printed⟩ =
      .inl ⟨.climb, some top, some a, tmp, printed ++ [root.value]⟩ := by
  simp [postBody, hnode, hroot, hdone]

theorem climb_return {node root : MyBitree α} (hnode : nodes a = some node)
    (hroot : nodes bt = some root) (hdone : node.rchild = none ∨ node.rchild = q) :
    postBody nodes bt ⟨.climb, some a, q, [], printed⟩ =
      .inr (some (printed ++ [root.value])) := by
  simp [postBody, hnode, hroot, hdone]

theorem climb_push {node root : MyBitree α} (hnode : nodes a = some node)
    (hroot : nodes bt = some root) (hdone : ¬ (node.rchild = none ∨ node.rchild = q)) :
    postBody nodes bt ⟨.climb, some a, q, tmp, printed⟩ =
      .inl ⟨.outer, node.rchild, q, a :: tmp, printed⟩ := by
  simp [postBody, hnode, hroot, hdone]

/-- The left subtree comes first, and `q` is then no node of the right one. -/
theorem left_passes (hnode : nodes a = some ⟨v, lchild, rchild⟩) (hl : Linked nodes lchild l)
    (hnodup : (addresses (.node (a, v) l r)).Nodup)
    (ih : ∀ b, lchild = some b → Passes nodes bt w b l)
    (hq : ∀ b ∈ addresses (.node (a, v) l r), q = some b → b = a) :
    ∃ q', (∀ b ∈ addresses r, q' ≠ some b) ∧
      Loop.Reaches (postBody nodes bt) ⟨.descend, some a, q, tmp, printed⟩
        ⟨.climb, some a, q', tmp, printed ++ List.replicate l.numNodes w⟩ := by
  rw [addresses_node] at hq
  obtain ⟨hroot, _, _, hdisjoint⟩ := nodup_node.mp hnodup
  have hnot : ∀ b ∈ addresses l ++ addresses r, q ≠ some b := by
    intro b hb hqb
    obtain rfl := hq b (List.mem_cons_of_mem _ hb) hqb
    exact hroot hb
  cases lchild with
  | none =>
    obtain rfl := hl.eq_nil
    refine ⟨q, fun b hb => hnot b (List.mem_append_right _ hb), ?_⟩
    simpa using Loop.Reaches.head (descend_stop hnode) .refl
  | some b =>
    obtain ⟨u, l₁, l₂, rfl⟩ := hl.exists_node
    refine ⟨some b, fun c hc hbc => ?_, ?_⟩
    · obtain rfl := Option.some.inj hbc
      exact hdisjoint (by simp [addresses_node]) hc
    · apply Loop.Reaches.head (descend_left hnode)
      apply ih b rfl
      intro c hc hqc
      exact absurd hqc (hnot c (List.mem_append_left _ hc))

variable (tmp printed) in
/-- Then the right subtree, after which the test that ends the way up succeeds. -/
theorem right_passes {node root : MyBitree α} (hnode : nodes a = some node)
    (hroot : nodes bt = some root) (hr : Linked nodes node.rchild r)
    (ih : ∀ c, node.rchild = some c → Passes nodes bt w c r)
    (hq : ∀ b ∈ addresses r, q ≠ some b) :
    ∃ q', (node.rchild = none ∨ node.rchild = q') ∧
      Loop.Reaches (postBody nodes bt) ⟨.climb, some a, q, tmp, printed⟩
        ⟨.climb, some a, q', tmp, printed ++ List.replicate r.numNodes w⟩ := by
  cases hc : node.rchild with
  | none =>
    rw [hc] at hr
    obtain rfl := hr.eq_nil
    exact ⟨q, .inl rfl, by simpa using Loop.Reaches.refl⟩
  | some c =>
    rw [hc] at hr
    obtain ⟨u, r₁, r₂, rfl⟩ := hr.exists_node
    have hne : ¬ (node.rchild = none ∨ node.rchild = q) := by
      rw [hc]
      rintro (h | h)
      · exact absurd h (Option.some_ne_none c)
      · exact hq c (by simp [addresses_node]) h.symm
    refine ⟨some c, .inr rfl, ?_⟩
    have hpush : postBody nodes bt ⟨.climb, some a, q, tmp, printed⟩ =
        .inl ⟨.outer, node.rchild, q, a :: tmp, printed⟩ := climb_push hnode hroot hne
    rw [hc] at hpush
    have houter : postBody nodes bt ⟨.outer, some c, q, a :: tmp, printed⟩ =
        .inl ⟨.descend, some c, q, a :: tmp, printed⟩ := rfl
    apply Loop.Reaches.head hpush
    apply Loop.Reaches.head houter
    apply ih c hc
    intro b hb hqb
    exact absurd hqb (hq b hb)

/-- So does every subtree. -/
theorem passes {root : MyBitree α} (hroot : nodes bt = some root) (h : Linked nodes (some a) t)
    (hnodup : (addresses t).Nodup) : Passes nodes bt root.value a t := by
  induction t generalizing a with
  | nil => exact absurd h (Option.some_ne_none a)
  | node x l r ihl ihr =>
    obtain ⟨b, v⟩ := x
    obtain ⟨hab, lchild, rchild, hnode, hl, hr⟩ := h
    obtain rfl := Option.some.inj hab
    obtain ⟨_, hnl, hnr, _⟩ := nodup_node.mp hnodup
    intro q top tmp printed hq
    obtain ⟨q₁, hq₁, hleft⟩ := left_passes (w := root.value) hnode hl hnodup
      (fun b hb => ihl (hb ▸ hl) hnl) hq
    obtain ⟨q₂, hq₂, hright⟩ := right_passes (top :: tmp)
      (printed ++ List.replicate l.numNodes root.value) (w := root.value) hnode hroot hr
      (fun c hc => ihr (hc ▸ hr) hnr) hq₁
    have hall := (hleft.trans hright).tail (climb_pop hnode hroot hq₂)
    have hcount : printed ++ List.replicate l.numNodes root.value ++
        List.replicate r.numNodes root.value ++ [root.value] =
          printed ++ List.replicate (BinaryTree.node (a, v) l r).numNodes root.value := by
      rw [BinaryTree.numNodes, List.replicate_succ', List.replicate_add]
      simp
    rwa [hcount] at hall

/-- Back at the bottom of the stack the root has been visited, but its right child is not the
node visited last: the right subtree and the root are visited again. -/
theorem postTraversal_prints (h : IsTree nodes (some a) (.node (a, v) l r)) :
    ∃ n₀, ∀ n ≥ n₀, postTraversal nodes n (some a) =
      some (0, List.replicate (l.numNodes + 2 * r.numNodes + 2) v) := by
  obtain ⟨_, lchild, rchild, hnode, hl, hr⟩ := h.linked
  obtain ⟨hroot, _, hnr, _⟩ := nodup_node.mp h.nodup
  have hfirst := passes hnode h.linked h.nodup (some a) a [] [] fun b _ hb =>
    (Option.some.inj hb).symm
  obtain ⟨q, hq, hsecond⟩ := right_passes []
    (List.replicate (BinaryTree.node (a, v) l r).numNodes v) (w := v) (q := some a) hnode hnode hr
    (fun c hc => passes hnode (hc ▸ hr) hnr) fun b hb hab => by
      obtain rfl := Option.some.inj hab
      exact hroot (List.mem_append_right _ hb)
  have houter : postBody nodes a ⟨.outer, some a, some a, [a], []⟩ =
      .inl ⟨.descend, some a, some a, [a], []⟩ := rfl
  have hends := Loop.Ends.round houter
    (Loop.Reaches.ends (hfirst.trans hsecond) (.exit (climb_return hnode hnode hq)))
  have hcount : List.replicate (BinaryTree.node (a, v) l r).numNodes v ++
      List.replicate r.numNodes v ++ [v] = List.replicate (l.numNodes + 2 * r.numNodes + 2) v := by
    rw [← List.replicate_add, ← List.replicate_succ', BinaryTree.numNodes]
    congr 1
    omega
  rw [hcount] at hends
  obtain ⟨n₀, hn₀⟩ := hends.exists_run
  refine ⟨n₀, fun n hn => ?_⟩
  rw [postTraversal, hn₀ n hn]
  rfl

/-- The values come out in the order of the recursive traversal, each once, for the empty
tree only. -/
theorem postTraversal_correct_iff {bt : Option ℕ} (h : IsTree nodes bt t) :
    (∃ n₀, ∀ n ≥ n₀, ∃ ret, postTraversal nodes n bt =
      some (ret, (postorder t).map Prod.snd)) ↔ t = .nil := by
  constructor
  · rintro ⟨n₀, hn₀⟩
    cases t with
    | nil => rfl
    | node x l r =>
      obtain ⟨a, v⟩ := x
      obtain ⟨rfl, _⟩ := h.linked
      obtain ⟨n₁, hn₁⟩ := postTraversal_prints h
      obtain ⟨ret, hret⟩ := hn₀ (max n₀ n₁) (le_max_left _ _)
      rw [hn₁ _ (le_max_right _ _)] at hret
      have hprinted := congrArg (fun out => out.2.length) (Option.some.inj hret)
      have hnodes := (postorder_perm (BinaryTree.node (a, v) l r)).length_eq
      rw [length_preorder, BinaryTree.numNodes] at hnodes
      rw [List.length_replicate, List.length_map, hnodes] at hprinted
      omega
  · rintro rfl
    obtain rfl := h.linked
    exact ⟨0, fun n _ => ⟨-1, rfl⟩⟩

theorem threeNodes_isTree : IsTree threeNodes (some 0)
    (.node (0, 5) (.node (1, 3) .nil .nil) (.node (2, 7) .nil .nil)) :=
  ⟨threeNodes_linked, by decide⟩

theorem postTraversal_threeNodes_iff :
    (∃ n₀, ∀ n ≥ n₀, ∃ ret, postTraversal threeNodes n (some 0) =
      some (ret, (postorder (.node (0, 5) (.node (1, 3) .nil .nil)
        (.node (2, 7) .nil .nil))).map Prod.snd)) ↔
      BinaryTree.node (0, 5) (.node (1, 3) .nil .nil) (.node (2, 7) .nil .nil) = .nil :=
  postTraversal_correct_iff threeNodes_isTree

/-- Of a root 5 with the children 3 and 7 the value 5 is printed five times. -/
theorem postTraversal_threeNodes :
    postTraversal threeNodes 30 (some 0) = some (0, [5, 5, 5, 5, 5]) ∧
      ¬ ∃ n₀, ∀ n ≥ n₀, ∃ ret, postTraversal threeNodes n (some 0) =
        some (ret, (postorder (.node (0, 5) (.node (1, 3) .nil .nil)
          (.node (2, 7) .nil .nil))).map Prod.snd) := by
  refine ⟨by decide, ?_⟩
  rintro ⟨n₀, hn₀⟩
  obtain ⟨n₁, hn₁⟩ := postTraversal_prints threeNodes_isTree
  obtain ⟨ret, hret⟩ := hn₀ (max n₀ n₁) (le_max_left _ _)
  rw [hn₁ _ (le_max_right _ _)] at hret
  have hlen : 5 = 3 := congrArg (fun out => out.2.length) (Option.some.inj hret)
  omega

end Postorder

end Vs17.Bitree
