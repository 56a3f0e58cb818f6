import Vs17.Bitree.Node
import Vs17.Library.Arrays
import Vs17.Library.Counted
import Vs17.Library.Loop

/-! # Building a complete tree level by level

`insertFull` searches with a queue for the first node with a free place for a child, `init`
inserts the elements of an array one after another, and `breadthTraversal` reads them back.
-/

namespace Vs17.Bitree

open Arrays Counted Trees

variable {α : Type}

/-- A round of `insertFull` on its queue. What is pushed before a `break` is not read again. -/
def fullBody (mem : Memory α) (node : ℕ) (tmpQ : List ℕ) : List ℕ ⊕ Option (Memory α) :=
  match tmpQ with
  | [] => .inr (some mem)
  | pos :: rest =>
    match mem.nodes pos with
    | none => .inr none
    | some p =>
      match p.lchild with
      | none => .inr (mem.write pos { p with lchild := some node })
      | some lchild =>
        match p.rchild with
        | none => .inr (mem.write pos { p with rchild := some node })
        | some rchild => .inl (rest ++ [lchild, rchild])

def insertFull (n : ℕ) (mem : Memory α) (value : α) : Option ℕ → Option (Memory α)
  | none => some mem
  | some bt =>
    let (node, mem) := mem.new ⟨value, none, none⟩
    (Loop.run (fullBody mem node) n [bt]).join

/-- `init` on an array of the given size. A null pointer to the array is `none`. -/
def init (n : ℕ) (mem : Memory α) (bt : Option ℕ) (array : Option (List α)) (size : ℤ) :
    Option (Memory α) :=
  match bt, array with
  | some bt, some array =>
    if size = 0 then some mem
    else do
      let root ← mem.nodes bt
      let value ← load array 0
      let mem ← mem.write bt { root with value := value }
      forUp (fun idx mem => do
        let value ← load array idx
        insertFull n mem value (some bt)) 1 size mem
  | _, _ => some mem

/-- A round of `breadthTraversal` on its queue and the nodes printed. -/
def breadthBody (nodes : Nodes α) (s : List ℕ × List (ℕ × α)) :
    (List ℕ × List (ℕ × α)) ⊕ Option (List (ℕ × α)) :=
  match s.1 with
  | [] => .inr (some s.2)
  | front :: rest =>
    match nodes front with
    | none => .inr none
    | some node => .inl (rest ++ node.lchild.toList ++ node.rchild.toList,
        s.2 ++ [(front, node.value)])

def breadthTraversal (nodes : Nodes α) (n : ℕ) : Option ℕ → Option (ℤ × List (ℕ × α))
  | none => some (-1, [])
  | some bt => (Loop.run (breadthBody nodes) n ([bt], [])).join.map fun printed => (0, printed)

/-- The node of each element has as children those of the elements at twice its index plus one
and plus two, where there are such elements, and no others. -/
structure Complete (nodes : Nodes α) (places : List ℕ) (array : List α) : Prop where
  nodup : places.Nodup
  length_eq : places.length = array.length
  node : ∀ i a v, places[i]? = some a → array[i]? = some v →
    nodes a = some ⟨v, places[2 * i + 1]?, places[2 * i + 2]?⟩

section Building

variable {nodes : Nodes α} {places : List ℕ} {array : List α} {k : ℕ}

theorem Complete.node_at (h : Complete nodes places array) (hk : k < places.length) :
    ∃ v, array[k]? = some v ∧
      nodes places[k] = some ⟨v, places[2 * k + 1]?, places[2 * k + 2]?⟩ := by
  have hk' : k < array.length := by rwa [← h.length_eq]
  exact ⟨array[k], List.getElem?_eq_getElem hk',
    h.node k _ _ (List.getElem?_eq_getElem hk) (List.getElem?_eq_getElem hk')⟩

theorem breadth_reaches (h : Complete nodes places array) (hk : k ≤ places.length) :
    Loop.Reaches (breadthBody nodes) (places.take 1, [])
      (waiting places k, (places.zip array).take k) := by
  induction k with
  | zero => exact .refl
  | succ k ih =>
    obtain ⟨v, hv, hnode⟩ := h.node_at (k := k) (by omega)
    obtain ⟨rest, hfront, hnext⟩ := waiting_succ (by omega : k < places.length)
    apply (ih (by omega)).tail
    have hzip : (places.zip array)[k]? = some (places[k], v) :=
      List.getElem?_zip_eq_some.mpr ⟨List.getElem?_eq_getElem (by omega), hv⟩
    rw [hfront, hnext, List.take_add_one, hzip]
    simp [breadthBody, hnode]

theorem breadthTraversal_complete (h : Complete nodes places array) {a : ℕ}
    (hroot : places.head? = some a) : ∃ n₀, ∀ n ≥ n₀,
    breadthTraversal nodes n (some a) = some (0, places.zip array) := by
  obtain ⟨rest, rfl⟩ := List.head?_eq_some_iff.mp hroot
  have hreach := breadth_reaches h le_rfl
  have hall : ((a :: rest).zip array).take (a :: rest).length = (a :: rest).zip array := by
    apply List.take_of_length_le
    rw [List.length_zip]
    exact min_le_left _ _
  rw [waiting_all, hall] at hreach
  obtain ⟨n₀, hn₀⟩ := (Loop.Reaches.ends hreach (.exit rfl)).exists_run
  refine ⟨n₀, fun n hn => ?_⟩
  have hrun := hn₀ n hn
  rw [List.take_succ_cons, List.take_zero] at hrun
  rw [breadthTraversal, hrun]
  rfl

theorem full_reaches {mem : Memory α} (node : ℕ) (h : Complete mem.nodes places array)
    (hk : 2 * k < places.length) :
    Loop.Reaches (fullBody mem node) (places.take 1) (waiting places k) := by
  induction k with
  | zero => exact .refl
  | succ k ih =>
    obtain ⟨v, hv, hnode⟩ := h.node_at (k := k) (by omega)
    obtain ⟨rest, hfront, hnext⟩ := waiting_succ (by omega : k < places.length)
    apply (ih (by omega)).tail
    rw [List.getElem?_eq_getElem (by omega), List.getElem?_eq_getElem (by omega)] at hnode hnext
    rw [hfront, hnext]
    simp [fullBody, hnode]

theorem getElem?_concat {β : Type} (l : List β) (x : β) (j : ℕ) :
    (l ++ [x])[j]? = if j = l.length then some x else l[j]? := by
  rw [List.getElem?_append]
  split_ifs with h₁ h₂ h₂
  · omega
  · rfl
  · simp [h₂]
  · rw [List.getElem?_eq_none (by simp; omega), List.getElem?_eq_none (by omega)]

theorem Complete.attach (h : Complete nodes places array) {v : α} (value : α) {place : ℕ}
    (hk : k = (places.length - 1) / 2) (hlt : k < places.length) (hv : array[k]? = some v)
    (hnew : place ∉ places) :
    Complete (Function.update (Function.update nodes place (some ⟨value, none, none⟩)) places[k]
      (some ⟨v, (places ++ [place])[2 * k + 1]?, (places ++ [place])[2 * k + 2]?⟩))
      (places ++ [place]) (array ++ [value]) := by
  have hlen := h.length_eq
  refine ⟨?_, by simp [hlen], fun i a u ha hu => ?_⟩
  · rw [List.nodup_append']
    exact ⟨h.nodup, List.nodup_singleton place, by simpa using hnew⟩
  · have hplace : place ≠ places[k] := fun hp => hnew (hp ▸ List.getElem_mem hlt)
    rw [getElem?_concat] at ha hu
    by_cases hi : i = places.length
    · rw [if_pos hi] at ha
      rw [if_pos (hi.trans hlen)] at hu
      obtain rfl := Option.some.inj ha
      obtain rfl := Option.some.inj hu
      rw [Function.update_of_ne hplace, Function.update_self, getElem?_concat, getElem?_concat,
        if_neg (by omega), if_neg (by omega), List.getElem?_eq_none (by omega),
        List.getElem?_eq_none (by omega)]
    · rw [if_neg hi] at ha
      rw [if_neg (by omega)] at hu
      obtain ⟨hilt, rfl⟩ := List.getElem?_eq_some_iff.mp ha
      by_cases hik : i = k
      · subst hik
        obtain rfl := Option.some.inj (hv.symm.trans hu)
        rw [Function.update_self]
      · have hne : places[i] ≠ places[k] := fun he => hik (h.nodup.getElem_inj_iff.mp he)
        have hne' : places[i] ≠ place := fun he => hnew (he ▸ List.getElem_mem hilt)
        rw [Function.update_of_ne hne, Function.update_of_ne hne', h.node i _ u ha hu,
          getElem?_concat, getElem?_concat, if_neg (by omega), if_neg (by omega)]

theorem Complete.next_notMem {mem : Memory α} (h : Complete mem.nodes places array) :
    mem.next ∉ places := by
  intro hmem
  obtain ⟨i, hi, hplace⟩ := List.getElem_of_mem hmem
  obtain ⟨_, _, hlive⟩ := h.node_at hi
  exact absurd (Memory.lt_next hlive) (by omega)

theorem Complete.new {mem : Memory α} (h : Complete mem.nodes places array)
    (node : MyBitree α) : Complete (mem.new node).2.nodes places array := by
  refine ⟨h.nodup, h.length_eq, fun i b u hb hu => ?_⟩
  have hne : b ≠ mem.next := by
    rintro rfl
    exact h.next_notMem (List.mem_of_getElem? hb)
  exact (Function.update_of_ne hne _ _).trans (h.node i b u hb hu)

/-- The search stops at the last parent of the larger tree, which gets the new node as a left
child, or as a right child when it has a left one. -/
theorem full_exit {mem : Memory α} {v : α} (node : ℕ) (hk : k = (places.length - 1) / 2)
    (hlt : k < places.length)
    (hnode : mem.nodes places[k] = some ⟨v, places[2 * k + 1]?, places[2 * k + 2]?⟩) :
    fullBody mem node (waiting places k) = .inr (mem.write places[k]
      ⟨v, (places ++ [node])[2 * k + 1]?, (places ++ [node])[2 * k + 2]?⟩) := by
  obtain ⟨queue, hfront, _⟩ := waiting_succ hlt
  have hright : places[2 * k + 2]? = none := List.getElem?_eq_none (by omega)
  rw [hfront, getElem?_concat, getElem?_concat]
  rcases (by omega : places.length = 2 * k + 1 ∨ places.length = 2 * k + 2) with hlen | hlen
  · have hleft : places[2 * k + 1]? = none := List.getElem?_eq_none (by omega)
    rw [hleft, hright] at hnode
    rw [if_pos hlen.symm, if_neg (by omega), hright]
    simp [fullBody, hnode]
  · have hleft : places[2 * k + 1]? = some places[2 * k + 1] :=
      List.getElem?_eq_getElem (by omega)
    rw [hleft, hright] at hnode
    rw [if_neg (by omega), if_pos hlen.symm, hleft]
    simp [fullBody, hnode]

theorem insertFull_complete {mem : Memory α} {a : ℕ} (h : Complete mem.nodes places array)
    (hroot : places.head? = some a) (value : α) :
    ∃ mem' place, (∃ n₀, ∀ n ≥ n₀, insertFull n mem value (some a) = some mem') ∧
      Complete mem'.nodes (places ++ [place]) (array ++ [value]) := by
  obtain ⟨rest, hrest⟩ := List.head?_eq_some_iff.mp hroot
  have hpos : 0 < places.length := by
    rw [hrest]
    exact Nat.succ_pos _
  obtain ⟨k, hk⟩ : ∃ k, k = (places.length - 1) / 2 := ⟨_, rfl⟩
  have hlt : k < places.length := by omega
  have h₁ := h.new ⟨value, none, none⟩
  obtain ⟨v, hv, hnode⟩ := h₁.node_at hlt
  obtain ⟨mem', hwrite, hnodes, _⟩ := Memory.write_eq hnode
    ⟨v, (places ++ [mem.next])[2 * k + 1]?, (places ++ [mem.next])[2 * k + 2]?⟩
  have hexit := full_exit mem.next hk hlt hnode
  rw [hwrite] at hexit
  have hreach := full_reaches mem.next h₁ (by omega : 2 * k < places.length)
  obtain ⟨n₀, hn₀⟩ := (Loop.Reaches.ends hreach (.exit hexit)).exists_run
  refine ⟨mem', mem.next, ⟨n₀, fun n hn => ?_⟩, ?_⟩
  · have hrun := hn₀ n hn
    rw [hrest, List.take_succ_cons, List.take_zero] at hrun
    rw [insertFull]
    exact Option.join_eq_some_iff.mpr hrun
  · rw [hnodes]
    exact h.attach value hk hlt hv h.next_notMem

theorem init_loop {mem : Memory α} {a : ℕ} {x : α} (h : Complete mem.nodes [a] [x])
    (xs : List α) : ∃ mem', (∃ n₀, ∀ n ≥ n₀,
      forUp (fun idx mem => do
        let value ← load (x :: xs) idx
        insertFull n mem value (some a)) 1 (x :: xs).length mem = some mem') ∧
      ∃ places, places.head? = some a ∧ Complete mem'.nodes places (x :: xs) := by
  have hloop := forUp_eventually (s := mem)
    (fun i mem => ∃ places, places.head? = some a ∧
      Complete mem.nodes places ((x :: xs).take i.toNat)) ⟨[a], rfl, by simpa using h⟩
    (by simp : (1 : ℤ) ≤ (x :: xs).length) (g := fun n idx mem => do
      let value ← load (x :: xs) idx
      insertFull n mem value (some a)) ?_
  · rwa [Int.toNat_natCast, List.take_length] at hloop
  · rintro i mem hi hlt ⟨places, hroot, hcomplete⟩
    obtain ⟨pre, value, post, hsplit, rfl⟩ := exists_split (by omega) hlt
    rw [hsplit, Int.toNat_natCast, List.take_left] at hcomplete
    obtain ⟨mem', place, ⟨n₀, hn₀⟩, hcomplete'⟩ := insertFull_complete hcomplete hroot value
    refine ⟨mem', ⟨n₀, fun n hn => ?_⟩, places ++ [place], ?_, ?_⟩
    · rw [hsplit, load_at]
      exact hn₀ n hn
    · rw [List.head?_append, hroot, Option.some_or]
    · have hnext : ((pre.length : ℤ) + 1).toNat = (pre ++ [value]).length := by simp
      rwa [hnext, hsplit, List.append_cons pre value post, List.take_left]

/-- From a fresh node `init` builds the complete tree of a nonempty array, and the traversal
level by level gives the array back. -/
theorem init_breadthTraversal {mem : Memory α} {a : ℕ} {v : α}
    (hfresh : mem.nodes a = some ⟨v, none, none⟩) {array : List α} (hne : array ≠ []) :
    ∃ mem' places printed, (∃ n₀, ∀ n ≥ n₀,
      init n mem (some a) (some array) array.length = some mem' ∧
        breadthTraversal mem'.nodes n (some a) = some (0, printed)) ∧
      printed.map Prod.snd = array ∧ places.head? = some a ∧
      Complete mem'.nodes places array := by
  obtain ⟨x, xs, rfl⟩ := List.exists_cons_of_ne_nil hne
  obtain ⟨mem₁, hwrite, hnodes, _⟩ := Memory.write_eq hfresh ⟨x, none, none⟩
  have hone : Complete mem₁.nodes [a] [x] := by
    refine ⟨List.nodup_singleton a, rfl, fun i b u hb hu => ?_⟩
    obtain ⟨hi, rfl⟩ := List.getElem?_eq_some_iff.mp hb
    obtain rfl : i = 0 := by simpa using hi
    obtain rfl := Option.some.inj hu
    simp [hnodes]
  obtain ⟨mem', ⟨n₁, hn₁⟩, places, hroot, hcomplete⟩ := init_loop hone xs
  obtain ⟨n₂, hn₂⟩ := breadthTraversal_complete hcomplete hroot
  refine ⟨mem', places, places.zip (x :: xs), ⟨max n₁ n₂, fun n hn => ⟨?_, ?_⟩⟩, ?_, hroot,
    hcomplete⟩
  · have hsize : ((x :: xs).length : ℤ) ≠ 0 := by simp; omega
    have hzero : load (x :: xs) 0 = some x := rfl
    rw [init, if_neg hsize, hfresh, Option.bind_eq_bind, Option.bind_some, hzero,
      Option.bind_eq_bind, Option.bind_some, hwrite, Option.bind_eq_bind, Option.bind_some]
    exact hn₁ n (by omega)
  · exact hn₂ n (by omega)
  · exact List.map_snd_zip hcomplete.length_eq.ge

theorem init_breadthTraversal_five :
    ∃ mem' places printed, (∃ n₀, ∀ n ≥ n₀,
      init n (.single 0) (some 0) (some [4, 2, 6, 1, 3]) [4, 2, 6, 1, 3].length = some mem' ∧
        breadthTraversal mem'.nodes n (some 0) = some (0, printed)) ∧
      printed.map Prod.snd = [4, 2, 6, 1, 3] ∧ places.head? = some 0 ∧
      Complete mem'.nodes places [4, 2, 6, 1, 3] :=
  init_breadthTraversal (v := 0) rfl (by decide)

end Building

end Vs17.Bitree
