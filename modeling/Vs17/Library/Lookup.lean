import Mathlib.Data.List.Basic
import Vs17.Library.Trees

/-! # Lookup in a search tree with a comparison

An ordered container descends from the root by a comparison of its elements with the key it
looks for, and then asks whether the key is below the element it has come to. The comparison
need not be an order.
-/

namespace Vs17.Lookup

open BinaryTree Trees

variable {α : Type*} (lt : α → α → Bool)

/-- The last element on the way down that is not below the key. -/
def lowerBound (k : α) : BinaryTree α → Option α → Option α
  | .nil, best => best
  | .node a l r, best => if lt a k then lowerBound k r best else lowerBound k l (some a)

def find (k : α) (t : BinaryTree α) : Option α :=
  (lowerBound lt k t none).filter fun a => !lt k a

variable {lt} {k x : α} {t : BinaryTree α} {best : Option α}

/-- The descent gets to the first element that is not below the key, if no element that is below
the key comes behind one that is not. -/
theorem lowerBound_eq (h : (inorder t).Pairwise fun x y => lt y k → lt x k) :
    lowerBound lt k t best = ((inorder t).find? fun x => !lt x k).or best := by
  induction t generalizing best with
  | nil => rfl
  | node a l r ihl ihr =>
    obtain ⟨hl, har, hcross⟩ := List.pairwise_append.mp h
    obtain ⟨ha, hr⟩ := List.pairwise_cons.mp har
    rw [lowerBound, inorder, List.find?_append]
    split_ifs with hak
    · have hleft : ∀ x ∈ inorder l, ¬ (!lt x k) = true := by
        intro x hx
        simp [hcross x hx a (List.mem_cons_self ..) hak]
      rw [ihr hr, List.find?_eq_none.mpr hleft, Option.none_or,
        List.find?_cons_of_neg (by simp [hak])]
    · rw [ihl hl, List.find?_cons_of_pos (by simpa using hak), Option.or_assoc, Option.some_or]

/-- An element is found that the key is neither below nor above, if the elements in front of it are
below the key. -/
theorem find_eq_some {pre post : List α} (ht : inorder t = pre ++ x :: post)
    (hpre : ∀ y ∈ pre, lt y k) (hx : ¬ lt x k) (hpost : ∀ y ∈ post, ¬ lt y k) (hk : ¬ lt k x) :
    find lt k t = some x := by
  have hsplit : (inorder t).Pairwise fun x y => lt y k → lt x k := by
    rw [ht, List.pairwise_append]
    refine ⟨?_, ?_, fun y hy _ _ _ => hpre y hy⟩
    · exact List.pairwise_of_forall_mem_list fun y hy _ _ _ => hpre y hy
    · apply List.pairwise_of_forall_mem_list
      intro y _ z hz hlt
      rcases List.mem_cons.mp hz with rfl | hz
      · exact absurd hlt hx
      · exact absurd hlt (hpost z hz)
  have hnone : ∀ y ∈ pre, ¬ (!lt y k) = true := by
    intro y hy
    simp [hpre y hy]
  rw [find, lowerBound_eq hsplit, ht, List.find?_append, List.find?_eq_none.mpr hnone,
    Option.none_or, List.find?_cons_of_pos (by simpa using hx)]
  simp [hk]

end Vs17.Lookup
