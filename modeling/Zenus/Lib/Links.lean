import Mathlib.Data.List.Basic

/-! # Singly linked lists threaded through a successor function

`next` gives the successor of every node and `nil` ends the list.  A list is read
from a node `p` that is not itself an element: the list head is the successor of
a pseudo-node, so that "the predecessor's link" means the same at the front and
in the middle.
-/

namespace Lib.Links

variable {α β : Type*} {nil : α} {next next' : α → α} {p q : α} {xs ys pre post post' : List α}

/-- The nodes after `p`, in order, are exactly `xs`. -/
def Linked (nil : α) (next : α → α) : α → List α → Prop
  | p, [] => next p = nil
  | p, x :: xs => next p = x ∧ x ≠ nil ∧ Linked nil next x xs

/-- The last node of the segment `xs` that starts after `p`. -/
def lastNode : α → List α → α
  | p, [] => p
  | _, x :: xs => lastNode x xs

@[simp] theorem lastNode_nil (p : α) : lastNode p [] = p := rfl

@[simp] theorem lastNode_cons (p x : α) (xs : List α) : lastNode p (x :: xs) = lastNode x xs := rfl

@[simp] theorem lastNode_append_singleton (p x : α) (xs : List α) : lastNode p (xs ++ [x]) = x := by
  induction xs generalizing p with
  | nil => rfl
  | cons y ys ih => exact ih y

theorem lastNode_map (f : α → β) (p : α) (xs : List α) : lastNode (f p) (xs.map f) = f (lastNode p xs) := by
  induction xs generalizing p with
  | nil => rfl
  | cons x xs ih => exact ih x

theorem lastNode_mem (p : α) (xs : List α) : lastNode p xs ∈ p :: xs := by
  induction xs generalizing p with
  | nil => exact List.mem_singleton_self p
  | cons x xs ih => exact .tail _ (ih x)

theorem Linked.ne_nil (linked : Linked nil next p xs) : ∀ x ∈ xs, x ≠ nil := by
  induction xs generalizing p with
  | nil => simp
  | cons x xs ih =>
    exact List.forall_mem_cons.mpr ⟨linked.2.1, ih linked.2.2⟩

theorem Linked.unique (hx : Linked nil next p xs) (hy : Linked nil next p ys) : xs = ys := by
  induction xs generalizing p ys with
  | nil =>
    cases ys with
    | nil => rfl
    | cons y ys => exact absurd (hy.1.symm.trans hx) hy.2.1
  | cons x xs ih =>
    cases ys with
    | nil => exact absurd (hx.1.symm.trans hy) hx.2.1
    | cons y ys =>
      obtain rfl : x = y := hx.1.symm.trans hy.1
      rw [ih hx.2.2 hy.2.2]

theorem Linked.suffix (linked : Linked nil next p (pre ++ post)) : Linked nil next (lastNode p pre) post := by
  induction pre generalizing p with
  | nil => exact linked
  | cons x pre ih => exact ih linked.2.2

/-- A list may be read from any node with the same successor; beyond that only
    the successors of its elements matter. -/
theorem Linked.shift (linked : Linked nil next p xs)
    (start : next' q = next p) (same : ∀ n ∈ xs, next' n = next n) : Linked nil next' q xs := by
  induction xs generalizing p q with
  | nil => exact start.trans linked
  | cons x xs ih =>
    refine ⟨start.trans linked.1, linked.2.1, ih linked.2.2 (same x (.head _)) ?_⟩
    intro n mem
    exact same n (.tail _ mem)

/-- The part after a segment may be replaced by relinking the segment's last
    node, as long as the other nodes of the segment keep their links. -/
theorem Linked.relink (linked : Linked nil next p (pre ++ post)) (distinct : (p :: pre).Nodup)
    (same : ∀ n ∈ p :: pre, n ≠ lastNode p pre → next' n = next n)
    (tail : Linked nil next' (lastNode p pre) post') : Linked nil next' p (pre ++ post') := by
  induction pre generalizing p with
  | nil => exact tail
  | cons x pre ih =>
    obtain ⟨fresh, distinct⟩ := List.nodup_cons.mp distinct
    have notLast : p ≠ lastNode x pre := fun eq => fresh (eq ▸ lastNode_mem x pre)
    refine ⟨(same p (.head _) notLast).trans linked.1, linked.2.1, ih linked.2.2 distinct ?_ tail⟩
    intro n mem other
    exact same n (.tail _ mem) other

end Lib.Links
