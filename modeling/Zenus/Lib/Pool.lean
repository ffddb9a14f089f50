import Mathlib.Order.CompletePartialOrder
import Mathlib.Data.Set.BooleanAlgebra

/-! # Exclusive ownership of pooled resources

A pool is described by the set of resources it may still hand out.  Whatever the
pool does internally, three kinds of move are enough to keep the resources held
by clients out of that set: taking removes the resource for good, giving adds at
most the resource given, and anything else may only shrink the set.
-/

namespace Lib.Pool

variable {F : Type*} {avail avail' owned : Set F} {f : F}

/-- No resource is both held by a client and still available. -/
def Exclusive (avail owned : Set F) : Prop := Disjoint owned avail

theorem Exclusive.empty (avail : Set F) : Exclusive avail ∅ := Set.empty_disjoint avail

variable (ex : Exclusive avail owned)

include ex

theorem Exclusive.taken_fresh (mem : f ∈ avail) : f ∉ owned :=
  fun held => Set.disjoint_left.mp ex held mem

theorem Exclusive.take (sub : avail' ⊆ avail \ {f}) : Exclusive avail' (insert f owned) := by
  refine Set.disjoint_left.mpr ?_
  rintro g (rfl | held) mem
  · exact (sub mem).2 rfl
  · exact Set.disjoint_left.mp ex held (sub mem).1

theorem Exclusive.give (sub : avail' ⊆ insert f avail) : Exclusive avail' (owned \ {f}) := by
  refine Set.disjoint_left.mpr ?_
  rintro g ⟨held, other⟩ mem
  rcases sub mem with rfl | mem
  · exact other rfl
  · exact Set.disjoint_left.mp ex held mem

theorem Exclusive.shrink (sub : avail' ⊆ avail) :
    Exclusive avail' owned :=
  ex.mono_right sub

end Lib.Pool
