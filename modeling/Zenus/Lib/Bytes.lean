import Mathlib.Data.List.GetD

/-! # Growing arrays with filled holes

A list stands for an array that reads as `zero` past its end.  Storing past the
end fills the hole with `zero`, and resizing cuts or fills.
-/

namespace Lib.Bytes

open List

variable {α : Type*} (zero : α) (xs ys : List α) (i o n : Nat) (buf : List α)

/-- Extend with `zero` up to length `n`. -/
def padTo : List α := xs ++ List.replicate (n - xs.length) zero

/-- Store `buf` at `o`, over a hole filled with `zero`. -/
def store : List α := (padTo zero xs o).take o ++ buf ++ xs.drop (o + buf.length)

/-- Cut to length `n`, or extend to it. -/
def resize : List α := (padTo zero xs n).take n

/-- At most `n` elements from `o` on. -/
def slice : List α := (xs.drop o).take n

@[simp] theorem length_padTo : (padTo zero xs n).length = max xs.length n := by
  rw [padTo, length_append, length_replicate]
  omega

@[simp] theorem length_store : (store zero xs o buf).length = max xs.length (o + buf.length) := by
  simp only [store, length_append, length_take, length_drop, length_padTo]
  omega

@[simp] theorem length_resize : (resize zero xs n).length = n := by
  rw [resize, length_take, length_padTo]
  omega

@[simp] theorem getD_padTo : (padTo zero xs n).getD i zero = xs.getD i zero := by
  by_cases inside : i < xs.length
  · rw [padTo, getD_append _ _ _ _ inside]
  · rw [padTo, getD_append_right _ _ _ _ (Nat.le_of_not_lt inside),
      getD_eq_default xs _ (Nat.le_of_not_lt inside)]
    by_cases hole : i - xs.length < n - xs.length
    · rw [getD_replicate _ hole]
    · exact getD_eq_default _ _ (by rw [length_replicate]; omega)

theorem getD_take : (xs.take n).getD i zero = if i < n then xs.getD i zero else zero := by
  simp only [getD_eq_getElem?_getD, getElem?_take]
  split <;> rfl

theorem getD_store :
    (store zero xs o buf).getD i zero = if i < o then xs.getD i zero
      else if i < o + buf.length then buf.getD (i - o) zero
      else xs.getD i zero := by
  have before : ((padTo zero xs o).take o).length = o := by
    rw [length_take, length_padTo]
    omega
  rw [store, append_assoc]
  by_cases front : i < o
  · rw [getD_append _ _ _ _ (before.symm ▸ front), if_pos front, getD_take, if_pos front, getD_padTo]
  · rw [getD_append_right _ _ _ _ (by omega), before, if_neg front]
    by_cases middle : i < o + buf.length
    · rw [getD_append _ _ _ _ (by omega), if_pos middle]
    · rw [getD_append_right _ _ _ _ (by omega), if_neg middle]
      simp only [getD_eq_getElem?_getD, getElem?_drop]
      congr 3
      omega

theorem getD_resize : (resize zero xs n).getD i zero = if i < n then xs.getD i zero else zero := by
  rw [resize, getD_take, getD_padTo]

variable {xs ys}

theorem ext_getD (lengths : xs.length = ys.length)
    (reads : ∀ i < xs.length, xs.getD i zero = ys.getD i zero) : xs = ys := by
  apply ext_getElem lengths
  intro i inside inside'
  have same := reads i inside
  rwa [getD_eq_getElem _ _ inside, getD_eq_getElem _ _ inside'] at same

theorem eq_of_slices (same : ∀ o n, slice xs o n = slice ys o n) : xs = ys := by
  have whole := same 0 (max xs.length ys.length)
  rwa [slice, slice, drop_zero, drop_zero, take_of_length_le (by omega),
    take_of_length_le (by omega)] at whole

end Lib.Bytes
