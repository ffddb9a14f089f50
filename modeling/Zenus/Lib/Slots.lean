import Mathlib.Data.List.Perm.Basic
import Mathlib.Data.List.Range

/-! # Fixed arrays with a live count

A table kept as an array together with the number of its live entries is a
function on indices, of which only the first `n` matter.  `slots f n` is the
list those entries form; in-place loops over the array are then described by
list operations on it.
-/

namespace Lib.Slots

open List Function

variable {α : Type*} {n i : Nat}

/-- The first `n` entries of the array `f`, in index order. -/
def slots (f : Nat → α) (n : Nat) : List α := (List.range n).map f

variable (f : Nat → α) {x : α}

@[simp] theorem slots_zero : slots f 0 = [] := rfl

@[simp] theorem slots_length (n : Nat) : (slots f n).length = n := by
  simp [slots]

theorem slots_succ (n : Nat) : slots f (n + 1) = slots f n ++ [f n] := by
  simp [slots, range_succ]

theorem mem_slots {f : Nat → α} : x ∈ slots f n ↔ ∃ i < n, f i = x := by
  simp [slots]

theorem slots_getElem (n i : Nat) (h : i < (slots f n).length) : (slots f n)[i] = f i := by
  simp [slots]

theorem slots_congr {f g : Nat → α} (agree : ∀ i < n, f i = g i) : slots f n = slots g n := by
  simp only [slots, map_inj_left, mem_range]
  exact agree

theorem slots_update_ge (x : α) (h : n ≤ i) : slots (update f i x) n = slots f n := by
  apply slots_congr
  intro j below
  exact update_of_ne (by omega) _ _

theorem slots_update_self (n : Nat) (x : α) : slots (update f n x) (n + 1) = slots f n ++ [x] := by
  rw [slots_succ, slots_update_ge f x le_rfl, update_self]

theorem slots_update (x : α) : slots (update f i x) n = (slots f n).set i x := by
  apply ext_getElem
  · simp
  · intro j inside _
    rw [slots_getElem, getElem_set, slots_getElem]
    by_cases same : i = j
    · subst same; simp
    · rw [if_neg same, update_of_ne (Ne.symm same)]

theorem slots_split (h : i < n) :
    slots f n = slots f i ++ f i :: slots (fun j => f (i + 1 + j)) (n - (i + 1)) := by
  obtain ⟨k, rfl⟩ : ∃ k, n = i + 1 + k := ⟨n - (i + 1), by omega⟩
  simp only [slots, Nat.add_sub_cancel_left]
  rw [Nat.add_assoc, range_add, map_append, Nat.add_comm 1 k, range_succ_eq_map]
  simp [comp_def, Nat.add_assoc, Nat.add_comm 1]

/-! ## Closing and opening a gap in place -/

/-- `k` iterations of `f[j] = f[j + 1]` for `j` from `i` upwards. -/
def shiftDown (f : Nat → α) (i : Nat) : Nat → Nat → α
  | 0 => f
  | k + 1 => update (shiftDown f i k) (i + k) (shiftDown f i k (i + k + 1))

/-- `k` iterations of `f[j] = f[j - 1]` for `j` from `i + 1 + k` downwards. -/
def shiftUp (f : Nat → α) (i : Nat) : Nat → Nat → α
  | 0 => f
  | k + 1 => shiftUp (update f (i + k + 2) (f (i + k + 1))) i k

theorem shiftDown_apply (i k j : Nat) : shiftDown f i k j = if i ≤ j ∧ j < i + k then f (j + 1) else f j := by
  induction k generalizing j with
  | zero => simp [shiftDown]
  | succ k ih =>
    simp only [shiftDown, update_apply, ih]
    split_ifs <;> first | rfl | omega | (subst_vars; rfl)

theorem shiftUp_apply (i k j : Nat) :
    shiftUp f i k j = if i + 1 < j ∧ j ≤ i + 1 + k then f (j - 1) else f j := by
  induction k generalizing f j with
  | zero =>
    rw [if_neg (by omega)]
    rfl
  | succ k ih =>
    simp only [shiftUp, ih, update_apply]
    split_ifs <;> first | rfl | omega | (congr 1; omega)

theorem insertIdx_append_length (front rest : List α) (x : α) :
    (front ++ rest).insertIdx front.length x = front ++ x :: rest := by
  induction front with
  | nil => simp
  | cons y front ih => simpa using ih

theorem slots_shiftDown (h : i < n) : slots (shiftDown f i (n - 1 - i)) (n - 1) = (slots f n).eraseIdx i := by
  apply ext_getElem
  · rw [length_eraseIdx_of_lt (by simpa using h)]
    simp
  · intro j inside _
    rw [slots_length] at inside
    rw [slots_getElem, shiftDown_apply, getElem_eraseIdx]
    split_ifs <;> first | omega | simp only [slots_getElem]

theorem slots_shiftUp (x : α) (h : i < n) :
    slots (update (shiftUp f i (n - 1 - i)) (i + 1) x) (n + 1) = (slots f n).insertIdx (i + 1) x := by
  apply ext_getElem
  · rw [length_insertIdx, if_pos (by rw [slots_length]; omega)]
    simp
  · intro j inside _
    rw [slots_length] at inside
    rw [slots_getElem, update_apply, shiftUp_apply, getElem_insertIdx]
    split_ifs <;> first | omega | rfl | simp only [slots_getElem]

/-- Remove entry `i` and put the last one in its place. -/
def swapRemove (l : List α) (i : Nat) : List α :=
  match l.getLast? with
  | none => []
  | some last => (l.set i last).dropLast

theorem swapRemove_concat (front : List α) (last : α) (i : Nat) :
    swapRemove (front ++ [last]) i = ((front ++ [last]).set i last).dropLast := by
  simp [swapRemove]

theorem length_swapRemove (l : List α) (i : Nat) : (swapRemove l i).length = l.length - 1 := by
  rcases eq_nil_or_concat l with rfl | ⟨front, last, rfl⟩
  · rfl
  · simp [concat_eq_append, swapRemove_concat]

theorem perm_swapRemove {l : List α} (here : l[i]? = some x) : l.Perm (x :: swapRemove l i) := by
  rcases eq_nil_or_concat l with rfl | ⟨front, last, rfl⟩
  · simp at here
  · rw [concat_eq_append] at here ⊢
    rw [swapRemove_concat]
    obtain ⟨inside, rfl⟩ := List.getElem?_eq_some_iff.mp here
    by_cases final : i < front.length
    · rw [set_append_left _ _ final, dropLast_concat, getElem_append_left final]
      refine (perm_append_singleton last front).trans ?_
      refine (List.Perm.cons last (getElem_cons_eraseIdx_perm final).symm).trans ?_
      refine (List.Perm.swap _ _ _).trans (List.Perm.cons _ ?_)
      exact (set_perm_cons_eraseIdx final last).symm
    · obtain rfl : i = front.length := by
        rw [length_append, length_singleton] at inside
        omega
      simp

end Lib.Slots
