import Mathlib.Data.Finset.Card
import Mathlib.Data.Nat.ModEq

/-! # Round robin

A choice that goes from a member of a finite set to the next one in the order, and from
the last one to the first, comes to every member once in each round.
-/

namespace Lib.RoundRobin

variable {α : Type*} [LinearOrder α] {A : Finset α} {next : α → α} {i j : α}

/-- `j` is the least member above `i`, or the least of all if there is none above. -/
structure Follows (A : Finset α) (i j : α) : Prop where
  mem : j ∈ A
  above : i < j ∨ ∀ k ∈ A, k ≤ i
  least : ∀ k ∈ A, j ≤ i ∨ i < k → j ≤ k

/-- How many members come before. -/
def rank (A : Finset α) (i : α) : Nat := (A.filter (· < i)).card

theorem Follows.rank_eq (follows : Follows A i j) (mem : i ∈ A) : rank A j = (rank A i + 1) % A.card := by
  have upTo : (A.filter (· ≤ i)).card = rank A i + 1 := by
    rw [rank, ← Finset.card_insert_of_notMem (a := i) (by simp)]
    congr 1
    ext k
    grind
  rw [← upTo]
  rcases follows.above with above | last
  · have same : A.filter (· < j) = A.filter (· ≤ i) := Finset.filter_congr fun k member =>
      ⟨fun low => not_lt.mp fun high => (follows.least k member (.inr high)).not_gt low,
        fun low => low.trans_lt above⟩
    have fewer : (A.filter (· < j)).card < A.card :=
      Finset.card_lt_card (Finset.filter_ssubset.mpr ⟨j, follows.mem, by simp⟩)
    rw [rank, ← same, Nat.mod_eq_of_lt fewer]
  · rw [Finset.filter_true_of_mem last, Nat.mod_self, rank, Finset.card_eq_zero, Finset.filter_eq_empty_iff]
    exact fun k member => (follows.least k member (.inl (last j follows.mem))).not_gt

theorem iterate_rank (each : ∀ i ∈ A, Follows A i (next i)) (mem : i ∈ A) (n : Nat) :
    next^[n] i ∈ A ∧ rank A (next^[n] i) % A.card = (rank A i + n) % A.card := by
  induction n with
  | zero => exact ⟨mem, rfl⟩
  | succ n ih =>
    have follows := each _ ih.1
    rw [Function.iterate_succ_apply']
    refine ⟨follows.mem, ?_⟩
    rw [follows.rank_eq ih.1, Nat.mod_mod, Nat.add_mod, ih.2, ← Nat.add_mod, Nat.add_assoc]

theorem round (each : ∀ i ∈ A, Follows A i (next i)) (mem : i ∈ A) (k : Nat) :
    Set.BijOn (fun n => next^[k + n + 1] i) (Finset.range A.card) A := by
  have maps : Set.MapsTo (fun n => next^[k + n + 1] i) (Finset.range A.card) A :=
    fun n _ => (iterate_rank each mem _).1
  have injective : Set.InjOn (fun n => next^[k + n + 1] i) (Finset.range A.card) := by
    intro n low m low' same
    have mods := (iterate_rank each mem (k + n + 1)).2.symm
    rw [show next^[k + n + 1] i = next^[k + m + 1] i from same, (iterate_rank each mem (k + m + 1)).2,
      Nat.add_right_comm k n, Nat.add_right_comm k m, ← Nat.add_assoc _ (k + 1), ← Nat.add_assoc _ (k + 1)] at mods
    exact (Nat.ModEq.add_left_cancel' _ mods).eq_of_lt_of_lt (Finset.mem_range.mp low) (Finset.mem_range.mp low')
  exact ⟨maps, injective, Finset.surjOn_of_injOn_of_card_le _ maps injective (Finset.card_range _).ge⟩

end Lib.RoundRobin
