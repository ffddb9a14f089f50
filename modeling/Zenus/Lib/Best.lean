import Mathlib.Data.List.Basic
import Mathlib.Data.List.Induction
import Mathlib.Order.Basic

/-! # The first of the heaviest

A loop over a list keeps the heaviest element so far and replaces it only by one
that is strictly heavier, so of several heaviest elements the first is kept.
Elements of weight zero are never picked.
-/

namespace Lib.Best

open List Nat

variable {α : Type*}

def scan (weight : α → Nat) (xs : List α) : Option α × Nat :=
  xs.foldl (fun acc x => if acc.2 < weight x then (some x, weight x) else acc) (none, 0)

def pick (weight : α → Nat) (xs : List α) : Option α := (scan weight xs).1

def top (weight : α → Nat) (xs : List α) : Nat := (scan weight xs).2

variable {weight : α → Nat} {xs : List α} {x : α} {n : Nat}

@[simp] theorem pick_nil : pick weight [] = none := rfl

@[simp] theorem top_nil : top weight [] = 0 := rfl

theorem scan_append : scan weight (xs ++ [x]) =
    if top weight xs < weight x then (some x, weight x) else scan weight xs := by
  rw [scan, foldl_append]
  rfl

theorem pick_append : pick weight (xs ++ [x]) =
    if top weight xs < weight x then some x else pick weight xs := by
  rw [pick, scan_append]
  split <;> rfl

theorem top_append : top weight (xs ++ [x]) = max (top weight xs) (weight x) := by
  rw [top, scan_append]
  split <;> rename_i heavier
  · exact (Nat.max_eq_right (Nat.le_of_lt heavier)).symm
  · exact (Nat.max_eq_left (Nat.le_of_not_lt heavier)).symm

theorem top_lt_iff (pos : 0 < n) : top weight xs < n ↔ ∀ y ∈ xs, weight y < n := by
  induction xs using reverseRecOn with
  | nil => simpa using pos
  | append_singleton xs x ih =>
    rw [top_append, Nat.max_lt, ih]
    simp [or_imp, forall_and]

theorem le_top (weight : α → Nat) (mem : x ∈ xs) : weight x ≤ top weight xs := by
  cases Nat.eq_zero_or_pos (weight x) with
  | inl zero => exact zero ▸ zero_le _
  | inr pos => exact Nat.le_of_not_lt fun less => Nat.lt_irrefl _ ((top_lt_iff pos).mp less x mem)

theorem pick_some (picked : pick weight xs = some x) : x ∈ xs ∧ weight x = top weight xs ∧ 0 < weight x := by
  induction xs using reverseRecOn with
  | nil => simp at picked
  | append_singleton xs y ih =>
    rw [pick_append] at picked
    rw [top_append]
    split at picked
    · next heavier =>
      cases picked
      exact ⟨by simp, (Nat.max_eq_right (Nat.le_of_lt heavier)).symm, Nat.zero_lt_of_lt heavier⟩
    · next heavier =>
      obtain ⟨mem, same, pos⟩ := ih picked
      exact ⟨mem_append_left _ mem, by
        rw [same, Nat.max_eq_left (Nat.le_of_not_lt heavier)], pos⟩

theorem pick_isSome (pos : 0 < top weight xs) : ∃ x, pick weight xs = some x := by
  induction xs using reverseRecOn with
  | nil => simp at pos
  | append_singleton xs y ih =>
    rw [pick_append]
    split
    · exact ⟨y, rfl⟩
    · next heavier =>
      rw [top_append, Nat.max_eq_left (Nat.le_of_not_lt heavier)] at pos
      exact ih pos

theorem pick_filter (weight : α → Nat) (xs : List α) :
    pick weight (xs.filter fun x => 0 < weight x) = pick weight xs ∧
      top weight (xs.filter fun x => 0 < weight x) = top weight xs := by
  induction xs using reverseRecOn with
  | nil => exact ⟨rfl, rfl⟩
  | append_singleton xs x ih =>
    rw [filter_append, filter_singleton]
    cases Nat.eq_zero_or_pos (weight x) with
    | inl zero =>
      rw [pick_append, top_append, zero, if_neg (not_lt_zero _)]
      simpa using ih
    | inr pos =>
      rw [decide_eq_true pos]
      simp only [cond_true, pick_append, top_append, ih.1, ih.2, and_self]

theorem pick_eq_find (pos : 0 < top weight xs) :
    pick weight xs = xs.find? fun x => weight x == top weight xs := by
  induction xs using reverseRecOn with
  | nil => simp at pos
  | append_singleton xs y ih =>
    rw [pick_append, find?_append]
    split
    · next heavier =>
      have lighter : xs.find? (fun x => weight x == top weight (xs ++ [y])) = none := by
        rw [find?_eq_none]
        intro x mem same
        have least := le_top weight mem
        rw [beq_iff_eq.mp same, top_append] at least
        omega
      rw [lighter, top_append, Nat.max_eq_right (Nat.le_of_lt heavier)]
      simp
    · next heavier =>
      rw [top_append, Nat.max_eq_left (Nat.le_of_not_lt heavier)] at pos ⊢
      obtain ⟨x, picked⟩ := pick_isSome pos
      rw [← ih pos, picked]
      rfl

/-! ## The last match

A loop that overwrites what it found with every further match.
-/

def last (p : α → Bool) (xs : List α) : Option α :=
  xs.foldl (fun found x => if p x then some x else found) none

variable {p : α → Bool}

theorem last_append : last p (xs ++ [x]) = if p x then some x else last p xs := by
  rw [last, foldl_append]
  rfl

theorem last_eq_some_iff [Preorder α] (sorted : xs.Pairwise (· < ·)) :
    last p xs = some x ↔ x ∈ xs ∧ p x = true ∧ ∀ y ∈ xs, x < y → p y = false := by
  induction xs using reverseRecOn with
  | nil => simp [last]
  | append_singleton xs z ih =>
    obtain ⟨front, _, below⟩ := pairwise_append.mp sorted
    replace below : ∀ y ∈ xs, y < z := fun y member => below y member z (.head _)
    rw [last_append]
    cases here : p z with
    | true =>
      simp only [if_true, Option.some.injEq, mem_append, mem_singleton]
      constructor
      · rintro rfl
        refine ⟨.inr rfl, here, fun y member less => ?_⟩
        rcases member with member | rfl
        · exact absurd (less.trans (below y member)) (lt_irrefl _)
        · exact absurd less (lt_irrefl _)
      · rintro ⟨member | rfl, _, later⟩
        · rw [later z (.inr rfl) (below x member)] at here
          cases here
        · rfl
    | false =>
      simp only [Bool.false_eq_true, if_false, ih front, mem_append, mem_singleton]
      constructor
      · rintro ⟨member, match', later⟩
        refine ⟨.inl member, match', fun y member' less => ?_⟩
        rcases member' with member' | rfl
        · exact later y member' less
        · exact here
      · rintro ⟨member | rfl, match', later⟩
        · exact ⟨member, match', fun y member' => later y (.inl member')⟩
        · rw [here] at match'
          cases match'

end Lib.Best
