import Mathlib.Data.List.Range

/-! # Radix trees laid out in a store of frames

A store maps a frame and an index to a word.  Above the last level a word may
point to a table, on the last level it may point to a page; a tree of fixed depth
hangs off every word.  The frames of a tree are listed in post-order, with
repetition: that the list has no duplicates is how ownership of a tree is stated,
and that two stores agree on the list is what it takes for the tree to be the
same in both.
-/

namespace Lib.Radix

open List

/-- How words are read, and how many of them a table has. -/
structure Shape (F W : Type*) where
  table : W → Option F
  page : W → Option F
  width : Nat

variable {F W : Type*} (S : Shape F W)

/-- The frames of the tree that hangs off a word, `l` tables deep. -/
def hang (mem : F → Nat → W) : Nat → W → List F
  | 0, w => (S.page w).toList
  | l + 1, w =>
    match S.table w with
    | none => []
    | some c => (List.range S.width).flatMap (fun i => hang mem l (mem c i)) ++ [c]

/-- The frames below the first `k` words of a table. -/
def frames (mem : F → Nat → W) (l : Nat) (c : F) (k : Nat) : List F :=
  (List.range k).flatMap fun i => hang S mem l (mem c i)

/-- A property of every word of the tree that hangs off a word. -/
def All (P : Nat → W → Prop) (mem : F → Nat → W) : Nat → W → Prop
  | 0, w => P 0 w
  | l + 1, w => P (l + 1) w ∧ ∀ c, S.table w = some c → ∀ i < S.width, All P mem l (mem c i)

variable {S} {mem mem' : F → Nat → W} {l k i j : Nat} {w : W} {c f : F} {P : Nat → W → Prop}

theorem hang_zero : hang S mem 0 w = (S.page w).toList := rfl

theorem hang_none (absent : S.table w = none) : hang S mem (l + 1) w = [] := by
  simp only [hang, absent]

theorem hang_some (present : S.table w = some c) :
    hang S mem (l + 1) w = frames S mem l c S.width ++ [c] := by
  simp only [hang, present, frames]

@[simp] theorem frames_zero : frames S mem l c 0 = [] := rfl

theorem frames_succ (k : Nat) : frames S mem l c (k + 1) = frames S mem l c k ++ hang S mem l (mem c k) := by
  simp [frames, range_succ]

theorem mem_frames : f ∈ frames S mem l c k ↔ ∃ i < k, f ∈ hang S mem l (mem c i) := by
  simp [frames]

theorem hang_sub_frames (inside : i < k) :
    ∀ f ∈ hang S mem l (mem c i), f ∈ frames S mem l c k :=
  fun _ here => mem_frames.mpr ⟨i, inside, here⟩

theorem frames_nil_of (empty : ∀ i < k, hang S mem l (mem c i) = []) : frames S mem l c k = [] := by
  refine eq_nil_iff_forall_not_mem.mpr ?_
  intro f member
  obtain ⟨i, inside, here⟩ := mem_frames.mp member
  rw [empty i inside] at here
  exact not_mem_nil here

theorem hang_congr (same : ∀ f ∈ hang S mem l w, mem' f = mem f) : hang S mem' l w = hang S mem l w := by
  induction l generalizing w with
  | zero => rfl
  | succ l ih =>
    cases present : S.table w with
    | none => rw [hang_none present, hang_none present]
    | some c =>
      rw [hang_some present] at same
      rw [hang_some present, hang_some present]
      have table : mem' c = mem c := same c (by simp)
      refine congrArg (· ++ [c]) (flatMap_congr ?_)
      intro i inside
      rw [table]
      refine ih fun f member => same f (mem_append_left _ ?_)
      exact hang_sub_frames (mem_range.mp inside) f member

theorem frames_congr (words : ∀ i < k, mem' c i = mem c i) (same : ∀ f ∈ frames S mem l c k, mem' f = mem f) :
    frames S mem' l c k = frames S mem l c k := by
  refine flatMap_congr ?_
  intro i inside
  have inside := mem_range.mp inside
  rw [words i inside]
  exact hang_congr fun f member => same f (hang_sub_frames inside f member)

theorem frames_perm (inside : i < k) :
    (frames S mem l c k).Perm
      (hang S mem l (mem c i) ++ ((range k).erase i).flatMap fun j => hang S mem l (mem c j)) := by
  have split : (range k).Perm (i :: (range k).erase i) :=
    perm_cons_erase (mem_range.mpr inside)
  have := split.flatMap_right (fun j => hang S mem l (mem c j))
  rwa [flatMap_cons] at this

theorem frames_apart (nodup : (frames S mem l c k).Nodup) (hi : i < k) (hj : j < k)
    (ne : i ≠ j) : ∀ f ∈ hang S mem l (mem c i), f ∉ hang S mem l (mem c j) := by
  intro f here there
  have parts := (frames_perm hj).nodup_iff.mp nodup
  refine (nodup_append.mp parts).2.2 f there f ?_ rfl
  exact mem_flatMap.mpr ⟨i, (mem_erase_of_ne ne).mpr (mem_range.mpr hi), here⟩

theorem frames_graft (new : List F) (inside : j < k) (words : ∀ i < k, i ≠ j → mem' c i = mem c i)
    (same : ∀ i < k, i ≠ j → ∀ f ∈ hang S mem l (mem c i), mem' f = mem f)
    (grown : (hang S mem' l (mem' c j)).Perm (new ++ hang S mem l (mem c j))) :
    (frames S mem' l c k).Perm (new ++ frames S mem l c k) := by
  have rest : ((range k).erase j).flatMap (fun i => hang S mem' l (mem' c i)) =
      ((range k).erase j).flatMap (fun i => hang S mem l (mem c i)) := by
    refine flatMap_congr ?_
    intro i member
    obtain ⟨ne, before⟩ := (nodup_range.mem_erase_iff).mp member
    have before := mem_range.mp before
    rw [words i before ne]
    exact hang_congr (same i before ne)
  refine (frames_perm inside).trans ?_
  rw [rest]
  refine (grown.append_right _).trans ?_
  rw [append_assoc]
  exact (frames_perm inside).symm.append_left new

instance decidableAll {P : Nat → W → Prop} [∀ l w, Decidable (P l w)] :
    (l : Nat) → (w : W) → Decidable (All S P mem l w)
  | 0, w => inferInstanceAs (Decidable (P 0 w))
  | l + 1, w =>
    match present : S.table w with
    | none => decidable_of_iff (P (l + 1) w) (by simp [All, present])
    | some c =>
      have := fun i => decidableAll (P := P) l (mem c i)
      decidable_of_iff (P (l + 1) w ∧ ∀ i < S.width, All S P mem l (mem c i))
        (by simp [All, present])

theorem All.congr (all : All S P mem l w)
    (same : ∀ f ∈ hang S mem l w, mem' f = mem f) : All S P mem' l w := by
  induction l generalizing w with
  | zero => exact all
  | succ l ih =>
    refine ⟨all.1, ?_⟩
    intro c present i inside
    rw [hang_some present] at same
    rw [same c (by simp)]
    refine ih (all.2 c present i inside) fun f member => same f (mem_append_left _ ?_)
    exact hang_sub_frames inside f member

theorem All.here (all : All S P mem l w) : P l w := by
  cases l with
  | zero => exact all
  | succ l => exact all.1

end Lib.Radix
