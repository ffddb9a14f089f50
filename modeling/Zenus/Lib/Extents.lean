import Mathlib.Order.CompletePartialOrder
import Mathlib.Order.Interval.Set.Disjoint
import Mathlib.Data.List.Pairwise

/-! # Address-ordered lists of extents

An extent is a half-open range of addresses.  A list of extents is in normal form
when it is ordered by address and any two extents leave a gap between them: the
extents are then disjoint and none could be merged with another.  A normal list
that covers a whole range is the single extent of that range.
-/

namespace Lib.Extents

open List hiding Disjoint

@[ext]
structure Extent where
  lo : Nat
  hi : Nat
  deriving DecidableEq, Repr

def Extent.range (e : Extent) : Set Nat := Set.Ico e.lo e.hi

def cover (l : List Extent) : Set Nat := {x | ∃ e ∈ l, x ∈ e.range}

@[simp] theorem cover_nil : cover [] = ∅ := by simp [cover]

@[simp] theorem cover_cons (e : Extent) (l : List Extent) : cover (e :: l) = e.range ∪ cover l := by
  ext x
  simp [cover]

@[simp] theorem cover_append (l m : List Extent) : cover (l ++ m) = cover l ∪ cover m := by
  induction l with
  | nil => simp
  | cons e l ih => rw [cons_append, cover_cons, cover_cons, ih, Set.union_assoc]

variable {e a b e' : Extent} {l m pre post : List Extent} {w lo hi : Nat}

theorem range_subset_cover (mem : e ∈ l) : e.range ⊆ cover l :=
  fun _ inside => ⟨e, mem, inside⟩

theorem range_union_of_adjacent (ha : a.lo ≤ a.hi) (hb : b.lo ≤ b.hi)
    (touch : a.hi = b.lo) : (⟨a.lo, b.hi⟩ : Extent).range = a.range ∪ b.range := by
  simp only [Extent.range, touch]
  exact (Set.Ico_union_Ico_eq_Ico (touch ▸ ha) hb).symm

theorem ordered_of_disjoint (ha : a.lo < a.hi) (hb : b.lo < b.hi)
    (apart : Disjoint a.range b.range) : a.hi ≤ b.lo ∨ b.hi ≤ a.lo := by
  rw [Extent.range, Extent.range, Set.Ico_disjoint_Ico] at apart
  omega

/-- Ordered by address, with a gap between any two. -/
structure Normal (l : List Extent) : Prop where
  nonempty : ∀ e ∈ l, e.lo < e.hi
  gaps : l.Pairwise (fun a b => a.hi < b.lo)

theorem Normal.sublist (normal : Normal m) (sub : l.Sublist m) : Normal l :=
  ⟨fun e mem => normal.nonempty e (sub.subset mem), normal.gaps.sublist sub⟩

theorem Normal.pairwise_disjoint (normal : Normal l) : l.Pairwise (fun a b => Disjoint a.range b.range) := by
  refine normal.gaps.imp ?_
  intro a b gap
  rw [Extent.range, Extent.range, Set.Ico_disjoint_Ico]
  omega

theorem Normal.around (normal : Normal (pre ++ e :: post)) :
    (∀ a ∈ pre, a.hi < e.lo) ∧ (∀ b ∈ post, e.hi < b.lo) := by
  obtain ⟨_, right, cross⟩ := pairwise_append.mp normal.gaps
  exact ⟨fun a mem => cross a mem e (.head _), (pairwise_cons.mp right).1⟩

theorem Normal.splice (normal : Normal (pre ++ post))
    (pos : e.lo < e.hi) (before : ∀ a ∈ pre, a.hi < e.lo) (after : ∀ b ∈ post, e.hi < b.lo) :
    Normal (pre ++ e :: post) := by
  obtain ⟨left, right, cross⟩ := pairwise_append.mp normal.gaps
  constructor
  · obtain ⟨early, late⟩ := forall_mem_append.mp normal.nonempty
    exact forall_mem_append.mpr ⟨early, forall_mem_cons.mpr ⟨pos, late⟩⟩
  · refine pairwise_append.mpr ⟨left, pairwise_cons.mpr ⟨after, right⟩, ?_⟩
    exact fun a mem => forall_mem_cons.mpr ⟨before a mem, cross a mem⟩

theorem Normal.narrow (normal : Normal (pre ++ e :: post)) (pos : e'.lo < e'.hi) (low : e.lo ≤ e'.lo)
    (high : e'.hi ≤ e.hi) : Normal (pre ++ e' :: post) := by
  obtain ⟨before, after⟩ := normal.around
  have rest : Normal (pre ++ post) :=
    normal.sublist ((List.Sublist.refl pre).append (sublist_cons_self e post))
  exact rest.splice pos (fun a mem => (before a mem).trans_le low)
    (fun b mem => high.trans_lt (after b mem))

theorem Normal.length_mul_le (normal : Normal l)
    (wide : ∀ e ∈ l, e.lo + w ≤ e.hi) (inside : ∀ e ∈ l, lo ≤ e.lo ∧ e.hi ≤ hi) : l.length * w ≤ hi - lo := by
  induction l generalizing lo with
  | nil => simp
  | cons e rest ih =>
    obtain ⟨gap, _⟩ := pairwise_cons.mp normal.gaps
    have := wide e (.head _)
    have := inside e (.head _)
    have tail : rest.length * w ≤ hi - e.hi := by
      refine ih (normal.sublist (sublist_cons_self e rest))
        (fun f mem => wide f (.tail _ mem)) ?_
      intro f mem
      exact ⟨(gap f mem).le, (inside f (.tail _ mem)).2⟩
    rw [length_cons, Nat.succ_mul]
    omega

theorem Normal.eq_singleton (normal : Normal l) (pos : lo < hi)
    (whole : cover l = Set.Ico lo hi) : l = [⟨lo, hi⟩] := by
  cases l with
  | nil =>
    have : lo ∈ cover [] := whole ▸ ⟨le_rfl, pos⟩
    simp at this
  | cons e rest =>
    have gap := (pairwise_cons.mp normal.gaps).1
    have posE := normal.nonempty e (.head _)
    have inside : ∀ {f : Extent}, f ∈ e :: rest → f.lo < f.hi → lo ≤ f.lo ∧ f.hi - 1 < hi := by
      intro f mem posF
      have first : f.lo ∈ Set.Ico lo hi := whole ▸ ⟨f, mem, le_rfl, posF⟩
      have last : f.hi - 1 ∈ Set.Ico lo hi :=
        whole ▸ ⟨f, mem, by omega, by omega⟩
      exact ⟨first.1, last.2⟩
    obtain ⟨low, high⟩ := inside (.head _) posE
    -- the range starts in the first extent, and cannot continue past its end
    have start : e.lo = lo := by
      obtain ⟨f, mem, at_⟩ : lo ∈ cover (e :: rest) := whole ▸ ⟨le_rfl, pos⟩
      rcases mem with _ | ⟨_, mem⟩
      · exact le_antisymm at_.1 low
      · have := gap f mem
        have := at_.1
        omega
    have stop : e.hi = hi := by
      by_contra other
      obtain ⟨f, mem, at_⟩ : e.hi ∈ cover (e :: rest) := whole ▸ ⟨by omega, by omega⟩
      rcases mem with _ | ⟨_, mem⟩
      · exact absurd at_.2 (lt_irrefl _)
      · have := gap f mem
        have := at_.1
        omega
    have none : rest = [] := by
      refine eq_nil_iff_forall_not_mem.mpr ?_
      intro f mem
      have posF := normal.nonempty f (.tail _ mem)
      have := inside (.tail _ mem) posF
      have := gap f mem
      omega
    rw [none]
    exact congrArg (fun x => [x]) (Extent.ext start stop)

end Lib.Extents
