import Zenus.Lib.Extents
import Zenus.Lib.Links
import Zenus.Mem.Heap

/-! # The free list in memory

How the header writes of the allocator act on the headers elsewhere, and what its
walks compute on a list that is linked as `Links.Linked` says.  The list head is
the successor of the pseudo-node `0`, which is how the source treats it.
-/

namespace Zenus.Mem

open Lib.Word Lib.Links Lib.Extents Function Nat List

structure Block where
  addr : Nat
  size : Nat
  deriving DecidableEq, Repr

def Block.extent (b : Block) : Extent := ⟨b.addr, b.addr + HEADER_SIZE + b.size⟩

def Far (a b : Nat) : Prop := a + HEADER_SIZE ≤ b ∨ b + HEADER_SIZE ≤ a

instance : Std.Symm Far where
  symm _ _ := Or.symm

namespace FreeListAllocator

variable {s : FreeListAllocator} {s' t : FreeListAllocator} {b : Block} {a x p n v : Nat}

/-- The successor of a node; that of `0` is the head of the list. -/
def next (s : FreeListAllocator) (p : Nat) : Nat := if p = 0 then s.freeHead else (s.header p).next

structure IsFree (s : FreeListAllocator) (b : Block) : Prop where
  magic : (s.header b.addr).magic = MAGIC_FREE
  size : (s.header b.addr).size = b.size
  canary : (s.header b.addr).canary = CANARY_VALUE

structure IsUsed (s : FreeListAllocator) (b : Block) : Prop where
  magic : (s.header b.addr).magic = MAGIC_USED
  size : (s.header b.addr).size = b.size
  canary : (s.header b.addr).canary = CANARY_VALUE

/-! ## Writes and the headers elsewhere -/

theorem poke_far (v : Nat) (far : x < a ∨ a + HEADER_SIZE ≤ x) : (s.poke x v).header a = s.header a := by
  have wide : HEADER_SIZE = 32 := rfl
  simp only [header, poke]
  rw [update_of_ne (by omega), update_of_ne (by omega), update_of_ne (by omega), update_of_ne (by omega)]

section

variable (s)

theorem poke_magic (a v : Nat) : (s.poke a v).header a = { s.header a with magic := v } := by
  simp [header, poke]

theorem poke_size (a v : Nat) : (s.poke (a + 8) v).header a = { s.header a with size := v } := by
  simp [header, poke]

theorem poke_next (a v : Nat) : (s.poke (a + 16) v).header a = { s.header a with next := v } := by
  simp [header, poke]

theorem writeHeader_self (a : Nat) (h : BlockHeader) : (s.writeHeader a h).header a = h := by
  simp [header, writeHeader, poke]

end

theorem writeHeader_far (h : BlockHeader) (far : Far a x) : (s.writeHeader x h).header a = s.header a := by
  have wide : HEADER_SIZE = 32 := rfl
  simp only [Far] at far
  unfold writeHeader
  rw [poke_far _ (by omega), poke_far _ (by omega), poke_far _ (by omega), poke_far _ (by omega)]

theorem setLink_far (v : Nat) (far : p ≠ 0 → Far a p) : (s.setLink p v).header a = s.header a := by
  unfold setLink
  split_ifs with none
  · rfl
  · have := far none
    have wide : HEADER_SIZE = 32 := rfl
    simp only [Far] at this
    exact poke_far v (by omega)

theorem setLink_self (v : Nat) (nonzero : p ≠ 0) : (s.setLink p v).header p = { s.header p with next := v } := by
  rw [setLink, if_neg nonzero, poke_next]

@[simp] theorem next_setLink_self (p v : Nat) : (s.setLink p v).next p = v := by
  by_cases none : p = 0
  · simp [next, setLink, none]
  · rw [next, if_neg none, setLink_self v none]

theorem next_setLink_other (v : Nat) (other : n ≠ p)
    (far : n ≠ 0 → p ≠ 0 → Far n p) : (s.setLink p v).next n = s.next n := by
  by_cases first : n = 0
  · subst first
    simp [next, setLink, Ne.symm other, poke]
  · rw [next, next, if_neg first, if_neg first, setLink_far v (far first)]

theorem next_congr (head : s'.freeHead = s.freeHead)
    (same : n ≠ 0 → s'.header n = s.header n) : s'.next n = s.next n := by
  by_cases first : n = 0
  · simp [next, first, head]
  · rw [next, next, if_neg first, if_neg first, same first]

theorem IsFree.congr (free : s.IsFree b) (same : s'.header b.addr = s.header b.addr) : s'.IsFree b :=
  ⟨same ▸ free.magic, same ▸ free.size, same ▸ free.canary⟩

theorem IsUsed.congr (used : s.IsUsed b) (same : s'.header b.addr = s.header b.addr) : s'.IsUsed b :=
  ⟨same ▸ used.magic, same ▸ used.size, same ▸ used.canary⟩

theorem IsFree.setLink (free : s.IsFree b)
    (far : b.addr ≠ p → p ≠ 0 → Far b.addr p) : (s.setLink p v).IsFree b := by
  by_cases here : b.addr = p ∧ p ≠ 0
  · obtain ⟨rfl, some⟩ := here
    have := setLink_self (s := s) v some
    exact ⟨by rw [this]; exact free.magic, by rw [this]; exact free.size, by rw [this]; exact free.canary⟩
  · refine free.congr (setLink_far v ?_)
    intro some
    exact far (fun eq => here ⟨eq, some⟩) some

theorem linked_setLink {pre post post' : List Nat}
    (linked : Linked 0 s.next 0 (pre ++ post)) (distinct : (0 :: pre).Nodup)
    (spaced : ∀ n ∈ pre, ∀ m ∈ pre, n = m ∨ Far n m) (head : t.freeHead = s.freeHead)
    (agree : ∀ n ∈ pre, t.header n = s.header n)
    (tail : Linked 0 (t.setLink (lastNode 0 pre) v).next (lastNode 0 pre) post') :
    Linked 0 (t.setLink (lastNode 0 pre) v).next 0 (pre ++ post') := by
  refine linked.relink distinct ?_ tail
  intro n mem other
  have inPre : ∀ m ∈ 0 :: pre, m ≠ 0 → m ∈ pre := by
    intro m mem some
    exact (mem_cons.mp mem).resolve_left some
  rw [next_setLink_other v other]
  · exact next_congr head (fun some => agree n (inPre n mem some))
  · intro some last
    exact (spaced n (inPre n mem some) _ (inPre _ (lastNode_mem 0 pre) last)).resolve_left other

/-! ## The walks -/

/-- First fit: either no block of the list fits and null is returned, or the
    first one that does is carved. -/
theorem allocWalk_spec (size align : Nat) :
    ∀ {rest : List Block} {fuel p : Nat}, Linked 0 s.next p (rest.map Block.addr) → rest.length < fuel →
      ((∀ b ∈ rest, s.fits size align b.addr = false) ∧
        s.allocWalk size align fuel p (s.next p) = some (0, s)) ∨
      ∃ pre b post, rest = pre ++ b :: post ∧
        (∀ c ∈ pre, s.fits size align c.addr = false) ∧ s.fits size align b.addr = true ∧
        s.allocWalk size align fuel p (s.next p) = some (wadd (alignUp b.addr align) HEADER_SIZE,
            s.carve size align (lastNode p (pre.map Block.addr)) b.addr) := by
  intro rest
  induction rest with
  | nil =>
    intro fuel p linked enough
    obtain ⟨fuel, rfl⟩ := exists_eq_succ_of_ne_zero (ne_of_gt enough)
    refine .inl ⟨by simp, ?_⟩
    rw [show s.next p = 0 from linked]
    rfl
  | cons b rest ih =>
    intro fuel p linked enough
    obtain ⟨fuel, rfl⟩ := exists_eq_succ_of_ne_zero (ne_of_gt (zero_lt_of_lt enough))
    obtain ⟨here, some, linked⟩ := linked
    have after : (s.header b.addr).next = s.next b.addr := by rw [next, if_neg some]
    rw [here]
    simp only [allocWalk, if_neg some]
    cases fit : s.fits size align b.addr with
    | true => exact .inr ⟨[], b, rest, rfl, by simp, fit, rfl⟩
    | false =>
      rw [after]
      rcases ih linked (lt_of_succ_lt_succ enough) with ⟨never, result⟩ | found
      · exact .inl ⟨forall_mem_cons.mpr ⟨fit, never⟩, result⟩
      · obtain ⟨pre, c, post, rfl, before, fits, result⟩ := found
        exact .inr ⟨b :: pre, c, post, rfl, forall_mem_cons.mpr ⟨fit, before⟩, fits, result⟩

/-- The insertion point: every block passed starts at or below the block, and the
    one it stops at starts above it. -/
theorem findSlot_spec (blockStart : Nat) :
    ∀ {rest : List Block} {fuel p : Nat}, Linked 0 s.next p (rest.map Block.addr) → rest.length < fuel →
      ∃ pre post, rest = pre ++ post ∧ (∀ c ∈ pre, c.addr ≤ blockStart) ∧
        (∀ n ∈ post.head?, blockStart < n.addr) ∧
        s.findSlot blockStart fuel p (s.next p) =
          some (lastNode p (pre.map Block.addr), s.next (lastNode p (pre.map Block.addr))) := by
  intro rest
  induction rest with
  | nil =>
    intro fuel p linked enough
    obtain ⟨fuel, rfl⟩ := exists_eq_succ_of_ne_zero (ne_of_gt enough)
    refine ⟨[], [], rfl, by simp, by simp, ?_⟩
    have stop : s.next p = 0 := linked
    simp [findSlot, stop]
  | cons b rest ih =>
    intro fuel p linked enough
    obtain ⟨fuel, rfl⟩ := exists_eq_succ_of_ne_zero (ne_of_gt (zero_lt_of_lt enough))
    obtain ⟨here, some, linked⟩ := linked
    have after : (s.header b.addr).next = s.next b.addr := by rw [next, if_neg some]
    by_cases above : b.addr > blockStart
    · refine ⟨[], b :: rest, rfl, by simp, ?_, ?_⟩
      · simpa using above
      · simp [findSlot, here, some, above]
    · obtain ⟨pre, post, rfl, before, beyond, result⟩ :=
        ih linked (lt_of_succ_lt_succ enough)
      refine ⟨b :: pre, post, rfl, forall_mem_cons.mpr ⟨Nat.le_of_not_lt above, before⟩, beyond, ?_⟩
      rw [here]
      simp only [findSlot, if_neg some, if_neg above, after]
      exact result

end FreeListAllocator

end Zenus.Mem
