import Zenus.Lib.Radix
import Zenus.Mem.FramePool
import Zenus.Mem.Paging

/-! # Page-table words

What the masks of the paging code do to words that are put together from a frame
address and flags, and the page tables as radix trees.
-/

namespace Zenus.Mem

open Lib.Word Nat

/-! ## Frames and flags -/

/-- A frame address: nothing outside bits 12 to 51. -/
def IsFrame (p : Nat) : Prop := frameAddr p = p

variable {p e x mask virt : Nat}

theorem isFrame_of_page (page : PAGE_SIZE_U64 ∣ p) (small : p < 2 ^ 52) : IsFrame p := by
  obtain ⟨q, rfl⟩ := page
  have shifted : PAGE_SIZE_U64 * q = q <<< 12 := by
    rw [shiftLeft_eq, mul_comm]
    rfl
  have mask : 0x000FFFFFFFFFF000 = (2 ^ 40 - 1) <<< 12 := by decide
  have low : q < 2 ^ 40 := by
    omega
  rw [IsFrame, frameAddr, shifted, mask, ← shiftLeft_and_distrib,
    and_two_pow_sub_one_eq_mod, mod_eq_of_lt low]

theorem isFrame_frameAddr (e : Nat) : IsFrame (frameAddr e) := by
  rw [IsFrame, frameAddr, frameAddr, Nat.and_assoc, Nat.and_self]

theorem frameAddr_lt (e : Nat) : frameAddr e < 2 ^ 52 :=
  lt_of_le_of_lt and_le_right (by decide)

variable (frame : IsFrame p)

include frame

theorem IsFrame.lt : p < 2 ^ 52 := frame ▸ frameAddr_lt p

theorem IsFrame.and (mask : Nat) : p &&& mask = p &&& (0x000FFFFFFFFFF000 &&& mask) := by
  conv_lhs => rw [← frame, frameAddr, Nat.and_assoc]

theorem IsFrame.pageBase : pageBase p = p := by
  rw [Mem.pageBase, frame.and, show (0x000FFFFFFFFFF000 &&& bnot 0xFFF) = 0x000FFFFFFFFFF000 by decide]
  exact frame

omit frame

theorem isFrame_pageBase (small : x < 2 ^ 52) : IsFrame (Mem.pageBase x) := by
  have wide : x &&& (2 ^ 52 - 1) = x := by
    rw [and_two_pow_sub_one_eq_mod, mod_eq_of_lt small]
  rw [IsFrame, frameAddr, Mem.pageBase, Nat.and_assoc]
  conv_rhs => rw [← wide, Nat.and_assoc]
  rw [show bnot 0xFFF &&& 0x000FFFFFFFFFF000 = (2 ^ 52 - 1) &&& bnot 0xFFF by decide]

include frame

theorem IsFrame.aligned : p &&& (PAGE_SIZE_U64 - 1) = 0 := by
  rw [frame.and, show (0x000FFFFFFFFFF000 &&& (PAGE_SIZE_U64 - 1)) = 0 by decide, Nat.and_zero]

theorem or_low_and (e : Nat) (low : 0xFFF &&& mask = mask) (high : 0x000FFFFFFFFFF000 &&& mask = 0) :
    (p ||| (e &&& 0xFFF)) &&& mask = e &&& mask := by
  rw [Nat.and_or_distrib_right, frame.and, high, Nat.and_zero, Nat.zero_or, Nat.and_assoc, low]

theorem frameAddr_or_low (e : Nat) : frameAddr (p ||| (e &&& 0xFFF)) = p := by
  rw [frameAddr, Nat.and_or_distrib_right, Nat.and_assoc,
    show (0xFFF &&& 0x000FFFFFFFFFF000) = 0 by decide, Nat.and_zero, Nat.or_zero]
  exact frame

theorem present_or_low (e : Nat) :
    (p ||| (e &&& 0xFFF)) &&& PRESENT = e &&& PRESENT :=
  or_low_and frame e (by decide) (by decide)

theorem writable_or_low (e : Nat) :
    (p ||| (e &&& 0xFFF)) &&& WRITABLE = e &&& WRITABLE :=
  or_low_and frame e (by decide) (by decide)

omit frame

theorem present_eq_one (present : e &&& PRESENT ≠ 0) : e &&& PRESENT = 1 := by
  have le : e &&& PRESENT ≤ 1 := and_le_right
  omega

theorem link_flags (present : e &&& PRESENT ≠ 0) : (e &&& 0xFFF &&& bnot 1) ||| PRESENT = e &&& 0xFFF := by
  have bit : e &&& 0xFFF &&& PRESENT = PRESENT := by
    rw [Nat.and_assoc, show 0xFFF &&& PRESENT = PRESENT by decide, present_eq_one present]
    rfl
  calc (e &&& 0xFFF &&& bnot 1) ||| PRESENT
      = (e &&& 0xFFF &&& bnot 1) ||| (e &&& 0xFFF &&& PRESENT) := by rw [bit]
    _ = e &&& 0xFFF &&& (bnot 1 ||| PRESENT) := (and_or_distrib_left _ _ _).symm
    _ = e &&& 0xFFF := by
        rw [Nat.and_assoc, show 0xFFF &&& (bnot 1 ||| PRESENT) = 0xFFF by decide]

theorem linked_word (present : e &&& PRESENT ≠ 0) :
    (p ||| (e &&& 0xFFF &&& bnot 1)) ||| PRESENT = p ||| (e &&& 0xFFF) := by
  rw [Nat.or_assoc, link_flags present]

include frame

theorem pageBase_or (x : Nat) (low : mask &&& bnot 0xFFF = 0) : pageBase (p ||| (x &&& mask)) = p := by
  rw [pageBase, Nat.and_or_distrib_right, Nat.and_assoc, low, Nat.and_zero, Nat.or_zero]
  exact frame.pageBase

theorem pageBase_cr3 (x : Nat) :
    pageBase (p ||| (x &&& 0b11000)) = p :=
  pageBase_or frame x (by decide)

omit frame

theorem tableIndex_lt (level virt : Nat) : tableIndex level virt < 512 :=
  lt_of_le_of_lt and_le_right (by decide)

theorem tableIndex_kernel (high : WORD - 2 ^ 47 ≤ virt) (top : virt < WORD) : 256 ≤ tableIndex 3 virt := by
  have word := WORD_eq
  rw [tableIndex, show 0x1FF = 2 ^ 9 - 1 by decide, and_two_pow_sub_one_eq_mod,
    shiftRight_eq_div_pow]
  omega

theorem tableIndex_user (user : virt < 2 ^ 47) : tableIndex 3 virt < 256 := by
  have shift : virt >>> (12 + 9 * 3) < 2 ^ 8 := by
    omega
  exact lt_of_le_of_lt and_le_left shift

/-! ## Page tables as trees -/

/-- The table a word of an upper level points to. -/
def tableOf (e : Nat) : Option Nat := if e &&& PRESENT = 0 then none else some (frameAddr e)

def mapped : Lib.Radix.Shape Nat Nat where
  table := tableOf
  page := tableOf
  width := 512

def owned : Lib.Radix.Shape Nat Nat where
  table := tableOf
  page := fun e => if e &&& WRITABLE = 0 then none else tableOf e
  width := 512

theorem tableOf_none (absent : e &&& PRESENT = 0) : tableOf e = none := if_pos absent

theorem tableOf_some (present : e &&& PRESENT ≠ 0) : tableOf e = some (frameAddr e) :=
  if_neg present

theorem tableOf_or_low (frame : IsFrame p) (present : e &&& PRESENT ≠ 0) :
    tableOf (p ||| (e &&& 0xFFF)) = some p := by
  rw [tableOf_some (by rwa [present_or_low frame]), frameAddr_or_low frame]

end Zenus.Mem
