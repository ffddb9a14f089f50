import Zenus.Lib.Image
import Zenus.Mem.PageFaithful

/-! # Bytes at virtual addresses

What the processor does when the kernel copies bytes to or from an address of the
current address space: every byte is translated by the tables CR3 points to, and the
access faults where nothing is mapped or, for a store, where the page is read only.
-/

namespace Zenus.Mem

open Lib.Word Lib.Image List

/-- `USER_SPACE_LIMIT`: the first address above the user half. -/
def USER_SPACE_LIMIT : Nat := 0x800000000000

def span (first size : Nat) : List Nat := (List.range size).map (wadd first)

namespace Machine

def byteAt (m : Machine) (phys : Nat) : UInt8 :=
  byteOf (m.mem (frameAddr phys) ((phys &&& 0xFFF) / 8)) (phys % 8)

def setByte (m : Machine) (phys : Nat) (byte : UInt8) : Machine :=
  let index := (phys &&& 0xFFF) / 8
  let old := m.mem (frameAddr phys) index
  let place := 2 ^ (8 * (phys % 8))
  m.setWord (frameAddr phys) index (old - (byteOf old (phys % 8)).toNat * place + byte.toNat * place)

def translate (m : Machine) (virt : Nat) : Option Nat :=
  if isCanonical virt then m.virtToPhysRaw m.cr3 virt else none

/-- A user address in a page that is mapped for user access. -/
def userByte (m : Machine) (virt : Nat) : Bool :=
  decide (virt < USER_SPACE_LIMIT) && (m.permissions m.cr3 virt).any Perms.user

/-- Store bytes from an address on; `none` is a fault in kernel mode. -/
def store (m : Machine) (first : Nat) (bytes : List UInt8) : Option Machine :=
  ((span first bytes.length).zip bytes).foldlM (fun m' (virt, byte) =>
    if (m.permissions m.cr3 virt).any Perms.writable then (m.translate virt).map (m'.setByte · byte)
    else none) m

/-- Load bytes from an address on; `none` is a fault in kernel mode. -/
def load (m : Machine) (first size : Nat) : Option (List UInt8) :=
  (span first size).mapM fun virt => (m.translate virt).map m.byteAt

/-! ## Pages -/

variable {m : Machine} {first virt virt' size : Nat}

theorem tableIndex_congr (page : virt / 4096 = virt' / 4096) (level : Nat) :
    tableIndex level virt = tableIndex level virt' := by
  have shifted : ∀ x : Nat, x >>> (12 + 9 * level) = (x / 4096) >>> (9 * level) := fun x => by
    rw [Nat.shiftRight_add, Nat.shiftRight_eq_div_pow x 12]
  rw [tableIndex, tableIndex, shifted, shifted, page]

theorem walkPath_congr (page : virt / 4096 = virt' / 4096) (mem : Nat → Nat → Nat) (level table : Nat) :
    walkPath mem virt level table = walkPath mem virt' level table := by
  induction level generalizing table with
  | zero => simp only [walkPath, tableIndex_congr page]
  | succ level ih => simp only [walkPath, tableIndex_congr page, ih]

theorem userByte_congr (page : virt / 4096 = virt' / 4096) : m.userByte virt = m.userByte virt' := by
  have limit : virt < USER_SPACE_LIMIT ↔ virt' < USER_SPACE_LIMIT := by
    rw [show USER_SPACE_LIMIT = 4096 * 0x800000000 by decide]
    omega
  simp only [userByte, permissions, walkPath_congr page, limit]

theorem userBytes_iff (pos : 0 < size) (short : size ≤ 4096) (word : first < WORD) :
    (∀ a ∈ span first size, m.userByte a = true) ↔
      (m.userByte first && m.userByte (first + (size - 1))) = true := by
  have address : ∀ i < size, first < USER_SPACE_LIMIT → wadd first i = first + i := by
    intro i below user
    have limit : USER_SPACE_LIMIT = 0x800000000000 := rfl
    have words := WORD_eq
    exact wadd_of_lt (by omega)
  have member : ∀ i < size, wadd first i ∈ span first size := fun i below =>
    mem_map.mpr ⟨i, mem_range.mpr below, rfl⟩
  have lower : m.userByte first = true → first < USER_SPACE_LIMIT := by
    intro user
    rw [userByte, Bool.and_eq_true, decide_eq_true_eq] at user
    exact user.1
  rw [Bool.and_eq_true]
  constructor
  · intro all
    have start : m.userByte first = true := by
      have here := all _ (member 0 pos)
      rwa [wadd, Nat.add_zero, Nat.mod_eq_of_lt word] at here
    refine ⟨start, ?_⟩
    have last : size - 1 < size := by omega
    have here := all _ (member _ last)
    rwa [address _ last (lower start)] at here
  · rintro ⟨start, last⟩ a inside
    obtain ⟨i, below, rfl⟩ := mem_map.mp inside
    rw [mem_range] at below
    rw [address i below (lower start)]
    -- a span of at most one page meets at most two
    rcases (by omega : (first + i) / 4096 = first / 4096 ∨
      (first + i) / 4096 = (first + (size - 1)) / 4096) with page | page
    · rw [userByte_congr page, start]
    · rw [userByte_congr page, last]

theorem exists_store {bytes : List UInt8} (pages : ∀ a ∈ span first bytes.length,
    (m.permissions m.cr3 a).any Perms.writable = true ∧ m.translate a ≠ none) :
    ∃ m', m.store first bytes = some m' := by
  refine Lib.Run.foldlM_total (fun pair mem m' => ?_) m
  obtain ⟨writable, mapped⟩ := pages pair.1 (of_mem_zip mem).1
  obtain ⟨phys, found⟩ := Option.ne_none_iff_exists'.mp mapped
  exact ⟨m'.setByte phys pair.2, by simp [writable, found]⟩

end Machine

end Zenus.Mem
