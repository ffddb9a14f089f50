import Zenus.Lib.Word

/-! # The kernel heap

`alloc_mut` and `dealloc_mut` of the free-list allocator over the 8 MiB arena, at
the level of the words they read and write: block headers live in memory, the
free list is threaded through their `next` fields, and addresses are computed
with wrapping 64-bit arithmetic.  List walks take fuel; `none` is a walk that does
not end.
-/

namespace Zenus.Mem

open Lib.Word

def HEAP_SIZE : Nat := 1024 * 1024 * 8

def HEADER_SIZE : Nat := 32

def MIN_BLOCK : Nat := 32

def MAGIC_FREE : Nat := 0x46524545424C4F43

def MAGIC_USED : Nat := 0x55534544424C4F43

def CANARY_VALUE : Nat := 0xDEADBEEFCAFEBABE

structure BlockHeader where
  magic : Nat
  size : Nat
  next : Nat
  canary : Nat
  deriving DecidableEq, Repr

/-- `core::alloc::Layout`: the alignment is a power of two, and the size rounded
    up to it does not exceed `isize::MAX`. -/
structure Layout where
  size : Nat
  align : Nat
  pow : ∃ k, align = 2 ^ k
  small : size + (align - 1) < 2 ^ 63

/-- Where the linker puts the static `HEAP`: on a 16-byte boundary, and far
    enough below the top of the address space that one more arena fits above it. -/
structure Arena where
  start : Nat
  aligned : 16 ∣ start
  pos : 0 < start
  room : start + 2 * HEAP_SIZE + 64 ≤ WORD

/-- `arena_hi`. -/
def Arena.stop (A : Arena) : Nat := A.start + HEAP_SIZE

/-- What `report_list_fault` prints in its first line. -/
structure ListFault where
  site : String
  index : Nat
  addr : Nat
  why : String
  deriving DecidableEq, Repr

/-- The allocator and the statics it uses: the words of memory, the first fault
    reported, and the record of the last split. -/
structure FreeListAllocator where
  mem : Nat → Nat
  freeHead : Nat
  initialized : Bool
  faultReported : Option ListFault
  splitTrace : List Nat

namespace FreeListAllocator

/-- The allocator at boot, over whatever the memory holds. -/
def new (mem : Nat → Nat) : FreeListAllocator :=
  { mem := mem, freeHead := 0, initialized := false, faultReported := none
    splitTrace := List.replicate 6 0 }

/-! ## Headers in memory -/

def header (s : FreeListAllocator) (addr : Nat) : BlockHeader :=
  ⟨s.mem addr, s.mem (addr + 8), s.mem (addr + 16), s.mem (addr + 24)⟩

def poke (s : FreeListAllocator) (addr value : Nat) : FreeListAllocator :=
  { s with mem := Function.update s.mem addr value }

/-- `ptr::write` of a whole header. -/
def writeHeader (s : FreeListAllocator) (addr : Nat) (h : BlockHeader) : FreeListAllocator :=
  (((s.poke addr h.magic).poke (addr + 8) h.size).poke (addr + 16) h.next).poke (addr + 24) h.canary

/-- Store a successor: in the list head when there is no predecessor. -/
def setLink (s : FreeListAllocator) (prev value : Nat) : FreeListAllocator :=
  if prev = 0 then { s with freeHead := value } else s.poke (prev + 16) value

/-! ## Initialisation and the list check -/

def ensureInitialized (A : Arena) (s : FreeListAllocator) : FreeListAllocator :=
  if s.initialized then s
  else
    { s.writeHeader A.start ⟨MAGIC_FREE, HEAP_SIZE - HEADER_SIZE, 0, CANARY_VALUE⟩ with
      freeHead := A.start
      initialized := true }

/-- The walk of `debug_check_free_list`: the first thing that is wrong, if any.
    `left` blocks may still be visited. -/
def checkWalk (A : Arena) (s : FreeListAllocator) (left n cur prev : Nat) :
    Option (Nat × Nat × String) :=
  if cur = 0 then none
  else
    match left with
    | 0 => some (n, cur, "chain longer than 4096 blocks")
    | left + 1 =>
      if cur < A.start ∨ (checkedAdd cur HEADER_SIZE).all (fun e => decide (e > A.stop)) then
        some (n, cur, "block outside the arena")
      else if ((checkedAdd cur HEADER_SIZE).bind
          (fun e => checkedAdd e (s.header cur).size)).all (fun e => decide (e > A.stop)) then
        some (n, cur, "block extends past the arena")
      else if cur ≤ prev then some (n, cur, "chain is not ascending")
      else if (s.header cur).magic ≠ MAGIC_FREE ∨ (s.header cur).canary ≠ CANARY_VALUE then
        some (n, cur, "bad magic or canary")
      else if cur % 8 ≠ 0 then some (n, cur, "misaligned block header")
      else checkWalk A s left (n + 1) (s.header cur).next cur

/-- `report_list_fault`: only the first fault is reported. -/
def reportListFault (s : FreeListAllocator) (site : String) (index addr : Nat) (why : String) :
    FreeListAllocator :=
  match s.faultReported with
  | some _ => s
  | none => { s with faultReported := some ⟨site, index, addr, why⟩ }

def debugCheckFreeList (A : Arena) (s : FreeListAllocator) (site : String) : FreeListAllocator :=
  match checkWalk A s 4096 0 s.freeHead 0 with
  | none => s
  | some (index, addr, why) => s.reportListFault site index addr why

/-! ## Allocation -/

/-- `(x + align - 1) & !(align - 1)`. -/
def alignUp (x align : Nat) : Nat := wsub (wadd x align) 1 &&& bnot (align - 1)

def recordSplitTrace (s : FreeListAllocator) (prev curr alignedData size blockSize regionEnd : Nat) :
    FreeListAllocator :=
  { s with splitTrace := [curr, blockSize, regionEnd, prev, alignedData, size] }

/-- Take `size` bytes from the block at `curr`, whose predecessor is `prev`: the
    rest of the block stays on the list when it can hold a header and
    `MIN_BLOCK`, and the header of the part taken records the rounded size. -/
def carve (s : FreeListAllocator) (size align prev curr : Nat) : FreeListAllocator :=
  let block := s.header curr
  let regionEnd := wadd (wadd curr HEADER_SIZE) block.size
  let usedHdr := alignUp curr align
  let alignedData := wadd usedHdr HEADER_SIZE
  let leftover := alignUp (wadd alignedData size) align
  let relinked :=
    if wadd (wadd leftover HEADER_SIZE) MIN_BLOCK > regionEnd then s.setLink prev block.next
    else
      (s.writeHeader leftover
        ⟨MAGIC_FREE, wsub (wsub regionEnd leftover) HEADER_SIZE, block.next, CANARY_VALUE⟩).setLink
        prev leftover
  (relinked.writeHeader usedHdr ⟨MAGIC_USED, alignUp size align, 0, CANARY_VALUE⟩).recordSplitTrace
    prev curr alignedData size block.size regionEnd

/-- The request fits in the block at `curr`. -/
def fits (s : FreeListAllocator) (size align curr : Nat) : Bool :=
  decide (wadd (wadd (alignUp curr align) HEADER_SIZE) size ≤
    wadd (wadd curr HEADER_SIZE) (s.header curr).size)

/-- The first-fit walk: the payload pointer, null when the list is exhausted. -/
def allocWalk (s : FreeListAllocator) (size align : Nat) :
    (fuel prev curr : Nat) → Option (Nat × FreeListAllocator)
  | 0, _, _ => none
  | fuel + 1, prev, curr =>
    if curr = 0 then some (0, s)
    else if s.fits size align curr then
      some (wadd (alignUp curr align) HEADER_SIZE, s.carve size align prev curr)
    else s.allocWalk size align fuel curr (s.header curr).next

/-- More steps than the arena has room for blocks. -/
def FUEL : Nat := HEAP_SIZE

def allocMut (A : Arena) (s : FreeListAllocator) (layout : Layout) :
    Option (Nat × FreeListAllocator) :=
  let s := (s.ensureInitialized A).debugCheckFreeList A "alloc"
  s.allocWalk (max layout.size 1) (max layout.align 16) FUEL 0 s.freeHead

/-! ## Deallocation -/

/-- The last block at or below `blockStart`, and its successor. -/
def findSlot (s : FreeListAllocator) (blockStart : Nat) : (fuel prev curr : Nat) → Option (Nat × Nat)
  | 0, _, _ => none
  | fuel + 1, prev, curr =>
    if curr = 0 then some (prev, curr)
    else if curr > blockStart then some (prev, curr)
    else s.findSlot blockStart fuel curr (s.header curr).next

/-- Put the block at `block` back between `prev` and `curr`, merging it with each
    neighbour it touches. -/
def coalesce (s : FreeListAllocator) (block blockSize prev curr : Nat) : FreeListAllocator :=
  let blockEnd := wadd (wadd block HEADER_SIZE) blockSize
  let prevEnd := if prev ≠ 0 then wadd (wadd prev HEADER_SIZE) (s.header prev).size else 0
  let coalescePrev := prev ≠ 0 ∧ prevEnd = block
  let coalesceNext := curr ≠ 0 ∧ blockEnd = curr
  if coalescePrev ∧ coalesceNext then
    (s.poke (prev + 8)
      (wadd (s.header prev).size
        (wadd (wadd (wadd HEADER_SIZE blockSize) HEADER_SIZE) (s.header curr).size))).poke
      (prev + 16) (s.header curr).next
  else if coalescePrev then
    s.poke (prev + 8) (wadd (s.header prev).size (wadd HEADER_SIZE blockSize))
  else if coalesceNext then
    ((s.poke (block + 8)
      (wadd (s.header block).size (wadd HEADER_SIZE (s.header curr).size))).poke
      (block + 16) (s.header curr).next).setLink prev block
  else (s.poke (block + 16) curr).setLink prev block

/-- `dealloc_mut`.  The diagnostics of a corrupted header change nothing. -/
def deallocMut (A : Arena) (s : FreeListAllocator) (ptr : Nat) : Option FreeListAllocator :=
  let s := (s.ensureInitialized A).debugCheckFreeList A "dealloc"
  let block := wsub ptr HEADER_SIZE
  if ptr = 0 then some s
  else if (s.header block).magic = MAGIC_FREE then some s
  else if (s.header block).magic ≠ MAGIC_USED ∨ (s.header block).canary ≠ CANARY_VALUE then some s
  else
    let blockSize := (s.header block).size
    let s := s.poke block MAGIC_FREE
    (s.findSlot block FUEL 0 s.freeHead).map fun (prev, curr) => s.coalesce block blockSize prev curr

/-! ## Totals -/

/-- Add up the sizes of the free blocks on the list. -/
def sizeWalk (s : FreeListAllocator) : (fuel curr total : Nat) → Option Nat
  | 0, _, _ => none
  | fuel + 1, curr, total =>
    if curr = 0 then some total
    else
      s.sizeWalk fuel (s.header curr).next
        (if (s.header curr).magic = MAGIC_FREE then wadd total (s.header curr).size else total)

def freeSize (A : Arena) (s : FreeListAllocator) : Option Nat :=
  let s := s.ensureInitialized A
  s.sizeWalk FUEL s.freeHead 0

def initHeap (A : Arena) (mem : Nat → Nat) : FreeListAllocator := (new mem).ensureInitialized A

end FreeListAllocator

end Zenus.Mem
