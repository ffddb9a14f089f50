import Zenus.Lib.Word
import Zenus.Lib.Slots

/-! # The physical frame allocator

A translation of `FrameAllocator`: a recycled-frame stack, a bump pointer over a
list of regions (the high pass), and per-region cursors for the pages below the
floor (the low pass).  Region and cursor arrays are functions on indices bounded
by `regionCount`; the stack is a list with its top first.  Word arithmetic wraps
as in a release build (a debug build panics there instead), and an outer `none` is
the panic of `PhysAddr::new`.
-/

namespace Zenus.Mem

open Lib.Word Lib.Slots Function

def PAGE_SIZE_U64 : Nat := 4096
def MAX_REGIONS : Nat := 64
def FREE_STACK_SIZE : Nat := 16384
def BOOT_STACK_RESERVE : Nat := 512 * 1024

/-- `PhysAddr::new`, which panics when one of the bits 52 to 63 is set. -/
def PhysAddr.new (addr : Nat) : Option Nat := if addr < 2 ^ 52 then some addr else none

/-- An entry of the bootloader's memory map. -/
structure MemoryRegion where
  base : Nat
  length : Nat
  kind : Nat
  deriving DecidableEq, Repr

def MemoryRegion.isUsable (e : MemoryRegion) : Bool := e.kind == 0

def MemoryRegion.span (e : MemoryRegion) : Set Nat := Set.Ico e.base (e.base + e.length)

structure MemRegion where
  base : Nat
  length : Nat
  deriving DecidableEq, Repr

/-- `r.base + r.length`, the end every pass computes. -/
def MemRegion.endAddr (r : MemRegion) : Nat := wadd r.base r.length

structure FrameAllocator where
  regions : Nat → MemRegion
  regionCount : Nat
  nextFree : Nat
  /-- The seeded bump pointer: the low pass may not cross it. -/
  floor : Nat
  /-- Per-region watermark of the low pass; `0` means "not started". -/
  lowCursor : Nat → Nat
  freeStack : List Nat
  totalMemory : Nat
  usedMemory : Nat

namespace FrameAllocator

/-- `x & !(PAGE_SIZE - 1)`. -/
def pageDown (x : Nat) : Nat := x &&& bnot 0xFFF

/-- The next page the high pass would take from region `i`. -/
def highCandidate (fa : FrameAllocator) (i : Nat) : Nat :=
  pageDown (wadd (max (fa.regions i).base fa.nextFree) 0xFFF)

def highFits (fa : FrameAllocator) (i : Nat) : Bool :=
  decide (wadd (fa.highCandidate i) PAGE_SIZE_U64 ≤ (fa.regions i).endAddr)

/-- The next page the low pass would take from region `i`. -/
def lowCandidate (fa : FrameAllocator) (i : Nat) : Nat :=
  max (fa.lowCursor i) (pageDown (wsub (wadd (fa.regions i).base PAGE_SIZE_U64) 1))

def lowFits (fa : FrameAllocator) (i : Nat) : Bool :=
  decide (wadd (fa.lowCandidate i) PAGE_SIZE_U64 ≤ (fa.regions i).endAddr) &&
    decide (fa.lowCandidate i < fa.floor)

/-- The high pass, then the low pass, once the recycled stack is empty. -/
def allocFromRegions (fa : FrameAllocator) : Option (Option Nat × FrameAllocator) :=
  match (List.range fa.regionCount).find? fa.highFits with
  | some i =>
    (PhysAddr.new (fa.highCandidate i)).map fun frame =>
      (some frame,
        { fa with
          nextFree := wadd (fa.highCandidate i) PAGE_SIZE_U64
          usedMemory := wadd fa.usedMemory PAGE_SIZE_U64 })
  | none =>
    match (List.range fa.regionCount).find? fa.lowFits with
    | some i =>
      (PhysAddr.new (fa.lowCandidate i)).map fun frame =>
        (some frame,
          { fa with
            lowCursor :=
              update fa.lowCursor i (wadd (fa.lowCandidate i) PAGE_SIZE_U64)
            usedMemory := wadd fa.usedMemory PAGE_SIZE_U64 })
    | none => some (none, fa)

/-- `alloc_frame`: the outer `none` is a panic, the inner one an empty allocator. -/
def allocFrame (fa : FrameAllocator) : Option (Option Nat × FrameAllocator) :=
  match fa.freeStack with
  | addr :: rest =>
    (PhysAddr.new addr).map fun frame =>
      (some frame,
        { fa with freeStack := rest, usedMemory := wadd fa.usedMemory PAGE_SIZE_U64 })
  | [] => fa.allocFromRegions

/-- `free_frame`: refuses address zero, unaligned addresses and frames already
    on the stack, and drops the frame when the stack is full. -/
def freeFrame (fa : FrameAllocator) (addr : Nat) : FrameAllocator :=
  if addr = 0 ∨ addr &&& (PAGE_SIZE_U64 - 1) ≠ 0 then fa
  else if addr ∈ fa.freeStack then fa
  else if fa.freeStack.length < FREE_STACK_SIZE then
    { fa with
      freeStack := addr :: fa.freeStack
      usedMemory := fa.usedMemory - PAGE_SIZE_U64 }
  else fa

/-! ## Counting -/

/-- One region of `high_pass_frames`: the cursor and the count. -/
def countHigh (r : MemRegion) (cursor total : Nat) : Nat × Nat :=
  let start := pageDown (wsub (wadd (max r.base cursor) PAGE_SIZE_U64) 1)
  if wadd start PAGE_SIZE_U64 ≤ r.endAddr then
    let pages := wsub r.endAddr start / PAGE_SIZE_U64
    (wadd start (wmul pages PAGE_SIZE_U64), wadd total pages)
  else (cursor, total)

def highPassFrames (fa : FrameAllocator) : Nat :=
  ((List.range fa.regionCount).foldl (fun (cursor, total) i => countHigh (fa.regions i) cursor total)
    (fa.nextFree, 0)).2

/-- The pages of one region that the low pass can still serve. -/
def countLow (fa : FrameAllocator) (i : Nat) : Nat :=
  let limit := min (fa.regions i).endAddr fa.floor
  if limit < PAGE_SIZE_U64 then 0
  else
    let last := pageDown (limit - PAGE_SIZE_U64)
    if last ≥ fa.lowCandidate i then (last - fa.lowCandidate i) / PAGE_SIZE_U64 + 1 else 0

def lowPassFrames (fa : FrameAllocator) : Nat :=
  (List.range fa.regionCount).foldl (fun total i => wadd total (fa.countLow i)) 0

def freeFramesCount (fa : FrameAllocator) : Nat :=
  wadd (wadd fa.freeStack.length fa.highPassFrames) fa.lowPassFrames

/-! ## Reserving a range -/

/-- Drop region `i` together with its cursor, closing the gap. -/
def removeRegion (fa : FrameAllocator) (i : Nat) : FrameAllocator :=
  { fa with
    regions := shiftDown fa.regions i (fa.regionCount - 1 - i)
    lowCursor := shiftDown fa.lowCursor i (fa.regionCount - 1 - i)
    regionCount := fa.regionCount - 1 }

def setRegion (fa : FrameAllocator) (i : Nat) (r : MemRegion) : FrameAllocator :=
  { fa with regions := update fa.regions i r }

/-- Put a region and its cursor right after entry `i`. -/
def insertAfter (fa : FrameAllocator) (i : Nat) (r : MemRegion) (cursor : Nat) :
    FrameAllocator :=
  { fa with
    regions := update (shiftUp fa.regions i (fa.regionCount - 1 - i)) (i + 1) r
    lowCursor := update (shiftUp fa.lowCursor i (fa.regionCount - 1 - i)) (i + 1) cursor
    regionCount := fa.regionCount + 1 }

/-- One iteration of the `while i < region_count` loop: the next index and the
    reshaped allocator. -/
def reserveStep (base endAddr : Nat) (fa : FrameAllocator) (i : Nat) : Nat × FrameAllocator :=
  let r := fa.regions i
  if endAddr ≤ r.base ∨ base ≥ r.endAddr then (i + 1, fa)
  else if base ≤ r.base ∧ endAddr ≥ r.endAddr then (i, fa.removeRegion i)
  else if base ≤ r.base then (i + 1, fa.setRegion i ⟨endAddr, r.endAddr - endAddr⟩)
  else if endAddr ≥ r.endAddr then (i + 1, fa.setRegion i ⟨r.base, base - r.base⟩)
  else
    let lower := fa.setRegion i ⟨r.base, base - r.base⟩
    if fa.regionCount < MAX_REGIONS then
      (i + 1, lower.insertAfter i ⟨endAddr, r.endAddr - endAddr⟩ (max (fa.lowCursor i) endAddr))
    else (i + 1, lower)

/-- The loop; a split adds one entry behind the index, so two iterations per
    region are enough. -/
def reserveLoop (base endAddr : Nat) : Nat → Nat → FrameAllocator → FrameAllocator
  | 0, _, fa => fa
  | fuel + 1, i, fa =>
    if i < fa.regionCount then
      let (i', fa') := reserveStep base endAddr fa i
      reserveLoop base endAddr fuel i' fa'
    else fa

def reserveEnd (base length : Nat) : Nat :=
  pageDown (wsub (wadd (satAdd (pageDown base) length) PAGE_SIZE_U64) 1)

/-- Move the bump pointer out of the reserved range. -/
def fixNext (fa : FrameAllocator) (base endAddr : Nat) : FrameAllocator :=
  if fa.nextFree ≥ base ∧ fa.nextFree < endAddr then { fa with nextFree := endAddr } else fa

def reserveRegion (fa : FrameAllocator) (base length : Nat) : FrameAllocator :=
  if length = 0 then fa
  else
    (reserveLoop (pageDown base) (reserveEnd base length) (2 * fa.regionCount) 0 fa).fixNext
      (pageDown base) (reserveEnd base length)

/-! ## Seeding -/

/-- What `global_init` needs to know about the machine, as plain numbers. -/
structure AllocPlanInput where
  memoryMap : List MemoryRegion
  kernelImageBase : Nat
  kernelImageEnd : Nat
  bootStackPhys : Nat

/-- The static allocator as it is before `global_init`. -/
def FRAME_ALLOCATOR : FrameAllocator :=
  { regions := fun _ => ⟨0, 0⟩
    regionCount := 0
    nextFree := 0
    floor := 0
    lowCursor := fun _ => 0
    freeStack := []
    totalMemory := 0
    usedMemory := 0 }

/-- `reset`: the region and cursor arrays are cleared in full. -/
def reset (_ : FrameAllocator) : FrameAllocator := FRAME_ALLOCATOR

/-- One entry of the first pass: a usable, non-empty entry is appended while
    there is room. -/
def addUsable (fa : FrameAllocator) (e : MemoryRegion) : FrameAllocator :=
  if e.isUsable ∧ e.length > 0 then
    if fa.regionCount < MAX_REGIONS then
      { fa with
        regions := update fa.regions fa.regionCount ⟨e.base, e.length⟩
        regionCount := fa.regionCount + 1 }
    else fa
  else fa

/-- One entry of the second pass: every other non-empty entry is reserved. -/
def reserveUnusable (fa : FrameAllocator) (e : MemoryRegion) : FrameAllocator :=
  if e.kind ≠ 0 ∧ e.length > 0 then fa.reserveRegion e.base e.length else fa

/-- The third and fourth step: the kernel image and the boot stack. -/
def reserveKernel (fa : FrameAllocator) (input : AllocPlanInput) : FrameAllocator :=
  let fa :=
    if input.kernelImageEnd > input.kernelImageBase then
      fa.reserveRegion input.kernelImageBase (input.kernelImageEnd - input.kernelImageBase)
    else fa
  if input.bootStackPhys ≠ 0 then
    fa.reserveRegion ((input.bootStackPhys - BOOT_STACK_RESERVE) &&& bnot PAGE_SIZE_U64)
      (BOOT_STACK_RESERVE + PAGE_SIZE_U64)
  else fa

/-- The seeded bump pointer: the first region's base or the 16 MiB line, raised
    past every kernel entry of the map. -/
def seed (fa : FrameAllocator) (memoryMap : List MemoryRegion) : Nat :=
  if fa.regionCount > 0 then
    let base := (fa.regions 0).base
    let start := if base < 0x1000000 ∧ (fa.regions 0).endAddr > 0x1000000 then 0x1000000 else base
    memoryMap.foldl
      (fun start e => if e.kind = 6 ∧ wadd e.base e.length > start then wadd e.base e.length else start)
      start
  else 0

/-- `plan_regions`.  The total is taken over the whole array, as in the source. -/
def planRegions (fa : FrameAllocator) (input : AllocPlanInput) : FrameAllocator :=
  let fa := input.memoryMap.foldl addUsable fa.reset
  let fa := input.memoryMap.foldl reserveUnusable fa
  let fa := fa.reserveKernel input
  let start := fa.seed input.memoryMap
  { fa with
    totalMemory := (slots fa.regions MAX_REGIONS).foldl (fun total r => wadd total r.length) 0
    nextFree := start
    floor := start }

/-- `new`: the host-side constructor, with no kernel image and no boot stack. -/
def new (memoryMap : List MemoryRegion) : FrameAllocator :=
  FRAME_ALLOCATOR.planRegions
    { memoryMap := memoryMap, kernelImageBase := 0, kernelImageEnd := 0, bootStackPhys := 0 }

end FrameAllocator

end Zenus.Mem
