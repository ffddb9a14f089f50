import Zenus.Lib.Loop
import Zenus.Mem.FrameAllocator

/-! # Page tables

The raw page-table code: creating, cloning and destroying address spaces, mapping
and unmapping single pages, and the software walk.  Physical memory is a store of
frames of 512 words, read and written through the direct map.  Tables are counted
by level: the words of a PML4 are on level 3 and those of a PT on level 0.

`map_to` of the paging crate is a parameter.  What its documentation promises is
the relation `MapWalk`: missing tables are taken from the frame allocator, zeroed
and linked, the flags of existing tables are only added to, and the page's own
word is set if it was unused.
-/

namespace Zenus.Mem

open Lib.Word Function

def PRESENT : Nat := 1

def WRITABLE : Nat := 2

def USER_ACCESSIBLE : Nat := 4

def HUGE_PAGE : Nat := 0x80

def NO_EXECUTE : Nat := 2 ^ 63

def MAX_FREED_CR3 : Nat := 64

/-- `entry & 0x000FFFFFFFFFF000`. -/
def frameAddr (entry : Nat) : Nat := entry &&& 0x000FFFFFFFFFF000

/-- `x & !0xFFF`. -/
def pageBase (x : Nat) : Nat := x &&& bnot 0xFFF

/-- The index of an address in a table of the given level. -/
def tableIndex (level virt : Nat) : Nat := (virt >>> (12 + 9 * level)) &&& 0x1FF

/-- Physical memory, the frame allocator and the statics of the paging code. -/
structure Machine where
  mem : Nat → Nat → Nat
  fa : FrameAllocator
  /-- The CR3 register. -/
  cr3 : Nat
  hhdmOffset : Nat
  level4Phys : Nat
  kernelCr3 : Nat
  freedCr3Count : Nat
  freedCr3List : Nat → Nat
  /-- Ghost: every frame the allocator has handed out, latest first. -/
  served : List Nat

namespace Machine

/-- `FRAME_ALLOCATOR.lock().alloc_frame()`; the outer `none` is a panic. -/
def allocFrame (m : Machine) : Option (Option Nat × Machine) :=
  m.fa.allocFrame.map fun (frame, fa) =>
    (frame, { m with fa := fa, served := frame.toList ++ m.served })

def setWord (m : Machine) (frame index word : Nat) : Machine :=
  { m with mem := update m.mem frame (update (m.mem frame) index word) }

def setFrame (m : Machine) (frame : Nat) (words : Nat → Nat) : Machine :=
  { m with mem := update m.mem frame words }

def zeroFrame (m : Machine) (frame : Nat) : Machine := m.setFrame frame fun _ => 0

/-! ## Address spaces -/

/-- `create_address_space`: the kernel half of the boot PML4, an empty user half. -/
def createAddressSpace (m : Machine) : Option (Option Nat × Machine) :=
  m.allocFrame.map fun
    | (none, m) => (none, m)
    | (some frame, m) =>
      (some (frame ||| (m.cr3 &&& 0b11000)),
        m.setFrame frame fun i => if i < 256 then 0 else m.mem m.level4Phys i)

/-- One word of a last-level table: writable pages are copied to a new frame, the
    others are shared. -/
def clonePage (src dst i : Nat) (m : Machine) : Option (Bool × Machine) :=
  let entry := m.mem src i
  if entry &&& PRESENT = 0 then some (true, m)
  else if entry &&& WRITABLE ≠ 0 then
    match m.allocFrame with
    | none => none
    | some (none, m) => some (false, m)
    | some (some frame, m) =>
      some (true, (m.setFrame frame (m.mem (frameAddr entry))).setWord dst i
        (pageBase frame ||| (entry &&& 0xFFF)))
  else some (true, m.setWord dst i entry)

/-- One word of a table: the child's table is allocated, zeroed, filled, and linked
    with the low flag bits of the word it copies. -/
def cloneEntry : Nat → (src dst i : Nat) → Machine → Option (Bool × Machine)
  | 0, src, dst, i, m => clonePage src dst i m
  | level + 1, src, dst, i, m =>
    let entry := m.mem src i
    if entry &&& PRESENT = 0 then some (true, m)
    else
      match m.allocFrame with
      | none => none
      | some (none, m) => some (false, m)
      | some (some frame, m) =>
        match Lib.Loop.upTo (cloneEntry level (frameAddr entry) (pageBase frame)) 512
          (m.zeroFrame (pageBase frame)) with
        | some (true, m) =>
          some (true, m.setWord dst i
            ((pageBase frame ||| (entry &&& 0xFFF &&& bnot 1)) ||| PRESENT))
        | other => other

def cloneUserAddressSpace (m : Machine) (sourceCr3 : Nat) : Option (Option Nat × Machine) :=
  match m.allocFrame with
  | none => none
  | some (none, m) => some (none, m)
  | some (some frame, m) =>
    let root := pageBase frame
    let kernel := pageBase m.kernelCr3
    let m := m.setFrame root fun i => if i < 256 then 0 else m.mem kernel (i - 256)
    match Lib.Loop.upTo (cloneEntry 3 (pageBase sourceCr3) root) 256 m with
    | none => none
    | some (false, m) => some (none, m)
    | some (true, m) => some (some (root ||| (sourceCr3 &&& 0b11000)), m)

/-! ## Destruction -/

def isAlreadyFreed (m : Machine) (cr3Phys : Nat) : Bool :=
  (List.range (min m.freedCr3Count MAX_FREED_CR3)).any fun i => m.freedCr3List i == cr3Phys

def markFreed (m : Machine) (cr3Phys : Nat) : Machine :=
  { m with
    freedCr3Count := wadd m.freedCr3Count 1
    freedCr3List :=
      if m.freedCr3Count < MAX_FREED_CR3 then
        update m.freedCr3List m.freedCr3Count cr3Phys
      else m.freedCr3List }

/-- `free_frame(PhysAddr::new(addr))`. -/
def freePhys (fa : FrameAllocator) (addr : Nat) : Option FrameAllocator :=
  (PhysAddr.new addr).map fa.freeFrame

/-- How many frames the source frees for a huge page, by level. -/
def hugeFrames : Nat → Nat
  | 3 => 262144
  | 2 => 512
  | _ => 1

/-- Free what hangs off one word, children before the table. -/
def destroyEntry (mem : Nat → Nat → Nat) : Nat → Nat → FrameAllocator → Option FrameAllocator
  | 0, entry, fa => if entry &&& PRESENT = 0 then some fa else freePhys fa (frameAddr entry)
  | level + 1, entry, fa =>
    if entry &&& PRESENT = 0 then some fa
    else if entry &&& HUGE_PAGE ≠ 0 then
      (List.range (hugeFrames (level + 1))).foldlM
        (fun fa j => freePhys fa (frameAddr entry + 4096 * j)) fa
    else
      ((List.range 512).foldlM
        (fun fa i => destroyEntry mem level (mem (frameAddr entry) i) fa) fa).bind
        fun fa => freePhys fa (frameAddr entry)

/-- `destroy_address_space`; `none` is a panic. -/
def destroyAddressSpace (m : Machine) (cr3 : Nat) : Option Machine :=
  let phys := pageBase cr3
  let kernel := pageBase m.kernelCr3
  if phys = kernel then some m
  else if phys = 0 then some m
  else if m.isAlreadyFreed phys then some m
  else
    let current := pageBase m.cr3
    let m := m.markFreed phys
    let m := if phys = current then { m with cr3 := kernel } else m
    (((List.range 256).foldlM (fun fa i => destroyEntry m.mem 3 (m.mem phys i) fa) m.fa).bind
      fun fa => freePhys fa phys).map fun fa => { m with fa := fa }

/-! ## Walks -/

/-- The walk of `virt_to_phys_raw` from a table. -/
def virtWalk (mem : Nat → Nat → Nat) (virt : Nat) : Nat → Nat → Option Nat
  | 0, table =>
    let entry := mem table (tableIndex 0 virt)
    if entry &&& PRESENT = 0 then none else some (frameAddr entry ||| (virt &&& 0xFFF))
  | level + 1, table =>
    let entry := mem table (tableIndex (level + 1) virt)
    let offset := 2 ^ (12 + 9 * (level + 1)) - 1
    if entry &&& PRESENT = 0 then none
    else if entry &&& HUGE_PAGE ≠ 0 then
      some ((entry &&& 0x000FFFFFFFFFFFFF &&& bnot offset) ||| (virt &&& offset))
    else virtWalk mem virt level (frameAddr entry)

def virtToPhysRaw (m : Machine) (cr3 virt : Nat) : Option Nat :=
  virtWalk m.mem virt 3 (pageBase cr3)

/-- The last-level table, index and word of an address, as the unmapping and
    protecting walks find them. -/
def leafSlot (mem : Nat → Nat → Nat) (virt : Nat) : Nat → Nat → Option (Nat × Nat × Nat)
  | 0, table =>
    let entry := mem table (tableIndex 0 virt)
    if entry &&& PRESENT = 0 then none else some (table, tableIndex 0 virt, entry)
  | level + 1, table =>
    let entry := mem table (tableIndex (level + 1) virt)
    if entry &&& PRESENT = 0 then none else leafSlot mem virt level (frameAddr entry)

def unmapPageRawKeepFrame (m : Machine) (cr3 virt : Nat) : Bool × Machine :=
  match leafSlot m.mem virt 3 (pageBase cr3) with
  | none => (false, m)
  | some (table, i, _) => (true, m.setWord table i 0)

def unmapPageRaw (m : Machine) (cr3 virt : Nat) : Option (Bool × Machine) :=
  match leafSlot m.mem virt 3 (pageBase cr3) with
  | none => some (false, m)
  | some (table, i, entry) =>
    (freePhys m.fa (frameAddr entry)).map fun fa => (true, { m.setWord table i 0 with fa := fa })

def protectPageRaw (m : Machine) (cr3 virt : Nat) (writable executable : Bool) : Bool × Machine :=
  match leafSlot m.mem virt 3 (pageBase cr3) with
  | none => (false, m)
  | some (table, i, entry) =>
    let entry := entry &&& bnot WRITABLE &&& bnot NO_EXECUTE
    let entry := if writable then entry ||| WRITABLE else entry
    let entry := if executable then entry else entry ||| NO_EXECUTE
    (true, m.setWord table i entry)

/-! ## Mapping -/

/-- The flags of a new mapping that its parent tables get as well. -/
def parentFlags (flags : Nat) : Nat := flags &&& (PRESENT ||| WRITABLE ||| USER_ACCESSIBLE)

/-- What `map_to` of the paging crate does from a table of the given level on. -/
inductive MapWalk (virt frame flags : Nat) : Nat → Nat → Machine → Bool → Machine → Prop
  /-- The page's word was unused and is set. -/
  | mapped {table : Nat} {m : Machine} (unused : m.mem table (tableIndex 0 virt) = 0) :
      MapWalk virt frame flags 0 table m true
        (m.setWord table (tableIndex 0 virt) (frame ||| flags))
  /-- The page is mapped already. -/
  | taken {table : Nat} {m : Machine} (used : m.mem table (tableIndex 0 virt) ≠ 0) :
      MapWalk virt frame flags 0 table m false m
  /-- A table is missing and no frame is left for it. -/
  | exhausted {level table : Nat} {m m₁ : Machine}
      (unused : m.mem table (tableIndex (level + 1) virt) = 0)
      (empty : m.allocFrame = some (none, m₁)) :
      MapWalk virt frame flags (level + 1) table m false m₁
  /-- A table is missing; it is allocated, linked and zeroed. -/
  | created {level table new : Nat} {m m₁ m₂ : Machine} {ok : Bool}
      (unused : m.mem table (tableIndex (level + 1) virt) = 0)
      (fresh : m.allocFrame = some (some new, m₁))
      (rest : MapWalk virt frame flags level new
        ((m₁.setWord table (tableIndex (level + 1) virt) (new ||| parentFlags flags)).zeroFrame new)
        ok m₂) :
      MapWalk virt frame flags (level + 1) table m ok m₂
  /-- The word maps a huge page; only its flags are added to. -/
  | huge {level table : Nat} {m : Machine}
      (used : m.mem table (tableIndex (level + 1) virt) ≠ 0)
      (big : m.mem table (tableIndex (level + 1) virt) &&& HUGE_PAGE ≠ 0) :
      MapWalk virt frame flags (level + 1) table m false
        (m.setWord table (tableIndex (level + 1) virt)
          (m.mem table (tableIndex (level + 1) virt) ||| parentFlags flags))
  /-- The table exists; its flags are added to and the walk goes on. -/
  | followed {level table : Nat} {m m₂ : Machine} {ok : Bool}
      (used : m.mem table (tableIndex (level + 1) virt) ≠ 0)
      (small : m.mem table (tableIndex (level + 1) virt) &&& HUGE_PAGE = 0)
      (rest : MapWalk virt frame flags level
        (frameAddr (m.mem table (tableIndex (level + 1) virt)))
        (m.setWord table (tableIndex (level + 1) virt)
          (m.mem table (tableIndex (level + 1) virt) ||| parentFlags flags)) ok m₂) :
      MapWalk virt frame flags (level + 1) table m ok m₂

/-- An implementation of `map_to` that behaves as documented. -/
structure Mapper where
  mapTo : Machine → (root virt frame flags : Nat) → Option (Bool × Machine)
  documented : ∀ m root virt frame flags ok m',
    mapTo m root virt frame flags = some (ok, m') → MapWalk virt frame flags 3 root m ok m'

/-- `VirtAddr::try_new`: bits 47 to 63 are equal. -/
def isCanonical (virt : Nat) : Bool := decide (virt < 2 ^ 47 ∨ WORD - 2 ^ 47 ≤ virt)

def mapPageRaw (mapper : Mapper) (m : Machine) (cr3 virt phys flags : Nat) :
    Option (Bool × Machine) :=
  if isCanonical virt then
    (PhysAddr.new phys).bind fun phys => mapper.mapTo m (pageBase cr3) virt (pageBase phys) flags
  else some (false, m)

def mapUserPageRaw (mapper : Mapper) (m : Machine) (cr3 virt phys : Nat)
    (writable executable : Bool) : Option (Bool × Machine) :=
  let flags := PRESENT ||| USER_ACCESSIBLE
  let flags := if writable then flags ||| WRITABLE else flags
  let flags := if executable then flags else flags ||| NO_EXECUTE
  mapPageRaw mapper m cr3 virt phys flags

def mapSupervisorPageRaw (mapper : Mapper) (m : Machine) (cr3 virt phys : Nat) (writable : Bool) :
    Option (Bool × Machine) :=
  let flags := PRESENT
  let flags := if writable then flags ||| WRITABLE else flags
  mapPageRaw mapper m cr3 virt phys flags

end Machine

end Zenus.Mem
