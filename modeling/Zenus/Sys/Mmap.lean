import Zenus.Mem.PageWords
import Zenus.Mem.UserBytes
import Zenus.Sched.Slots

/-! # Mapping memory

`sys_mmap`, `sys_munmap` and `sys_mprotect` over the task table and the page tables.
The loops over pages work on the tables, the allocator and the accounts of the groups;
the table of areas is changed before or after them.  Sums that the source does not check
wrap around.

Two lists are carried along that the kernel does not have: the frames that a call gives
back, with the page each was found at, and the pages whose mapping failed without the
call noticing.
-/

namespace Zenus.Sys

open Lib.Word Mem Mem.Machine Sched

def PROT_WRITE : Nat := 0x2
def PROT_EXEC : Nat := 0x4
def MAP_SHARED : Nat := 0x01
def MAP_FIXED : Nat := 0x10

/-- What the loops over pages work on. -/
structure Pages where
  machine : Machine
  groups : Fs.CgroupTable
  lost : List Nat

structure Memory where
  sched : Scheduler
  machine : Machine
  lost : List Nat

def Memory.pages (k : Memory) : Pages := ⟨k.machine, k.sched.cgroups, k.lost⟩

def Memory.withPages (k : Memory) (p : Pages) : Memory :=
  ⟨{ k.sched with cgroups := p.groups }, p.machine, p.lost⟩

namespace Pages

def uncharge (p : Pages) (task bytes : Nat) : Pages := { p with groups := p.groups.uncharge task bytes }

/-- `unmap_page_raw` -/
def unmapPage (cr3 virt : Nat) (p : Pages) : Option Pages :=
  (p.machine.unmapPageRaw cr3 virt).map fun (_, m) => { p with machine := m }

def unwindMapping (cr3 start count task : Nat) (p : Pages) : Option Pages :=
  ((List.range count).foldlM (fun (p : Pages) i => p.unmapPage cr3 (wadd start (i * 0x1000))) p).map
    fun p => p.uncharge task (count * 0x1000)

/-- One round of the loop of `sys_mmap`: is there a page more? -/
def mmapPage (mapper : Mapper) (task cr3 page prot : Nat) (p : Pages) : Option (Bool × Pages) :=
  match p.groups.charge task 0x1000 with
  | (false, groups) => some (false, { p with groups := groups })
  | (true, groups) =>
    match p.machine.allocFrame with
    | none => none
    | some (none, m) => some (false, { p with groups := groups, machine := m })
    | some (some frame, m) =>
      (mapUserPageRaw mapper m cr3 page frame (prot &&& PROT_WRITE != 0) (prot &&& PROT_EXEC != 0)).map
        fun (ok, m) =>
          (true, ⟨m, groups, if ok then p.lost else page :: p.lost⟩)

/-- The loop of `sys_mmap`, which counts the pages that are done. -/
def mmapPages (mapper : Mapper) (task cr3 start prot count : Nat) (p : Pages) :
    Option (Bool × Nat × Pages) :=
  Lib.Loop.upTo (fun i (s : Nat × Pages) =>
    (s.2.mmapPage mapper task cr3 (wadd start (i * 0x1000)) prot).map fun (ok, p) =>
      (ok, if ok then i + 1 else i, p)) count (0, p)

/-- One round of the loop of `sys_munmap`. -/
def munmapPage (task cr3 page : Nat) (p : Pages) : Option Pages :=
  match p.machine.virtToPhysRaw cr3 page with
  | none => some p
  | some phys =>
    (freePhys p.machine.fa (pageBase phys)).map fun fa =>
      { machine := ({ p.machine with fa := fa }.unmapPageRawKeepFrame cr3 page).2
        groups := p.groups.uncharge task 0x1000
        lost := p.lost }

end Pages

/-! ## `mmap` -/

/-- `mmap_extent`: the pages and the bytes. -/
def mmapExtent (length maxSize freeFrames : Nat) : Option (Nat × Nat) :=
  if length = 0 then none
  else
    let size := (length + 0xFFF) / 0x1000 * 0x1000
    -- `checked_next_multiple_of`
    if WORD ≤ size then none
    else if size > maxSize then none
    else if size / 0x1000 > freeFrames then none
    else some (size / 0x1000, size)

theorem mmapExtent_some {length maxSize free count size : Nat}
    (extent : mmapExtent length maxSize free = some (count, size)) :
    size = 4096 * count ∧ length ≤ size ∧ size < length + 4096 ∧ size ≤ maxSize := by
  simp only [mmapExtent] at extent
  split_ifs at extent
  cases extent
  omega

/-- Where the area of an `mmap` is to start; zero if there is no room. -/
def mmapStart (vma : VmaTable) (addr size flags : Nat) : Nat :=
  if flags &&& MAP_FIXED ≠ 0 ∧ addr ≠ 0 then pageBase addr
  else if addr ≠ 0 then (vma.findFree size (pageBase addr)).getD 0
  else (vma.findFree size vma.mmapBase).getD 0

namespace Memory

variable (k : Memory)

/-- A change through `with_vma_mut`. -/
def setVma (task : Nat) (vma : VmaTable) : Memory :=
  { k with sched := k.sched.changeTask task fun t => { t with vma := vma } }

/-- The pages are mapped and the area is recorded, or all of it is taken back. -/
def mmapAt (mapper : Mapper) (task : Nat) (t : Task) (start pageCount size prot flags : Nat) :
    Option (Nat × Memory) :=
  match k.pages.mmapPages mapper task t.cr3 start prot pageCount with
  | none => none
  | some (false, done, p) =>
    (p.unwindMapping t.cr3 start done task).map fun p => (WORD - 1, k.withPages p)
  | some (true, _, p) =>
    match t.vma.insert start (wadd start size) prot flags with
    | (some _, vma) => some (start, (k.withPages p).setVma task vma)
    | (none, _) =>
      (p.unwindMapping t.cr3 start pageCount task).map fun p => (WORD - 1, k.withPages p)

/-- `sys_mmap`; `none` is a panic. -/
def sysMmap (mapper : Mapper) (cpu addr length prot flags : Nat) : Option (Nat × Memory) :=
  match mmapExtent length MAX_MAPPING_SIZE k.machine.fa.freeFramesCount with
  | none => some (WORD - 1, k)
  | some (pageCount, size) =>
    let task := k.sched.currentTaskId cpu
    match k.sched.getTask task with
    | none => some (WORD - 1, k)
    | some t =>
      let start := mmapStart t.vma addr size flags
      if start = 0 ∨ wadd start size > 0x7F0000000000 then some (WORD - 1, k)
      else k.mmapAt mapper task t start pageCount size prot flags

end Memory

/-! ## `munmap` and `mprotect` -/

def munmapPageRange (addr length : Nat) : Option (Nat × Nat) :=
  if length = 0 then none
  else
    ((checkedAdd addr length).bind fun sum => checkedAdd sum 0xFFF).bind fun sum =>
      if pageBase sum ≤ pageBase addr then none else some (pageBase addr, pageBase sum)

def mprotectRange (addr length limit : Nat) : Option (Nat × Nat) :=
  if length = 0 then none
  else
    (checkedAdd addr (length - 1)).bind fun last =>
      if last ≥ limit then none
      else
        (checkedAdd (last ||| 0xFFF) 1).bind fun endPage =>
          if endPage ≤ pageBase addr then none else some (pageBase addr, endPage)

namespace Memory

variable (k : Memory)

/-- `sys_munmap`; `none` is a panic. -/
def sysMunmap (cpu addr length : Nat) : Option (Nat × Memory) :=
  match munmapPageRange addr length with
  | none => some (WORD - 1, k)
  | some (start, stop) =>
    let task := k.sched.currentTaskId cpu
    match k.sched.getTask task with
    | none => some (WORD - 1, k)
    | some t =>
      ((List.range ((stop - start) / 0x1000)).foldlM
        (fun (p : Pages) i => p.munmapPage task t.cr3 (start + i * 0x1000)) k.pages).map fun p =>
          (0, (k.withPages p).setVma task (t.vma.removeOverlapping start stop).2)

def sysMprotect (cpu addr length prot : Nat) : Nat × Memory :=
  match mprotectRange addr length USER_SPACE_LIMIT with
  | none => (WORD - 1, k)
  | some (start, stop) =>
    let task := k.sched.currentTaskId cpu
    match k.sched.getTask task with
    | none => (WORD - 1, k)
    | some t =>
      let m := (List.range ((stop - start) / 0x1000)).foldl (fun m i =>
        (m.protectPageRaw t.cr3 (start + i * 0x1000) (prot &&& PROT_WRITE != 0)
          (prot &&& PROT_EXEC != 0)).2) k.machine
      (0, { k with machine := m }.setVma task (t.vma.setProt start stop prot))

end Memory

end Zenus.Sys
