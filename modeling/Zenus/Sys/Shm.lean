import Zenus.Sys.Mmap
import Zenus.Sys.Sandbox

/-! # Shared memory

`shmget`, `shmat`, `shmdt` and `shmctl` over the table of segments, the tasks and the page
tables.  A segment records its first frame only, and takes the others to follow it.

Three records are carried along that the kernel does not have: the frames that were
allocated for the segment of a slot, the frames that were given back, and the mappings
that `shmat` has made.
-/

namespace Zenus.Sys

open Lib.Word Mem Mem.Machine Sched

def MAX_SHMSEG : Nat := 64

instance : NeZero MAX_SHMSEG := ⟨Nat.succ_ne_zero 63⟩

def SHM_HINT : Nat := 0x300000000000
def IPC_RMID : Nat := 0

structure ShmSegment where
  key : Nat
  size : Nat
  phys : Nat
  attached : Nat
  mappedAt : Nat
  valid : Bool
  deriving DecidableEq, Repr

/-- A mapping of a segment by a task. -/
structure Attachment where
  task : Nat
  start : Nat
  slot : Fin MAX_SHMSEG
  deriving DecidableEq, Repr

structure Shared where
  sched : Scheduler
  machine : Machine
  segments : Fin MAX_SHMSEG → ShmSegment
  /-- The frames that were allocated for the segment of a slot, in order. -/
  taken : Fin MAX_SHMSEG → List Nat
  /-- The frames that segments have given back, the latest first. -/
  returned : List Nat
  attachments : List Attachment

def noSegments : Fin MAX_SHMSEG → ShmSegment := fun _ => ⟨0, 0, 0, 0, 0, false⟩

def shmPageCount (size : Nat) : Option Nat :=
  if size = 0 ∨ size > MAX_MAPPING_SIZE then none else (checkedAdd size 0xFFF).map (· / 0x1000)

def ShmSegment.pages (seg : ShmSegment) : Nat := (seg.size + 0xFFF) / 0x1000

def ShmSegment.run (seg : ShmSegment) : List Nat := (List.range seg.pages).map fun p => seg.phys + p * 0x1000

/-- The loop that allocates the frames of a segment.  Those it has got are lost if there
    is none left for the next. -/
def takeFrames : Nat → Machine → Option (Option (List Nat) × Machine)
  | 0, m => some (some [], m)
  | n + 1, m =>
    match m.allocFrame with
    | none => none
    | some (none, m) => some (none, m)
    | some (some frame, m) => (takeFrames n m).map fun (frames, m) => (frames.map (frame :: ·), m)

namespace Shared

variable (s : Shared)

def setSegment (slot : Fin MAX_SHMSEG) (seg : ShmSegment) : Shared :=
  { s with segments := Function.update s.segments slot seg }

def setVma (task : Nat) (vma : VmaTable) : Shared :=
  { s with sched := s.sched.changeTask task fun t => { t with vma := vma } }

/-! ## `shmget` -/

def findKey (key : Nat) : Option (Fin MAX_SHMSEG) :=
  (List.finRange MAX_SHMSEG).find? fun i => (s.segments i).valid && (s.segments i).key == key

def findUnused : Option (Fin MAX_SHMSEG) := (List.finRange MAX_SHMSEG).find? fun i => !(s.segments i).valid

/-- The second loop of `find_or_create`: a new segment in the first slot that is free. -/
def create (key size : Nat) : Option (Option (Fin MAX_SHMSEG) × Shared) :=
  match s.findUnused with
  | none => some (none, s)
  | some i =>
    match shmPageCount size with
    | none => some (none, s)
    | some pages =>
      (takeFrames pages s.machine).map fun (frames, m) =>
        match frames with
        | none => (none, { s with machine := m })
        | some frames =>
          (some i, { s.setSegment i ⟨key, size, frames.headD 0, 1, 0, true⟩ with
            machine := m
            taken := Function.update s.taken i frames })

def findOrCreate (key size : Nat) : Option (Option (Fin MAX_SHMSEG) × Shared) :=
  match s.findKey key with
  | some i => some (some i, s.setSegment i { s.segments i with attached := (s.segments i).attached + 1 })
  | none => s.create key size

def sysShmget (key size : Nat) : Option (Nat × Shared) :=
  (s.findOrCreate key size).map fun (slot, s) =>
    match slot with
    | some i => (i, s)
    | none => (WORD - 1, s)

/-! ## `shmat` -/

/-- The loop that maps the pages; nobody looks whether it succeeds. -/
def attachPages (mapper : Mapper) (cr3 start phys count : Nat) (m : Machine) : Option (Bool × Machine) :=
  Lib.Loop.upTo (fun i m =>
    match checkedAdd phys (i * 0x1000) with
    | none => some (false, m)
    | some frame =>
      (mapUserPageRaw mapper m cr3 (start + i * 0x1000) frame true false).map fun (_, m) => (true, m)) count m

/-- `unmap_page_raw_keep_frame` for all pages. -/
def detachPages (cr3 start count : Nat) (m : Machine) : Machine :=
  (List.range count).foldl (fun m i => (m.unmapPageRawKeepFrame cr3 (start + i * 0x1000)).2) m

/-- The pages are mapped and the area is recorded, or its pages are unmapped. -/
def attach (mapper : Mapper) (task : Nat) (t : Task) (slot : Fin MAX_SHMSEG) (start count endAddr : Nat) :
    Option (Nat × Shared) :=
  let seg := s.segments slot
  (attachPages mapper t.cr3 start seg.phys count s.machine).map fun (ok, m) =>
    if ok = false then (WORD - 1, { s with machine := m })
    else
      match t.vma.insert start endAddr 3 1 with
      | (none, _) => (WORD - 1, { s with machine := detachPages t.cr3 start count m })
      | (some _, vma) =>
        (start, { ({ s with machine := m }.setVma task vma).setSegment slot
            { seg with mappedAt := start, attached := seg.attached + 1 } with
          attachments := ⟨task, start, slot⟩ :: s.attachments })

def sysShmat (mapper : Mapper) (task shmid : Nat) : Option (Nat × Shared) :=
  if known : shmid < MAX_SHMSEG then
    let seg := s.segments ⟨shmid, known⟩
    if seg.valid = false then some (WORD - 1, s)
    else
      match s.sched.getTask task with
      | none => some (WORD - 1, s)
      | some t =>
        let start := (t.vma.findFree seg.size SHM_HINT).getD 0
        if start = 0 then some (WORD - 1, s)
        else
          match shmPageCount seg.size with
          | none => some (WORD - 1, s)
          | some count =>
            match checkedAdd start (count * 0x1000) with
            | none => some (WORD - 1, s)
            | some endAddr => s.attach mapper task t ⟨shmid, known⟩ start count endAddr
  else some (WORD - 1, s)

/-! ## `shmdt` and `shmctl` -/

/-- Give back what the segment takes for its frames, and free its slot. -/
def release (slot : Fin MAX_SHMSEG) : Option Shared :=
  let seg := s.segments slot
  (seg.run.foldlM freePhys s.machine.fa).map fun fa =>
    { s.setSegment slot { seg with valid := false } with
      machine := { s.machine with fa := fa }
      returned := seg.run.reverse ++ s.returned }

def detach (slot : Fin MAX_SHMSEG) : Option Shared :=
  let seg := s.segments slot
  if seg.valid = false then some s
  else if seg.attached = 0 then some (s.setSegment slot { seg with valid := false })
  else
    let s := s.setSegment slot { seg with attached := seg.attached - 1 }
    if seg.attached - 1 = 0 then s.release slot else some s

def findByMappedAt (addr : Nat) : Option (Fin MAX_SHMSEG) :=
  (List.finRange MAX_SHMSEG).find? fun i => (s.segments i).valid && (s.segments i).mappedAt == addr

/-- The pages of an area are unmapped and the area is dropped. -/
def dropArea (task : Nat) (t : Task) (r : VmaRegion) : Shared :=
  let s := { s with
    machine := detachPages t.cr3 r.start ((r.endAddr - r.start) / 0x1000) s.machine
    attachments := s.attachments.filter fun a => !(a.task == task && a.start == r.start) }
  match t.vma.find r.start with
  | none => s
  | some idx => s.setVma task (t.vma.remove idx).2

def sysShmdt (task shmaddr : Nat) : Option (Nat × Shared) :=
  if validateUserRange shmaddr 1 = false then some (WORD - 1, s)
  else
    match s.sched.getTask task with
    | none => some (WORD - 1, s)
    | some t =>
      match (t.vma.find shmaddr).map t.vma.regions with
      | none => some (WORD - 1, s)
      | some r =>
        if r.flags &&& MAP_SHARED = 0 then some (WORD - 1, s)
        else
          let s := s.dropArea task t r
          match s.findByMappedAt r.start with
          | some slot => (s.detach slot).map fun s => (0, s)
          | none => some (0, s)

def sysShmctl (shmid cmd : Nat) : Option (Nat × Shared) :=
  if cmd = IPC_RMID then
    if known : shmid < MAX_SHMSEG then
      if (s.segments ⟨shmid, known⟩).valid then (s.release ⟨shmid, known⟩).map fun s => (0, s)
      else some (0, s)
    else some (0, s)
  else some (WORD - 1, s)

end Shared

end Zenus.Sys
