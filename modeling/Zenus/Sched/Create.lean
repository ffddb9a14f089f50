import Zenus.Sched.Scheduler

/-! # New tasks

`clone_task`, `create_user_task` and `create_task_named`.  What other subsystems
answer while a task is made (the stack, the namespaces, the user view of the page
tables, random addresses) is an argument.
-/

namespace Zenus.Sched

open Lib.Word

def STACK_GUARD : Nat := 32 * 1024
def MIN_TASK_STACK : Nat := STACK_GUARD + 4 * 1024
def FRAME_BYTES : Nat := 160
def DEFAULT_HEAP_BRK : Nat := 0x600000000000

/-- `isize::MAX` -/
def ISIZE_MAX : Nat := 2 ^ 63 - 1

def stackSizeIsValid (stackSize : Nat) : Bool :=
  decide (MIN_TASK_STACK ≤ stackSize ∧ stackSize ≤ ISIZE_MAX ∧ FRAME_BYTES ≤ stackSize - STACK_GUARD)

def frameBase (stackTop : Nat) : Nat := stackTop - STACK_GUARD

/-- Entry points are canonical user addresses above the first page. -/
def entryIsValid (entry : Nat) : Bool := decide (0x1000 ≤ entry ∧ entry < 0x800000000000)

def CLONE_NEWNS : Nat := 0x00020000
def CLONE_NEWUTS : Nat := 0x04000000
def CLONE_NEWIPC : Nat := 0x08000000
def CLONE_NEWUSER : Nat := 0x10000000
def CLONE_NEWPID : Nat := 0x20000000
def CLONE_NEWNET : Nat := 0x40000000

/-- The answers of the other subsystems. -/
structure Supply where
  /-- `alloc_stack`; 0 if there is none. -/
  stack : Nat
  /-- `build_user_view` -/
  view : Option Nat
  uts : Option Nat := none
  pid : Option Nat := none
  mnt : Option Nat := none
  net : Option Nat := none
  user : Option Nat := none
  ipc : Option Nat := none
  /-- `vfs::create_mnt_ns` for the new mount namespace. -/
  mntTable : Bool := false
  /-- The random user stack pointer and heap of `create_user_task`. -/
  aslrRsp : Nat := 0
  aslrHeap : Nat := 0

structure Namespaces where
  uts : Nat
  pid : Nat
  mnt : Nat
  net : Nat
  user : Nat
  ipc : Nat

/-- The namespace of a child: the parent's, or a new one if the flag asks for it. -/
def childNs (flags flag : Nat) (own : Nat) (made : Option Nat) : Option Nat :=
  if flags &&& flag ≠ 0 then made else some own

/-- The namespaces of a clone, made in the order of the source; `none` if one fails. -/
def childNamespaces (flags : Nat) (parent : Task) (supply : Supply) : Option Namespaces := do
  let uts ← childNs flags CLONE_NEWUTS parent.utsNs supply.uts
  let pid ← childNs flags CLONE_NEWPID parent.pidNs supply.pid
  let mnt ← childNs flags CLONE_NEWNS parent.mntNs (if supply.mntTable then supply.mnt else none)
  let net ← childNs flags CLONE_NEWNET parent.netNs supply.net
  let user ← childNs flags CLONE_NEWUSER parent.userNs supply.user
  let ipc ← childNs flags CLONE_NEWIPC parent.ipcNs supply.ipc
  return ⟨uts, pid, mnt, net, user, ipc⟩

/-- The record `clone_task` makes: a new task with some of the parent's fields. -/
def cloneRecord (parent : Task) (id cpu stackSize cr3 userRsp heapBrk : Nat) (ns : Namespaces)
    (supply : Supply) : Task :=
  let stackTop := supply.stack + stackSize
  { Task.new id (frameBase stackTop - FRAME_BYTES) (if Fs.utf8 parent.name then parent.name else []) with
    stackAlloc := supply.stack
    stackSize := stackSize
    kernelRspTop := stackTop
    userRsp := userRsp
    cpu := cpu
    cr3 := cr3
    userCr3 := supply.view.getD cr3
    heapBrk := heapBrk
    heapFloor := heapBrk
    uid := parent.uid
    gid := parent.gid
    euid := parent.euid
    egid := parent.egid
    noNewPrivs := parent.noNewPrivs
    caps := parent.caps
    parentPid := parent.id
    utsNs := ns.uts
    pidNs := ns.pid
    mntNs := ns.mnt
    netNs := ns.net
    userNs := ns.user
    ipcNs := ns.ipc
    cgroup := parent.cgroup }

namespace Scheduler

variable (s : Scheduler)

/-- `find_free`: the slot and the new search position. -/
def findFree : Option Slot :=
  (firstSlot fun i => decide (s.nextFree ≤ i.val) && (s.tasks i).isNone) <|>
    (firstSlot fun i => decide (i.val < s.nextFree) && (s.tasks i).isNone)

/-- The end of every creation: the task joins the group its record names and gets a
    slot.  0 is a refusal; if no slot is free, the membership stays behind. -/
def enrol (task : Task) : Nat × Scheduler :=
  match s.cgroups.attach task.cgroup task.id with
  | (.error _, cgroups) => (0, { s with cgroups := cgroups })
  | (.ok (), cgroups) =>
    let s := { s with cgroups := cgroups }
    match s.findFree with
    | none => (0, s)
    | some i =>
      (task.id,
        { s with
          tasks := Function.update s.tasks i (some task)
          nextFree := i.val + 1
          taskCount := s.taskCount + 1 })

/-- `NEXT_TASK_ID.fetch_add(1)` -/
def takeId : Nat × Scheduler := (s.nextTaskId, { s with nextTaskId := wadd s.nextTaskId 1 })

def cloneTask (cpu flags stackSize entry cr3 userRsp heapBrk : Nat) (supply : Supply) :
    Nat × Scheduler :=
  if !stackSizeIsValid stackSize then (0, s)
  else
    match s.tasks (s.current cpu) with
    | none => (0, s)
    | some parent =>
      if !entryIsValid entry then (0, s)
      else if supply.stack = 0 then (0, s)
      else
        let (id, s) := s.takeId
        match childNamespaces flags parent supply with
        | none => (0, s)
        | some ns => s.enrol (cloneRecord parent id cpu stackSize cr3 userRsp heapBrk ns supply)

/-- `current_cgroup`; a contended table counts as the root. -/
def currentCgroup (cpu : Nat) (contended : Bool) : Nat :=
  if MAX_CPUS ≤ cpu ∨ contended then 0 else ((s.tasks (s.current cpu)).map Task.cgroup).getD 0

/-- The record of `create_user_task`; the two flags say whether the table was contended
    when the parent and its group were read. -/
def userRecord (cpu id stackSize userRsp cr3 heapBase : Nat) (supply : Supply)
    (parentContended groupContended : Bool) : Task :=
  let stackTop := supply.stack + stackSize
  let heapBrk := if heapBase ≠ 0 then heapBase else supply.aslrHeap
  { Task.new id (frameBase stackTop - FRAME_BYTES) (Fs.str "user") with
    stackAlloc := supply.stack
    stackSize := stackSize
    kernelRspTop := stackTop
    userRsp := if userRsp = 0 then supply.aslrRsp else userRsp
    cpu := cpu
    cr3 := cr3
    userCr3 := supply.view.getD cr3
    heapBrk := heapBrk
    heapFloor := heapBrk
    parentPid :=
      if parentContended then 0
      else ((s.tasks (if MAX_CPUS ≤ cpu then 0 else s.current cpu)).map Task.id).getD 0
    cgroup := s.currentCgroup cpu groupContended }

def createUserTask (cpu entry stackSize userRsp cr3 heapBase : Nat) (supply : Supply)
    (parentContended groupContended : Bool) : Nat × Scheduler :=
  if !entryIsValid entry then (0, s)
  else if !stackSizeIsValid stackSize then (0, s)
  else if supply.stack = 0 then (0, s)
  else
    let (id, s) := s.takeId
    s.enrol (s.userRecord cpu id stackSize userRsp cr3 heapBase supply parentContended groupContended)

def kernelRecord (cpu id stackSize : Nat) (name : List UInt8) (supply : Supply) (contended : Bool) :
    Task :=
  let stackTop := supply.stack + stackSize
  { Task.new id (frameBase stackTop) name with
    stackAlloc := supply.stack
    stackSize := stackSize
    kernelRspTop := stackTop
    cpu := cpu
    heapBrk := DEFAULT_HEAP_BRK
    heapFloor := DEFAULT_HEAP_BRK
    cgroup := s.currentCgroup cpu contended }

def createTaskNamed (cpu stackSize : Nat) (name : List UInt8) (supply : Supply) (contended : Bool) :
    Nat × Scheduler :=
  if !stackSizeIsValid stackSize then (0, s)
  else if supply.stack = 0 then (0, s)
  else
    let (id, s) := s.takeId
    s.enrol (s.kernelRecord cpu id stackSize name supply contended)

end Scheduler

end Zenus.Sched
