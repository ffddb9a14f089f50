import Zenus.Fs.Cgroup
import Zenus.Sched.Task
import Mathlib.Data.List.FinRange

/-! # The scheduler

The task table, the tasks that run on the processors, the records of the exits that
were not reported yet and the queues of the futexes.  Each function is what happens
while the lock of the table is held; what the context switch does to the registers is
reduced to the values that the task records keep.
-/

namespace Zenus.Sched

open Lib.Word Lib.Slots Function

def MAX_TASKS : Nat := 128
def MAX_ZOMBIES : Nat := 64
def MAX_CPUS : Nat := 8
def BSP_CPU_ID : Nat := 0
def TIME_SLICE : Nat := 5

abbrev Slot := Fin MAX_TASKS

instance : NeZero MAX_TASKS := ⟨by decide⟩

/-! ## Exits that were not reported -/

structure ZombieRecord where
  childPid : Nat
  parentPid : Nat
  exitCode : Nat
  deriving DecidableEq, Repr

structure ZombieList where
  records : List ZombieRecord
  fits : records.length ≤ MAX_ZOMBIES

namespace ZombieList

def new : ZombieList := ⟨[], Nat.zero_le _⟩

def push (z : ZombieList) (rec : ZombieRecord) : Bool × ZombieList :=
  if room : z.records.length < MAX_ZOMBIES then
    (true, ⟨z.records ++ [rec], by rw [List.length_append]; exact room⟩)
  else (false, z)

/-- What the two searches share: the first record is taken out, and the last one moves
    to its place. -/
def findBy (z : ZombieList) (test : ZombieRecord → Bool) : Option ZombieRecord × ZombieList :=
  match z.records.findIdx? test with
  | none => (none, z)
  | some i =>
    (z.records[i]?, ⟨swapRemove z.records i, by
      rw [length_swapRemove]
      exact (Nat.sub_le ..).trans z.fits⟩)

def findByChild (z : ZombieList) (childPid : Nat) : Option ZombieRecord × ZombieList :=
  z.findBy (·.childPid == childPid)

def findAnyChild (z : ZombieList) (parentPid : Nat) : Option ZombieRecord × ZombieList :=
  z.findBy (·.parentPid == parentPid)

end ZombieList

/-! ## Futexes -/

/-- A bucket tracks the waiters of one address. -/
structure FutexBucket where
  addr : Nat
  waiters : List Nat

def MAX_WAITERS : Nat := 8

def futexHash (addr : Nat) : Nat := (addr >>> 3) % 64

/-- The loop of `wake` over the waiters: the tasks it wakes and those it leaves.  At
    least one is woken, whatever `count` is. -/
def wakeLoop (count : Nat) : (woken : Nat) → List Nat → List Nat × List Nat
  | _, [] => ([], [])
  | woken, id :: rest =>
    if id = 0 then
      let (now, later) := wakeLoop count woken rest
      (now, id :: later)
    else if count ≤ woken + 1 then ([id], rest)
    else
      let (now, later) := wakeLoop count (woken + 1) rest
      (id :: now, later)

/-! ## The state -/

structure Scheduler where
  tasks : Slot → Option Task
  nextFree : Nat
  /-- The slot of the task that runs on each processor. -/
  current : Nat → Slot
  taskCount : Nat
  nextTaskId : Nat
  zombies : ZombieList
  /-- The last exit, as the notification word has it. -/
  childExitNotify : Nat
  cgroups : Fs.CgroupTable
  futexes : Nat → FutexBucket
  /-- The user stack pointer that each processor keeps. -/
  userRsp : Nat → Nat
  /-- The CR3 register of each processor. -/
  cr3 : Nat → Nat

def firstSlot (test : Slot → Bool) : Option Slot := (List.finRange MAX_TASKS).find? test

/-- The task that a processor should run next; `current` if there is no other. -/
def findNextReady (tasks : Slot → Option Task) (current : Slot) (cpu : Nat) : Slot :=
  let here := fun i => (tasks i).any fun t => t.isActive && t.cpu == cpu
  let anywhere := fun i => (tasks i).any Task.isActive
  ((firstSlot fun i => decide (current < i) && here i) <|>
    (firstSlot fun i => decide (1 ≤ i.val ∧ i < current) && here i) <|>
    (firstSlot fun i => decide (1 ≤ i.val ∧ i ≠ current) && anywhere i) <|>
    (if here 0 then some 0 else none)).getD current

/-- Is the saved stack pointer of a task inside its stack? -/
def stackHolds (t : Task) : Bool :=
  if t.stackAlloc ≠ 0 ∧ 0 < t.stackSize then
    decide (t.stackAlloc + 256 ≤ t.rsp ∧ t.rsp < t.stackAlloc + t.stackSize)
  else true

def signalled (sig : Nat) (t : Task) : Task :=
  let t := t.deliverSignal sig
  if t.state = .sleeping ∨ t.state = .waiting then { t with state := .ready } else t

namespace Scheduler

variable (s : Scheduler)

def setSlot (i : Slot) (task : Option Task) : Scheduler :=
  { s with tasks := update s.tasks i task }

/-- The first slot whose task has the given number. -/
def slotOf (id : Nat) : Option Slot := firstSlot fun i => (s.tasks i).any (·.id == id)

/-- A loop over the table that changes the first task with the given number. -/
def changeTask (id : Nat) (change : Task → Task) : Scheduler :=
  match s.slotOf id with
  | none => s
  | some i => s.setSlot i ((s.tasks i).map change)

def getTask (id : Nat) : Option Task := (s.slotOf id).bind s.tasks

/-- `current_task_id`; a processor without a task reports 0. -/
def currentTaskId (cpu : Nat) : Nat := ((s.tasks (s.current cpu)).map Task.id).getD 0

/-! ### Switches -/

/-- `migrate_task_to_cpu` -/
def migrate (i : Slot) (cpu : Nat) : Scheduler :=
  s.setSlot i ((s.tasks i).map fun t => { t with cpu := cpu })

/-- Leave `current` for `next`; both slots hold a task. -/
def switchTo (cpu : Nat) (current next : Slot) (cur nxt : Task) (savedRsp : Nat) : Scheduler :=
  let cur :=
    { cur with
      -- Only a terminated task keeps its state.
      state := if cur.state = .terminated then .terminated else .ready
      cr3 := s.cr3 cpu
      userRsp := s.userRsp cpu
      rsp := savedRsp }
  let nxt' := { nxt with state := .running, ticksLeft := TIME_SLICE }
  { s with
    tasks := update (update s.tasks current (some cur)) next (some nxt')
    current := update s.current cpu next
    userRsp := update s.userRsp cpu nxt.userRsp
    cr3 := if nxt.cr3 ≠ 0 then update s.cr3 cpu nxt.cr3 else s.cr3 }

/-- What `yield_now` and `schedule_tick` share once a processor is known to schedule:
    find the next task, claim it for the processor, check its stack and switch. -/
def reschedule (cpu savedRsp : Nat) (checked : Slot → Bool) : Scheduler :=
  let current := s.current cpu
  match s.tasks current with
  | none => s
  | some cur =>
    let next := findNextReady s.tasks current cpu
    if next = current then s
    else
      let s := s.migrate next cpu
      match s.tasks next with
      | none => s
      | some nxt =>
        if checked next && !stackHolds nxt then s else s.switchTo cpu current next cur nxt savedRsp

/-- `yield_now` up to the switch; `savedRsp` is what the switch saves. -/
def yieldNow (cpu savedRsp : Nat) : Scheduler :=
  if MAX_CPUS ≤ cpu then s
  else if s.taskCount ≤ 1 then s
  else s.reschedule cpu savedRsp fun _ => true

/-- `schedule_tick`; `locked` says that somebody holds the table.  The stack of the idle
    task is not checked. -/
def scheduleTick (cpu currentRsp : Nat) (locked : Bool) : Scheduler :=
  if MAX_CPUS ≤ cpu then s
  else if cpu ≠ BSP_CPU_ID then s
  else if s.taskCount ≤ 1 then s
  else if locked then s
  else s.reschedule cpu currentRsp fun next => next != 0

/-! ### States and signals -/

def taskSetState (id : Nat) (state : TaskState) : Scheduler := s.changeTask id ({ · with state := state })

def signalDeliver (id sig : Nat) : Scheduler := s.changeTask id (signalled sig)

def signalForceKill (id : Nat) : Scheduler :=
  s.changeTask id ({ · with state := .terminated, exitCode := 9 <<< 8 })

def signalClear (id sig : Nat) : Scheduler := s.changeTask id (·.clearSignal sig)

/-! ### Ends -/

/-- Free a slot: `mark_freed`, the counter and the membership. -/
def free (i : Slot) (id : Nat) : Scheduler :=
  { s with
    tasks := update s.tasks i none
    nextFree := min i.val s.nextFree
    taskCount := s.taskCount - 1
    cgroups := (s.cgroups.detach id).2 }

/-- The part of `exit_current_task` before the parent gets its signal. -/
def exitCurrent (cpu code : Nat) : Scheduler :=
  match s.tasks (s.current cpu) with
  | none => s
  | some t =>
    { s with
      tasks := update s.tasks (s.current cpu)
        (some { t with state := .terminated, exitCode := code })
      cgroups := (s.cgroups.detach t.id).2
      childExitNotify := 1 <<< 63 ||| (code &&& 0xFFFF) <<< 32 ||| (t.id &&& 0xFFFFFFFF)
      zombies := (s.zombies.push ⟨t.id, t.parentPid, code⟩).2 }

/-- `kill_task`: a task that is ready or runs elsewhere is dropped at once. -/
def killTask (cpu id : Nat) : Bool × Scheduler :=
  if id = 0 then (false, s)
  else if (s.tasks (s.current cpu)).any (·.id == id) then (false, s)
  else
    match firstSlot fun i => (s.tasks i).any fun t => t.id == id && t.isActive with
    | none => (false, s)
    | some i => (true, s.free i id)

def reapTask (id : Nat) : Scheduler :=
  match firstSlot fun i => (s.tasks i).any fun t => t.id == id && t.state == .terminated with
  | none => s
  | some i => s.free i id

/-- `wait_for_child`: the child and its exit code.  The options make no difference. -/
def waitForChild (parentPid childPid : Nat) : Option (Nat × Nat) × Scheduler :=
  let (found, zombies) :=
    if childPid = WORD - 1 ∨ childPid = 0 then s.zombies.findAnyChild parentPid
    else s.zombies.findByChild childPid
  (found.map fun rec => (rec.childPid, rec.exitCode), { s with zombies := zombies })

/-! ### Futexes -/

/-- `FutexTable::wait` and the new state of the caller; `userVal` is what is at `addr`. -/
def futexWait (cpu addr val userVal : Nat) : Bool × Scheduler :=
  let bucket := s.futexes (futexHash addr)
  if userVal ≠ val then (false, s)
  else if bucket.waiters ≠ [] ∧ bucket.addr ≠ addr then (false, s)
  else if bucket.waiters.length < MAX_WAITERS then
    let id := s.currentTaskId cpu
    let s :=
      { s with futexes := update s.futexes (futexHash addr) ⟨addr, bucket.waiters ++ [id]⟩ }
    (true, s.taskSetState id .sleeping)
  else (false, s)

/-- `FutexTable::wake` -/
def futexWake (addr count : Nat) : Nat × Scheduler :=
  let bucket := s.futexes (futexHash addr)
  if bucket.addr ≠ addr then (0, s)
  else
    let (now, later) := wakeLoop count 0 bucket.waiters
    let s := now.foldl (fun s id => s.taskSetState id .ready) s
    (now.length, { s with futexes := update s.futexes (futexHash addr) ⟨addr, later⟩ })

end Scheduler

end Zenus.Sched
