import Zenus.Sched.Create

/-! # Runs of the scheduler

An event is what happens to the task table while its lock is held once.  System calls
are the events they cause, in order; others may come between them, so a run is any
list of events.  For each event, what it does to the slots of the table is said once.
-/

namespace Zenus.Sched

open Lib.Word

inductive Event where
  | yieldNow (cpu savedRsp : Nat)
  | tick (cpu currentRsp : Nat) (locked : Bool)
  | setState (id : Nat) (state : TaskState)
  | deliver (id sig : Nat)
  | clear (id sig : Nat)
  | forceKill (id : Nat)
  | exit (cpu code : Nat)
  | kill (cpu id : Nat)
  | reap (id : Nat)
  | wait (parentPid childPid : Nat)
  | futexWait (cpu addr val userVal : Nat)
  | futexWake (addr count : Nat)
  | clone (cpu flags stackSize entry cr3 userRsp heapBrk : Nat) (supply : Supply)
  | createUser (cpu entry stackSize userRsp cr3 heapBase : Nat) (supply : Supply)
      (parentContended groupContended : Bool)
  | createNamed (cpu stackSize : Nat) (name : List UInt8) (supply : Supply) (contended : Bool)
  | writeGroup (inode : Nat) (buf : List UInt8)
  | makeGroup (name : Fs.Str)
  | removeGroup (id : Nat)

namespace Scheduler

/-- A run ends where the counter of the group numbers overflows. -/
def step (s : Scheduler) : Event → Option Scheduler
  | .yieldNow cpu savedRsp => some (s.yieldNow cpu savedRsp)
  | .tick cpu currentRsp locked => some (s.scheduleTick cpu currentRsp locked)
  | .setState id state => some (s.taskSetState id state)
  | .deliver id sig => some (s.signalDeliver id sig)
  | .clear id sig => some (s.signalClear id sig)
  | .forceKill id => some (s.signalForceKill id)
  | .exit cpu code => some (s.exitCurrent cpu code)
  | .kill cpu id => some (s.killTask cpu id).2
  | .reap id => some (s.reapTask id)
  | .wait parentPid childPid => some (s.waitForChild parentPid childPid).2
  | .futexWait cpu addr val userVal => some (s.futexWait cpu addr val userVal).2
  | .futexWake addr count => some (s.futexWake addr count).2
  | .clone cpu flags stackSize entry cr3 userRsp heapBrk supply =>
    some (s.cloneTask cpu flags stackSize entry cr3 userRsp heapBrk supply).2
  | .createUser cpu entry stackSize userRsp cr3 heapBase supply parentContended groupContended =>
    some (s.createUserTask cpu entry stackSize userRsp cr3 heapBase supply parentContended
      groupContended).2
  | .createNamed cpu stackSize name supply contended =>
    some (s.createTaskNamed cpu stackSize name supply contended).2
  | .writeGroup inode buf => some { s with cgroups := (Fs.cgroupWrite s.cgroups inode buf).2 }
  | .makeGroup name => (s.cgroups.create name).map fun made => { s with cgroups := made.2 }
  | .removeGroup id => some { s with cgroups := (s.cgroups.remove id).2 }

/-- A table with the given tasks, where every processor runs the one in slot `current`. -/
def ofTasks (tasks : List Task) (current : Slot) : Scheduler where
  tasks i := tasks[i.val]?
  nextFree := tasks.length
  current _ := current
  taskCount := tasks.length
  nextTaskId := tasks.length
  zombies := .new
  childExitNotify := 0
  cgroups := .empty
  futexes _ := ⟨0, []⟩
  userRsp _ := 0
  cr3 _ := 0

/-- The idle task and two others, of which the first runs. -/
def pair : Scheduler :=
  ofTasks [.new 0 0 [], { Task.new 1 0 [] with state := .running }, .new 2 0 []] 1

/-! ## System calls -/

def deliverSignalTo (id sig : Nat) : List Event :=
  if sig = SIGKILL then [.deliver id sig, .forceKill id]
  else if sig = SIGCONT then
    [.clear id SIGSTOP, .clear id sig, .deliver id sig, .setState id .ready]
  else [.deliver id sig]

/-- `sys_kill`: the result and the events. -/
def sysKill (s : Scheduler) (cpu pid sig : Nat) : Nat × List Event :=
  if sig = 0 ∨ 64 ≤ sig then (WORD - 22, [])
  else
    let uid := ((s.tasks (s.current cpu)).map Task.uid).getD 0
    let caps := ((s.getTask (s.currentTaskId cpu)).map Task.caps).getD .none
    if pid = 0 then (0, deliverSignalTo (s.currentTaskId cpu) sig)
    else if pid = WORD - 1 then
      let targets := (List.finRange MAX_TASKS).filterMap fun i =>
        (s.tasks i).filter fun t => mayKill uid caps t.uid
      (if targets = [] then WORD - 3 else 0, targets.flatMap fun t => deliverSignalTo t.id sig)
    else
      match s.getTask pid with
      | none => (WORD - 3, [])
      | some t => if mayKill uid caps t.uid then (0, deliverSignalTo t.id sig) else (WORD - 1, [])

/-- `sys_futex` with `FUTEX_WAIT`, which reports only whether the caller was queued. -/
def sysFutexWait (s : Scheduler) (cpu addr val userVal savedRsp : Nat) : List Event :=
  if (s.futexWait cpu addr val userVal).1 then
    [.futexWait cpu addr val userVal, .yieldNow cpu savedRsp]
  else [.futexWait cpu addr val userVal]

end Scheduler

end Zenus.Sched
