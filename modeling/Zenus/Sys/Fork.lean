import Zenus.Sched.Groups
import Zenus.Sched.Numbers

/-! # Forks

`sys_fork` and `sys_clone`, and which state of the parent a forked child has.
-/

namespace Zenus.Sched

def Task.filter (t : Task) : Option (Fin 4 → Nat) := if t.seccompMode = 1 then some t.seccompAllowed else none

namespace Scheduler

open Lib.Word Fs.CgroupTable

def TASK_STACK : Nat := 65536

/-- `get_task_heap_brk` -/
def taskHeapBrk (s : Scheduler) (id : Nat) : Nat :=
  match s.getTask id with
  | none => DEFAULT_HEAP_BRK
  | some t => if t.heapBrk = 0 then DEFAULT_HEAP_BRK else t.heapBrk

/-- `sys_fork`; the copy of the address space and the saved RIP are given. -/
def sysFork (s : Scheduler) (cpu : Nat) (childCr3 : Option Nat) (userRip : Nat) (supply : Supply) :
    Nat × Scheduler :=
  match childCr3 with
  | none => (WORD - 1, s)
  | some childCr3 =>
    let heapBrk := s.taskHeapBrk (s.currentTaskId cpu)
    let (pid, s) := s.cloneTask cpu 0 TASK_STACK userRip childCr3 (s.userRsp cpu) heapBrk supply
    if pid = 0 then (WORD - 1, s) else (pid, s)

def sysClone (s : Scheduler) (cpu flags stack userRip : Nat) (supply : Supply) : Nat × Scheduler :=
  let userRsp := if stack ≠ 0 then stack else s.userRsp cpu
  if userRip = 0 then (WORD - 1, s)
  else
    let heapBrk := s.taskHeapBrk (s.currentTaskId cpu)
    let (pid, s) := s.cloneTask cpu flags TASK_STACK userRip (s.cr3 cpu) userRsp heapBrk supply
    if pid = 0 then (WORD - 1, s) else (pid, s)

/-- The child has the state of its parent. -/
structure Duplicates (s s' : Scheduler) (parent child : Task) : Prop where
  vma : child.vma.live = parent.vma.live
  mmapBase : child.vma.mmapBase = parent.vma.mmapBase
  heapFloor : child.heapFloor = parent.heapFloor
  heapBrk : child.heapBrk = parent.heapBrk
  signalActions : child.signalActions = parent.signalActions
  signalMask : child.signalMask = parent.signalMask
  cwd : child.cwd = parent.cwd
  credentials : (child.uid, child.gid, child.euid, child.egid) =
    (parent.uid, parent.gid, parent.euid, parent.egid)
  caps : child.caps = parent.caps
  noNewPrivs : child.noNewPrivs = parent.noNewPrivs
  filter : child.filter = parent.filter
  cgroup : child.cgroup = parent.cgroup
  member : s'.cgroups.groupOfTask child.id = s.cgroups.groupOfTask parent.id

/-- The task has not used what a fork does not copy: it has mapped nothing, not moved its
    break, has no handlers, mask, working directory or filter of its own, and is in the
    group that its record names. -/
structure Pristine (s : Scheduler) (t : Task) : Prop where
  vma : t.vma.live = []
  mmapBase : t.vma.mmapBase = Mem.VmaTable.new.mmapBase
  heapBrk : t.heapBrk ≠ 0
  heapFloor : t.heapFloor = t.heapBrk
  signalActions : t.signalActions = fun _ => .new
  signalMask : t.signalMask = 0
  cwd : t.cwd = fixedBuffer 256 (Fs.str "/")
  filter : t.filter = none
  member : s.cgroups.groupOfTask t.id = some t.cgroup

variable {s : Scheduler} {cpu flags stackSize entry cr3 userRsp heapBrk userRip : Nat} {supply : Supply}

/-- A clone that succeeds puts its record into a free slot and joins the group that the
    record of its parent names. -/
theorem cloneTask_spec (single : Single s.cgroups)
    (success : (s.cloneTask cpu flags stackSize entry cr3 userRsp heapBrk supply).1 ≠ 0) :
    ∃ j parent ns, s.tasks (s.current cpu) = some parent ∧ s.tasks j = none ∧
      (s.cloneTask cpu flags stackSize entry cr3 userRsp heapBrk supply).1 = s.nextTaskId ∧
      (s.cloneTask cpu flags stackSize entry cr3 userRsp heapBrk supply).2.tasks = Function.update s.tasks j
          (some (cloneRecord parent s.nextTaskId cpu stackSize cr3 userRsp heapBrk ns supply)) ∧
      (s.cloneTask cpu flags stackSize entry cr3 userRsp heapBrk supply).2.cgroups.groupOfTask
        s.nextTaskId = some parent.cgroup := by
  obtain ⟨-, refused, -⟩ | ⟨task, new, result, after⟩ :=
    @create_cases s _ (.clone cpu flags stackSize entry cr3 userRsp heapBrk supply) rfl rfl
  · exact absurd refused success
  · obtain ⟨parent, ns, here, rfl⟩ := newTask_clone new
    have enrolled : (s.takeId.2.enrol _).1 ≠ 0 := fun zero => success (result.trans zero)
    obtain ⟨number, attached⟩ := attached_of_enrol enrolled
    obtain ⟨zero, -⟩ | ⟨j, free, -, put⟩ := s.takeId.2.tasks_enrol _
    · exact absurd zero enrolled
    · refine ⟨j, parent, ns, here, free, result.trans number, ?_, ?_⟩
      · rw [after]
        exact put
      · rw [after, cgroups_enrol]
        exact groupOfTask_attach single attached

theorem taskHeapBrk_current {parent : Task} (numbered : s.Numbered)
    (here : s.tasks (s.current cpu) = some parent) :
    s.taskHeapBrk (s.currentTaskId cpu) =
      if parent.heapBrk = 0 then DEFAULT_HEAP_BRK else parent.heapBrk := by
  rw [taskHeapBrk, numbered.getTask_current here]

theorem cloneTask_of_sysFork {childCr3 : Option Nat}
    (success : (s.sysFork cpu childCr3 userRip supply).1 ≠ WORD - 1) :
    ∃ c, (s.cloneTask cpu 0 TASK_STACK userRip c (s.userRsp cpu)
        (s.taskHeapBrk (s.currentTaskId cpu)) supply).1 ≠ 0 ∧
      s.sysFork cpu childCr3 userRip supply = s.cloneTask cpu 0 TASK_STACK userRip c (s.userRsp cpu)
          (s.taskHeapBrk (s.currentTaskId cpu)) supply := by
  cases childCr3 with
  | none => exact absurd rfl success
  | some c =>
    dsimp only [sysFork] at success ⊢
    split at success
    · exact absurd rfl success
    · next some_pid => exact ⟨c, some_pid, if_neg some_pid⟩

/-- The child of a fork has the state of its parent exactly if the parent has not used
    what the fork does not copy. -/
theorem fork_duplicates_iff {childCr3 : Option Nat} {userRip : Nat} {parent : Task}
    (numbered : s.Numbered) (single : Single s.cgroups) (here : s.tasks (s.current cpu) = some parent)
    (success : (s.sysFork cpu childCr3 userRip supply).1 ≠ WORD - 1) :
    ∃ j child, s.tasks j = none ∧ (s.sysFork cpu childCr3 userRip supply).2.tasks j = some child ∧
      child.id = (s.sysFork cpu childCr3 userRip supply).1 ∧
      (Duplicates s (s.sysFork cpu childCr3 userRip supply).2 parent child ↔ Pristine s parent) := by
  obtain ⟨c, cloned, same⟩ := cloneTask_of_sysFork success
  rw [same]
  obtain ⟨j, parent', ns, here', free, number, tasks, group⟩ := cloneTask_spec single cloned
  cases here.symm.trans here'
  refine ⟨j, _, free, by rw [tasks, Function.update_self], number.symm, ?_⟩
  rw [taskHeapBrk_current numbered here] at group ⊢
  constructor
  · intro dup
    have brk : (if parent.heapBrk = 0 then DEFAULT_HEAP_BRK else parent.heapBrk) = parent.heapBrk :=
      dup.heapBrk
    have floor : (if parent.heapBrk = 0 then DEFAULT_HEAP_BRK else parent.heapBrk) = parent.heapFloor :=
      dup.heapFloor
    have moved : parent.heapBrk ≠ 0 := by
      intro zero
      rw [if_pos zero, zero] at brk
      cases brk
    exact {
      vma := dup.vma.symm
      mmapBase := dup.mmapBase.symm
      heapBrk := moved
      heapFloor := floor.symm.trans brk
      signalActions := dup.signalActions.symm
      signalMask := dup.signalMask.symm
      cwd := dup.cwd.symm
      filter := dup.filter.symm
      member := dup.member.symm.trans group }
  · intro pristine
    have brk : (if parent.heapBrk = 0 then DEFAULT_HEAP_BRK else parent.heapBrk) = parent.heapBrk :=
      if_neg pristine.heapBrk
    exact {
      vma := pristine.vma.symm
      mmapBase := pristine.mmapBase.symm
      heapFloor := brk.trans pristine.heapFloor.symm
      heapBrk := brk
      signalActions := pristine.signalActions.symm
      signalMask := pristine.signalMask.symm
      cwd := pristine.cwd.symm
      credentials := rfl
      caps := rfl
      noNewPrivs := rfl
      filter := pristine.filter.symm
      cgroup := rfl
      member := group.trans pristine.member.symm }

/-- The idle task and one that runs, with number 1 and in the root. -/
def alone (parent : Task) : Scheduler :=
  { ofTasks [.new 0 0 [], parent] 1 with cgroups := (Fs.CgroupTable.empty.attach 0 1).2 }

def forkSupply : Supply := { stack := 0x100000, view := none }

def plain : Task :=
  { Task.new 1 0 [] with state := .running, heapBrk := DEFAULT_HEAP_BRK, heapFloor := DEFAULT_HEAP_BRK }

theorem fork_duplicates_iff_plain :
    let forked := (alone plain).sysFork 0 (some 0x5000) 0x400000 forkSupply
    forked.1 = 2 ∧ ∃ j child, forked.2.tasks j = some child ∧ child.id = forked.1 ∧
      Duplicates (alone plain) forked.2 plain child := by
  have numbered : (alone plain).Numbered :=
    have tasks := @numbered_ofTasks [.new 0 0 [], plain] rfl 1
    ⟨tasks.apart, tasks.below⟩
  have single : Single (alone plain).cgroups := by
    unfold Single
    decide +kernel
  have result : ((alone plain).sysFork 0 (some 0x5000) 0x400000 forkSupply).1 = 2 := by decide +kernel
  have success : ((alone plain).sysFork 0 (some 0x5000) 0x400000 forkSupply).1 ≠ WORD - 1 := by
    decide
  obtain ⟨j, child, -, put, number, iff⟩ := fork_duplicates_iff numbered single rfl success
  refine ⟨result, j, child, put, number, iff.mpr ?_⟩
  exact ⟨rfl, rfl, by decide, rfl, rfl, rfl, rfl, rfl, by decide +kernel⟩

/-- The child of a task with a filter and a signal mask has neither. -/
theorem fork_drops_filter :
    let parent := { plain with seccompMode := 1, signalMask := 2 }
    let forked := (alone parent).sysFork 0 (some 0x5000) 0x400000 forkSupply
    (forked.1, (forked.2.tasks 2).map fun child => (child.id, child.seccompMode, child.signalMask)) =
        (2, some (2, 0, 0)) ∧
      ∀ child, forked.2.tasks 2 = some child → ¬ Duplicates (alone parent) forked.2 parent child := by
  intro parent forked
  have fields : (forked.1, (forked.2.tasks 2).map fun child => (child.id, child.seccompMode, child.signalMask)) =
      (2, some (2, 0, 0)) := by decide +kernel
  refine ⟨fields, fun child put dup => ?_⟩
  have mask : child.signalMask = 0 := by simp_all
  cases mask.symm.trans dup.signalMask

end Scheduler

end Zenus.Sched
