import Zenus.Sched.NextReady

/-! # What an event does to a slot

`nextState` says which state the task of a slot is in after an event, and `switchOf`
which processor leaves which task for which.  Every law about the states of the tasks
follows from these two and the step lemmas here.
-/

namespace Zenus.Sched

open Option hiding or_self or_assoc
open Function (update update_of_ne update_self)

def Event.creates : Event → Bool
  | .clone .. | .createUser .. | .createNamed .. => true
  | _ => false

def Event.quiet : Event → Bool
  | .yieldNow .. | .tick .. | .setState .. | .deliver .. | .clear .. | .forceKill .. | .futexWait ..
  | .futexWake .. => true
  | _ => false

def Event.ofGroups : Event → Bool
  | .writeGroup .. | .makeGroup .. | .removeGroup .. => true
  | _ => false

def Event.switches : Event → Bool
  | .yieldNow .. | .tick .. => true
  | _ => false

/-- A processor leaves the task of one slot for that of another. -/
structure Switch where
  cpu : Nat
  current : Slot
  next : Slot

/-- What no event changes in the record of a task. -/
structure Task.Kept (t t' : Task) : Prop where
  id : t'.id = t.id
  parentPid : t'.parentPid = t.parentPid
  cgroup : t'.cgroup = t.cgroup
  noNewPrivs : t'.noNewPrivs = t.noNewPrivs
  seccompMode : t'.seccompMode = t.seccompMode
  seccompAllowed : t'.seccompAllowed = t.seccompAllowed
  caps : t'.caps = t.caps

/-- The slot of a task holds the same task in the given state, or nothing. -/
def Task.Turns (t : Task) : Option TaskState → Option Task → Prop
  | none, after => after = none
  | some state, after => ∃ t', after = some t' ∧ t'.state = state ∧ t.Kept t'

theorem Task.Kept.refl (t : Task) : t.Kept t := ⟨rfl, rfl, rfl, rfl, rfl, rfl, rfl⟩

theorem Task.Kept.trans {t t' t'' : Task} (first : t.Kept t') (second : t'.Kept t'') : t.Kept t'' where
  id := second.id.trans first.id
  parentPid := second.parentPid.trans first.parentPid
  cgroup := second.cgroup.trans first.cgroup
  noNewPrivs := second.noNewPrivs.trans first.noNewPrivs
  seccompMode := second.seccompMode.trans first.seccompMode
  seccompAllowed := second.seccompAllowed.trans first.seccompAllowed
  caps := second.caps.trans first.caps

/-- What becomes of a slot: the task in it turns to a state, and a free slot stays free. -/
structure Task.Turned (t : Task) (before : Option Task) (next : Option TaskState) (after : Option Task) :
    Prop where
  taken : before = some t → t.Turns next after
  free : before = none → after = none

namespace Task.Turned

variable {t old new : Task} {before : Option Task}

theorem same : t.Turned before (some t.state) before := ⟨fun here => ⟨t, here, rfl, .refl t⟩, fun empty => empty⟩

theorem map {change : Task → Task} (keeps : ∀ t : Task, t.Kept (change t)) :
    t.Turned before (some (change t).state) (before.map change) where
  taken := by
    rintro rfl
    exact ⟨change t, rfl, rfl, keeps t⟩
  free := by
    rintro rfl
    rfl

theorem put {state : TaskState} (here : before = some old) (kept : old.Kept new)
    (turns : old = t → new.state = state) : t.Turned before (some state) (some new) where
  taken here' := by
    cases here.symm.trans here'
    exact ⟨new, rfl, turns rfl, kept⟩
  free empty := nomatch here.symm.trans empty

end Task.Turned

namespace Scheduler

variable {s s' : Scheduler} {e : Event} {id other cpu flags stackSize entry cr3 userRsp heapBrk : Nat}
  {i : Slot} {t t' : Task} {change : Task → Task}

/-- The switch that a processor makes when it schedules. -/
def switchOn (s : Scheduler) (cpu : Nat) (checked : Slot → Bool) : Option Switch :=
  let next := findNextReady s.tasks (s.current cpu) cpu
  if (s.tasks (s.current cpu)).isNone ∨ next = s.current cpu then none
  else if (s.tasks next).any fun nxt => !checked next || stackHolds nxt then
    some ⟨cpu, s.current cpu, next⟩
  else none

def switchOf (s : Scheduler) : Event → Option Switch
  | .yieldNow cpu _ =>
    if MAX_CPUS ≤ cpu ∨ s.taskCount ≤ 1 then none else s.switchOn cpu fun _ => true
  | .tick cpu _ locked =>
    if cpu ≠ BSP_CPU_ID ∨ s.taskCount ≤ 1 ∨ locked = true then none
    else s.switchOn cpu fun next => next != 0
  | _ => none

/-- The tasks that the processors run after a switch. -/
def turnTo (current : Nat → Slot) : Option Switch → Nat → Slot
  | none => current
  | some switch => update current switch.cpu switch.next

/-- The number that a creation returns; 0 if there is no new task. -/
def created (s : Scheduler) : Event → Nat
  | .clone cpu flags stackSize entry cr3 userRsp heapBrk supply =>
    (s.cloneTask cpu flags stackSize entry cr3 userRsp heapBrk supply).1
  | .createUser cpu entry stackSize userRsp cr3 heapBase supply parentContended groupContended =>
    (s.createUserTask cpu entry stackSize userRsp cr3 heapBase supply parentContended groupContended).1
  | .createNamed cpu stackSize name supply contended =>
    (s.createTaskNamed cpu stackSize name supply contended).1
  | _ => 0

/-- The record of the task that an event asks to enrol. -/
def newTask (s : Scheduler) : Event → Option Task
  | .clone cpu flags stackSize entry cr3 userRsp heapBrk supply =>
    if stackSizeIsValid stackSize && entryIsValid entry && supply.stack != 0 then do
      let parent ← s.tasks (s.current cpu)
      let ns ← childNamespaces flags parent supply
      return cloneRecord parent s.nextTaskId cpu stackSize cr3 userRsp heapBrk ns supply
    else none
  | .createUser cpu entry stackSize userRsp cr3 heapBase supply parentContended groupContended =>
    if stackSizeIsValid stackSize && entryIsValid entry && supply.stack != 0 then
      some (s.userRecord cpu s.nextTaskId stackSize userRsp cr3 heapBase supply parentContended
        groupContended)
    else none
  | .createNamed cpu stackSize name supply contended =>
    if stackSizeIsValid stackSize && supply.stack != 0 then
      some (s.kernelRecord cpu s.nextTaskId stackSize name supply contended)
    else none
  | _ => none

/-- The state that a switch leaves the task of a slot in. -/
def afterSwitch (switch : Option Switch) (i : Slot) (state : TaskState) : TaskState :=
  match switch with
  | none => state
  | some switch =>
    if switch.current = i then (if state = .terminated then .terminated else .ready)
    else if switch.next = i then .running
    else state

def wokenBy (s : Scheduler) (addr count : Nat) : List Nat :=
  if (s.futexes (futexHash addr)).addr ≠ addr then []
  else (wakeLoop count 0 (s.futexes (futexHash addr)).waiters).1

def freedBy (s : Scheduler) : Event → Option Slot
  | .kill cpu id =>
    if id = 0 ∨ (s.tasks (s.current cpu)).any (·.id == id) then none
    else firstSlot fun i => (s.tasks i).any fun t => t.id == id && t.isActive
  | .reap id => firstSlot fun i => (s.tasks i).any fun t => t.id == id && t.state == .terminated
  | _ => none

/-- The state of a task in slot `i` after an event that does not free the slot. -/
def stateAfter (s : Scheduler) (e : Event) (i : Slot) (state : TaskState) : TaskState :=
  match e with
  | .yieldNow .. | .tick .. => afterSwitch (s.switchOf e) i state
  | .setState id new => if s.slotOf id = some i then new else state
  | .deliver id _ =>
    if s.slotOf id = some i ∧ (state = .sleeping ∨ state = .waiting) then .ready else state
  | .forceKill id => if s.slotOf id = some i then .terminated else state
  | .exit cpu _ => if s.current cpu = i then .terminated else state
  | .futexWait cpu addr val userVal =>
    if (s.futexWait cpu addr val userVal).1 ∧ s.slotOf (s.currentTaskId cpu) = some i then .sleeping
    else state
  | .futexWake addr count =>
    if ∃ id ∈ s.wokenBy addr count, s.slotOf id = some i then .ready else state
  | _ => state

/-- The state of the task in slot `i` after an event; `none` if the slot is freed. -/
def nextState (s : Scheduler) (e : Event) (i : Slot) (t : Task) : Option TaskState :=
  if s.freedBy e = some i then none else some (s.stateAfter e i t.state)

/-! ### Single updates -/

theorem task_of_slotOf (found : s.slotOf id = some i) : ∃ t, s.tasks i = some t ∧ t.id = id := by
  obtain ⟨t, at_i, same⟩ := (any_eq_true ..).mp (test_of_firstSlot found)
  exact ⟨t, at_i, eq_of_beq same⟩

theorem tasks_changeTask (s : Scheduler) (id : Nat) (change : Task → Task) (i : Slot) :
    (s.changeTask id change).tasks i =
      if s.slotOf id = some i then (s.tasks i).map change else s.tasks i := by
  unfold changeTask
  cases found : s.slotOf id with
  | none => rfl
  | some j =>
    rcases eq_or_ne j i with rfl | other
    · rw [if_pos rfl]
      exact update_self ..
    · rw [if_neg fun same => other (some.inj same)]
      exact update_of_ne other.symm ..

section

variable (keeps : ∀ t, (change t).id = t.id)

include keeps

theorem slotOf_changeTask (other : Nat) : (s.changeTask id change).slotOf other = s.slotOf other := by
  refine congrArg firstSlot (funext fun i => ?_)
  rw [tasks_changeTask]
  split
  · cases s.tasks i with
    | none => rfl
    | some t => simp only [map_some, any_some, keeps]
  · rfl

theorem getTask_changeTask : (s.changeTask id change).getTask id = (s.getTask id).map change := by
  rw [getTask, getTask, slotOf_changeTask keeps]
  cases slot : s.slotOf id with
  | none => rfl
  | some i => rw [bind_some, bind_some, tasks_changeTask, if_pos slot]

theorem getTask_changeTask_other (different : other ≠ id) :
    (s.changeTask id change).getTask other = s.getTask other := by
  rw [getTask, getTask, slotOf_changeTask keeps]
  cases slot : s.slotOf other with
  | none => rfl
  | some i =>
    rw [bind_some, bind_some, tasks_changeTask, if_neg fun same => different ?_]
    obtain ⟨t, here, rfl⟩ := task_of_slotOf slot
    obtain ⟨t', here', rfl⟩ := task_of_slotOf same
    rw [some.inj (here.symm.trans here')]

end

theorem turned_changeTask (id : Nat) (change : Task → Task) (keeps : ∀ t : Task, t.Kept (change t)) :
    t.Turned (s.tasks i) (some (if s.slotOf id = some i then (change t).state else t.state))
      ((s.changeTask id change).tasks i) := by
  rw [tasks_changeTask]
  split
  · exact .map keeps
  · exact .same

theorem turned_taskSetState (id : Nat) (state : TaskState) :
    t.Turned (s.tasks i) (some (if s.slotOf id = some i then state else t.state))
      ((s.taskSetState id state).tasks i) :=
  turned_changeTask id ({ · with state := state }) fun _ => ⟨rfl, rfl, rfl, rfl, rfl, rfl, rfl⟩

theorem slotOf_taskSetState (id : Nat) (state : TaskState) (other : Nat) :
    (s.taskSetState id state).slotOf other = s.slotOf other :=
  @slotOf_changeTask s id ({ · with state := state }) (fun _ => rfl) other

theorem turned_wake (ids : List Nat) :
    t.Turned (s.tasks i) (some (if ∃ id ∈ ids, s.slotOf id = some i then .ready else t.state))
      ((ids.foldl (fun s id => s.taskSetState id .ready) s).tasks i) := by
  induction ids generalizing s t with
  | nil =>
    exact .same
  | cons id rest ih =>
    refine ⟨fun here => ?_, fun empty => (ih (t := t)).free ((turned_taskSetState (t := t) id _).free empty)⟩
    obtain ⟨t₁, at₁, state₁, kept₁⟩ := (turned_taskSetState id .ready).taken here
    obtain ⟨t₂, at₂, state₂, kept₂⟩ := ih.taken at₁
    refine ⟨t₂, at₂, ?_, kept₁.trans kept₂⟩
    rw [state₂, state₁]
    simp only [slotOf_taskSetState, List.exists_mem_cons_iff]
    by_cases first : s.slotOf id = some i <;> simp [first]

/-! ### Switches -/

theorem stackHolds_cpu (t : Task) (cpu : Nat) : stackHolds { t with cpu := cpu } = stackHolds t := rfl

theorem tasks_migrate (s : Scheduler) (j : Slot) (cpu : Nat) (i : Slot) :
    (s.migrate j cpu).tasks i =
      if j = i then (s.tasks i).map fun t => { t with cpu := cpu } else s.tasks i := by
  rcases eq_or_ne j i with rfl | other
  · rw [if_pos rfl]
    exact update_self ..
  · rw [if_neg other]
    exact update_of_ne other.symm ..

theorem turned_migrate (j : Slot) (cpu : Nat) :
    t.Turned (s.tasks i) (some t.state) ((s.migrate j cpu).tasks i) := by
  rw [tasks_migrate]
  split
  · exact @Task.Turned.map _ _ ({ · with cpu := cpu }) fun _ => ⟨rfl, rfl, rfl, rfl, rfl, rfl, rfl⟩
  · exact .same

/-- `reschedule` makes the switch of `switchOn`, or changes at most the processor that a
    task belongs to. -/
theorem reschedule_cases (s : Scheduler) (cpu savedRsp : Nat) (checked : Slot → Bool) :
    (s.switchOn cpu checked = none ∧
      (s.reschedule cpu savedRsp checked = s ∨ ∃ j, s.reschedule cpu savedRsp checked = s.migrate j cpu)) ∨
    ∃ cur nxt, ∃ next ≠ s.current cpu, s.switchOn cpu checked = some ⟨cpu, s.current cpu, next⟩ ∧
      s.tasks (s.current cpu) = some cur ∧ s.tasks next = some nxt ∧ nxt.isActive = true ∧
      s.reschedule cpu savedRsp checked =
        (s.migrate next cpu).switchTo cpu (s.current cpu) next cur { nxt with cpu := cpu } savedRsp := by
  dsimp only [switchOn, reschedule]
  cases at_cur : s.tasks (s.current cpu) with
  | none => exact .inl ⟨by simp, .inl rfl⟩
  | some cur =>
    by_cases alone : findNextReady s.tasks (s.current cpu) cpu = s.current cpu
    · exact .inl ⟨by simp [alone], .inl (by simp [alone])⟩
    · obtain ⟨nxt, at_next, active⟩ := (findNextReady_active s.tasks (s.current cpu) cpu).resolve_left alone
      generalize findNextReady s.tasks (s.current cpu) cpu = next at *
      have moved : (s.migrate next cpu).tasks next = some { nxt with cpu := cpu } := by
        rw [tasks_migrate, if_pos rfl, at_next]
        rfl
      simp only [isNone_some, Bool.false_eq_true, alone, or_self, if_false, at_next,
        any_some, moved, stackHolds_cpu]
      by_cases holds : (!checked next || stackHolds nxt) = true
      · refine .inr ⟨cur, nxt, next, alone, if_pos holds, rfl, at_next, active, if_neg ?_⟩
        revert holds
        cases checked next <;> simp
      · refine .inl ⟨if_neg holds, .inr ⟨next, if_pos ?_⟩⟩
        simpa using holds

theorem turned_reschedule (cpu savedRsp : Nat) (checked : Slot → Bool) :
    t.Turned (s.tasks i) (some (afterSwitch (s.switchOn cpu checked) i t.state))
      ((s.reschedule cpu savedRsp checked).tasks i) := by
  obtain ⟨none_made, same | ⟨j, moved⟩⟩ | ⟨cur, nxt, next, apart, made, at_cur, at_next, -, switched⟩ :=
    s.reschedule_cases cpu savedRsp checked
  · rw [none_made, same]
    exact .same
  · rw [none_made, moved]
    exact turned_migrate j cpu
  · rw [made, switched]
    dsimp only [switchTo, afterSwitch]
    rcases eq_or_ne next i with rfl | other
    · rw [update_self, if_neg apart.symm, if_pos rfl]
      exact .put at_next ⟨rfl, rfl, rfl, rfl, rfl, rfl, rfl⟩ fun _ => rfl
    · rw [update_of_ne other.symm, if_neg other]
      rcases eq_or_ne (s.current cpu) i with rfl | third
      · rw [update_self, if_pos rfl]
        exact .put at_cur ⟨rfl, rfl, rfl, rfl, rfl, rfl, rfl⟩ fun same => by rw [same]
      · rw [update_of_ne third.symm, if_neg third, tasks_migrate, if_neg other]
        exact .same

theorem switches_cases (made : s.step e = some s') (switches : e.switches) :
    (s.switchOf e = none ∧ s' = s) ∨
      ∃ cpu rsp checked, s.switchOf e = s.switchOn cpu checked ∧ s' = s.reschedule cpu rsp checked := by
  cases e with
  | yieldNow cpu savedRsp =>
    cases made
    simp only [switchOf, yieldNow, ← ite_or]
    split
    · exact .inl ⟨rfl, rfl⟩
    · exact .inr ⟨cpu, savedRsp, _, rfl, rfl⟩
  | tick cpu currentRsp locked =>
    cases made
    -- the first processor is one of the table, so that the first test is part of the second
    have first : (MAX_CPUS ≤ cpu ∨ cpu ≠ BSP_CPU_ID) ↔ cpu ≠ BSP_CPU_ID := or_iff_right_of_imp <| by
      rintro far rfl
      cases far
    simp only [switchOf, scheduleTick, ← ite_or, ← or_assoc, first]
    split
    · exact .inl ⟨rfl, rfl⟩
    · exact .inr ⟨cpu, currentRsp, _, rfl, rfl⟩
  | _ => exact absurd switches Bool.false_ne_true

theorem turned_switches (made : s.step e = some s') (switches : e.switches) :
    t.Turned (s.tasks i) (some (afterSwitch (s.switchOf e) i t.state)) (s'.tasks i) := by
  obtain ⟨which, rfl⟩ | ⟨cpu, rsp, checked, which, rfl⟩ := switches_cases made switches
  · rw [which]
    exact .same
  · rw [which]
    exact turned_reschedule cpu rsp checked

/-! ### New tasks -/

theorem tasks_of_findFree (found : s.findFree = some i) : s.tasks i = none := by
  simp only [findFree, orElse_eq_orElse, orElse_eq_or, or_eq_some_iff] at found
  have free : ∀ {b : Bool}, (b && (s.tasks i).isNone) = true → s.tasks i = none := fun both =>
    isNone_iff_eq_none.mp (Bool.and_eq_true_iff.mp both).2
  obtain later | ⟨-, sooner⟩ := found
  · exact free (test_of_firstSlot later)
  · exact free (test_of_firstSlot sooner)

theorem tasks_enrol (s : Scheduler) (task : Task) :
    ((s.enrol task).1 = 0 ∧ (s.enrol task).2.tasks = s.tasks) ∨
      ∃ i, s.tasks i = none ∧ (s.enrol task).1 = task.id ∧
        (s.enrol task).2.tasks = update s.tasks i (some task) := by
  unfold enrol
  split
  · exact .inl ⟨rfl, rfl⟩
  · dsimp only
    split
    · exact .inl ⟨rfl, rfl⟩
    · rename_i cgroups _ _ i found
      exact .inr ⟨i, tasks_of_findFree found, rfl, rfl⟩

theorem create_cases (made : s.step e = some s') (creates : e.creates) :
    (s.newTask e = none ∧ s.created e = 0 ∧ (s' = s ∨ s' = s.takeId.2)) ∨
      ∃ task, s.newTask e = some task ∧ s.created e = (s.takeId.2.enrol task).1 ∧
        s' = (s.takeId.2.enrol task).2 := by
  cases e with
  | clone cpu flags stackSize entry cr3 userRsp heapBrk supply =>
    cases made
    simp only [newTask, created, cloneTask]
    cases stackSizeIsValid stackSize <;> cases entryIsValid entry <;>
      cases s.tasks (s.current cpu) <;> by_cases dry : supply.stack = 0 <;> simp [dry]
    cases childNamespaces flags _ supply <;> simp [takeId]
  | createUser cpu entry stackSize userRsp cr3 heapBase supply parentContended groupContended =>
    cases made
    simp only [newTask, created, createUserTask]
    cases stackSizeIsValid stackSize <;> cases entryIsValid entry <;>
      by_cases dry : supply.stack = 0 <;> simp [dry]
    exact ⟨rfl, rfl⟩
  | createNamed cpu stackSize name supply contended =>
    cases made
    simp only [newTask, created, createTaskNamed]
    cases stackSizeIsValid stackSize <;> by_cases dry : supply.stack = 0 <;> simp [dry]
    exact ⟨rfl, rfl⟩
  | _ => exact absurd creates Bool.false_ne_true

theorem newTask_clone {supply : Supply}
    (new : s.newTask (.clone cpu flags stackSize entry cr3 userRsp heapBrk supply) = some t) :
    ∃ parent ns, s.tasks (s.current cpu) = some parent ∧
      t = cloneRecord parent s.nextTaskId cpu stackSize cr3 userRsp heapBrk ns supply := by
  obtain ⟨-, new⟩ := (ite_none_right_eq_some ..).mp new
  obtain ⟨parent, here, new⟩ := bind_eq_some_iff.mp new
  obtain ⟨ns, -, same⟩ := bind_eq_some_iff.mp new
  exact ⟨parent, ns, here, (some.inj same).symm⟩

variable (made : s.step e = some s')

include made

theorem tasks_create (creates : e.creates) :
    s'.tasks = s.tasks ∨ ∃ j task, s.newTask e = some task ∧ s.tasks j = none ∧
        s'.tasks = update s.tasks j (some task) := by
  obtain ⟨-, -, rfl | rfl⟩ | ⟨task, new, -, rfl⟩ := create_cases made creates
  · exact .inl rfl
  · exact .inl rfl
  · obtain ⟨-, same⟩ | ⟨j, free, -, put⟩ := s.takeId.2.tasks_enrol task
    · exact .inl same
    · exact .inr ⟨j, task, new, free, put⟩

theorem turns_create (creates : e.creates) (here : s.tasks i = some t) :
    t.Turns (some t.state) (s'.tasks i) := by
  suffices same : s'.tasks i = some t from ⟨t, same, rfl, .refl t⟩
  obtain same | ⟨j, task, -, free, put⟩ := tasks_create made creates
  · rw [same]
    exact here
  · have other : i ≠ j := by
      rintro rfl
      exact nomatch here.symm.trans free
    rw [put, update_of_ne other]
    exact here

omit made

/-! ### Ends -/

theorem turned_free (j : Slot) (id : Nat) :
    t.Turned (s.tasks i) (if j = i then none else some t.state) ((s.free j id).tasks i) := by
  dsimp only [free]
  rcases eq_or_ne j i with rfl | other
  · rw [if_pos rfl, update_self]
    exact ⟨fun _ => rfl, fun _ => rfl⟩
  · rw [if_neg other, update_of_ne other.symm]
    exact .same

theorem turned_exit (cpu code : Nat) :
    t.Turned (s.tasks i) (some (if s.current cpu = i then .terminated else t.state))
      ((s.exitCurrent cpu code).tasks i) := by
  cases ran : s.tasks (s.current cpu) with
  | none =>
    simp only [exitCurrent, ran]
    refine ⟨fun here => ⟨t, here, (if_neg ?_).symm, .refl t⟩, id⟩
    rintro rfl
    exact nomatch here.symm.trans ran
  | some old =>
    simp only [exitCurrent, ran]
    rcases eq_or_ne (s.current cpu) i with rfl | other
    · rw [update_self, if_pos rfl]
      exact .put ran ⟨rfl, rfl, rfl, rfl, rfl, rfl, rfl⟩ fun _ => rfl
    · rw [update_of_ne other.symm, if_neg other]
      exact .same

theorem killTask_eq (s : Scheduler) (cpu id : Nat) :
    (s.killTask cpu id).2 = match s.freedBy (.kill cpu id) with
      | none => s
      | some i => s.free i id := by
  simp only [killTask, freedBy]
  by_cases root : id = 0
  · simp [root]
  · by_cases self : (s.tasks (s.current cpu)).any (·.id == id) = true
    · simp [root, self]
    · rw [if_neg root, if_neg self, if_neg (not_or.mpr ⟨root, self⟩)]
      cases firstSlot _ <;> rfl

theorem reapTask_eq (s : Scheduler) (id : Nat) :
    s.reapTask id = match s.freedBy (.reap id) with
      | none => s
      | some i => s.free i id := rfl

theorem turned_freed {freed : Option Slot} (id : Nat) :
    t.Turned (s.tasks i) (if freed = some i then none else some t.state)
      ((match freed with
        | none => s
        | some j => s.free j id).tasks i) := by
  cases freed with
  | none => exact .same
  | some j => simpa only [some.injEq] using turned_free j id

/-! ### Signals and futexes -/

theorem state_signalled (sig : Nat) (t : Task) :
    (signalled sig t).state = if t.state = .sleeping ∨ t.state = .waiting then .ready else t.state :=
  apply_ite Task.state ..

theorem kept_signalled (sig : Nat) (t : Task) : t.Kept (signalled sig t) := by
  dsimp only [signalled]
  by_cases asleep : (t.deliverSignal sig).state = .sleeping ∨ (t.deliverSignal sig).state = .waiting
  · rw [if_pos asleep]
    exact ⟨rfl, rfl, rfl, rfl, rfl, rfl, rfl⟩
  · rw [if_neg asleep]
    exact ⟨rfl, rfl, rfl, rfl, rfl, rfl, rfl⟩

theorem turned_futexWait (cpu addr val userVal : Nat) :
    t.Turned (s.tasks i) (some (s.stateAfter (.futexWait cpu addr val userVal) i t.state))
      ((s.futexWait cpu addr val userVal).2.tasks i) := by
  have unchanged : t.Turned (s.tasks i) (some t.state) (s.tasks i) := .same
  dsimp only [stateAfter, futexWait]
  split
  · simpa using unchanged
  · split
    · simpa using unchanged
    · split
      · simp only [true_and]
        generalize update s.futexes _ _ = futexes
        exact turned_taskSetState (s := { s with futexes := futexes }) (s.currentTaskId cpu) .sleeping
      · simpa using unchanged

theorem turned_futexWake (addr count : Nat) :
    t.Turned (s.tasks i) (some (s.stateAfter (.futexWake addr count) i t.state))
      ((s.futexWake addr count).2.tasks i) := by
  dsimp only [stateAfter, wokenBy, futexWake]
  split
  · rw [if_neg (by simp)]
    exact .same
  · exact turned_wake _

/-! ### Events -/

include made

theorem turned_step (noNew : ¬ e.creates) : t.Turned (s.tasks i) (s.nextState e i t) (s'.tasks i) := by
  cases e with
  | yieldNow | tick => exact turned_switches made rfl
  | setState id state =>
    cases made
    exact turned_taskSetState id state
  | deliver id sig =>
    cases made
    have effect := turned_changeTask (s := s) (i := i) (t := t) id (signalled sig) (kept_signalled sig)
    rw [state_signalled, ← ite_and] at effect
    exact effect
  | clear id sig =>
    cases made
    have effect := turned_changeTask (s := s) (i := i) (t := t) id (·.clearSignal sig)
      fun _ => ⟨rfl, rfl, rfl, rfl, rfl, rfl, rfl⟩
    simp only [Task.clearSignal, ite_self] at effect
    exact effect
  | forceKill id =>
    cases made
    exact turned_changeTask id ({ · with state := .terminated, exitCode := 9 <<< 8 })
      fun _ => ⟨rfl, rfl, rfl, rfl, rfl, rfl, rfl⟩
  | exit cpu code =>
    cases made
    exact turned_exit cpu code
  | kill cpu id =>
    cases made
    rw [killTask_eq]
    exact turned_freed id
  | reap id =>
    cases made
    exact turned_freed id
  | futexWait cpu addr val userVal =>
    cases made
    exact turned_futexWait cpu addr val userVal
  | futexWake addr count =>
    cases made
    exact turned_futexWake addr count
  | clone | createUser | createNamed => exact absurd rfl noNew
  | wait | writeGroup | removeGroup =>
    cases made
    exact .same
  | makeGroup name =>
    obtain ⟨made, -, rfl⟩ := map_eq_some_iff.mp made
    exact .same

theorem step_slot (here : s.tasks i = some t) : t.Turns (s.nextState e i t) (s'.tasks i) := by
  cases e with
  | clone | createUser | createNamed => exact turns_create made rfl here
  | _ => exact (turned_step made Bool.false_ne_true).taken here

theorem step_origin (noNew : ¬ e.creates) (after : s'.tasks i = some t') :
    ∃ t, s.tasks i = some t ∧ t.Kept t' ∧ t'.state = s.stateAfter e i t.state := by
  cases before : s.tasks i with
  | none => exact nomatch ((turned_step (t := t') made noNew).free before).symm.trans after
  | some t =>
    have turns := step_slot made before
    rw [nextState, after] at turns
    split at turns
    · exact nomatch turns
    · obtain ⟨t'', same, state, kept⟩ := turns
      cases same
      exact ⟨t, rfl, kept, state⟩

omit made

/-! ### The rest of the state -/

theorem changeTask_frame (s : Scheduler) (id : Nat) (change : Task → Task) :
    ∃ tasks, s.changeTask id change = { s with tasks := tasks } := by
  unfold changeTask
  split
  · exact ⟨s.tasks, rfl⟩
  · exact ⟨_, rfl⟩

theorem current_changeTask (s : Scheduler) (id : Nat) (change : Task → Task) :
    (s.changeTask id change).current = s.current := by
  obtain ⟨tasks, frame⟩ := s.changeTask_frame id change
  rw [frame]

theorem currentTaskId_changeTask (keeps : ∀ t, (change t).id = t.id) (id cpu : Nat) :
    (s.changeTask id change).currentTaskId cpu = s.currentTaskId cpu := by
  rw [currentTaskId, currentTaskId, current_changeTask, tasks_changeTask]
  split
  · rw [map_map]
    exact congrArg (Option.getD · 0) (map_congr fun t _ => keeps t)
  · rfl

theorem wake_frame (s : Scheduler) (ids : List Nat) :
    ∃ tasks, ids.foldl (fun s id => s.taskSetState id .ready) s = { s with tasks := tasks } := by
  induction ids generalizing s with
  | nil => exact ⟨s.tasks, rfl⟩
  | cons id rest ih =>
    obtain ⟨tasks, first⟩ := s.changeTask_frame id ({ · with state := .ready })
    obtain ⟨tasks', others⟩ := ih (s.taskSetState id .ready)
    exact ⟨tasks', others.trans (by rw [taskSetState, first])⟩

theorem reschedule_frame (s : Scheduler) (cpu savedRsp : Nat) (checked : Slot → Bool) :
    ∃ tasks userRsp cr3, s.reschedule cpu savedRsp checked = { s with
        tasks := tasks
        current := turnTo s.current (s.switchOn cpu checked)
        userRsp := userRsp
        cr3 := cr3 } := by
  obtain ⟨none_made, same | ⟨j, moved⟩⟩ | ⟨cur, nxt, next, -, made, -, -, -, switched⟩ :=
    s.reschedule_cases cpu savedRsp checked
  · exact none_made ▸ ⟨_, _, _, same⟩
  · exact none_made ▸ ⟨_, _, _, moved⟩
  · exact made ▸ ⟨_, _, _, switched⟩

theorem quiet_frame (made : s.step e = some s') (quiet : e.quiet) :
    ∃ tasks futexes userRsp cr3, s' = { s with
        tasks := tasks
        current := turnTo s.current (s.switchOf e)
        futexes := futexes
        userRsp := userRsp
        cr3 := cr3 } := by
  cases e with
  | yieldNow | tick =>
    obtain ⟨which, rfl⟩ | ⟨cpu, rsp, checked, which, rfl⟩ := switches_cases made rfl
    · exact which ▸ ⟨_, _, _, _, rfl⟩
    · obtain ⟨tasks, userRsp, cr3, frame⟩ := s.reschedule_frame cpu rsp checked
      exact which ▸ ⟨_, _, _, _, frame⟩
  | setState | deliver | clear | forceKill =>
    cases made
    exact (changeTask_frame _ _ _).elim fun tasks frame => ⟨_, _, _, _, frame⟩
  | futexWait cpu addr val userVal =>
    cases made
    dsimp only [futexWait]
    split_ifs
    · exact ⟨_, _, _, _, rfl⟩
    · exact ⟨_, _, _, _, rfl⟩
    · exact (changeTask_frame _ _ _).elim fun tasks frame => ⟨_, _, _, _, frame⟩
    · exact ⟨_, _, _, _, rfl⟩
  | futexWake addr count =>
    cases made
    dsimp only [futexWake]
    split
    · exact ⟨_, _, _, _, rfl⟩
    · obtain ⟨tasks, frame⟩ := s.wake_frame (wakeLoop count 0 (s.futexes (futexHash addr)).waiters).1
      rw [frame]
      exact ⟨_, _, _, _, rfl⟩
  | _ => exact absurd quiet Bool.false_ne_true

theorem current_enrol (s : Scheduler) (task : Task) : (s.enrol task).2.current = s.current := by
  unfold enrol
  split
  · rfl
  · dsimp only
    split <;> rfl

/-- What an event that makes no task does to the rest of the state. -/
structure Rest (s : Scheduler) (e : Event) (s' : Scheduler) : Prop where
  nextTaskId : s'.nextTaskId = s.nextTaskId
  current : s'.current = turnTo s.current (s.switchOf e)
  cgroups : ¬ e.ofGroups → s'.cgroups = s.cgroups ∨ ∃ id, s'.cgroups = (s.cgroups.detach id).2

theorem step_rest (made : s.step e = some s') (noNew : ¬ e.creates) : s.Rest e s' := by
  cases e with
  | clone | createUser | createNamed => exact absurd rfl noNew
  | exit cpu code =>
    cases made
    unfold exitCurrent
    split
    · exact ⟨rfl, rfl, fun _ => .inl rfl⟩
    · exact ⟨rfl, rfl, fun _ => .inr ⟨_, rfl⟩⟩
  | kill cpu id =>
    cases made
    rw [killTask_eq]
    split
    · exact ⟨rfl, rfl, fun _ => .inl rfl⟩
    · exact ⟨rfl, rfl, fun _ => .inr ⟨id, rfl⟩⟩
  | reap id =>
    cases made
    rw [reapTask_eq]
    split
    · exact ⟨rfl, rfl, fun _ => .inl rfl⟩
    · exact ⟨rfl, rfl, fun _ => .inr ⟨id, rfl⟩⟩
  | wait =>
    cases made
    exact ⟨rfl, rfl, fun _ => .inl rfl⟩
  | writeGroup | removeGroup =>
    cases made
    exact ⟨rfl, rfl, fun other => absurd rfl other⟩
  | makeGroup name =>
    obtain ⟨made, -, rfl⟩ := map_eq_some_iff.mp made
    exact ⟨rfl, rfl, fun other => absurd rfl other⟩
  | _ =>
    obtain ⟨tasks, futexes, userRsp, cr3, rfl⟩ := quiet_frame made rfl
    exact ⟨rfl, rfl, fun _ => .inl rfl⟩

theorem step_current (made : s.step e = some s') : s'.current = turnTo s.current (s.switchOf e) := by
  cases e with
  | clone | createUser | createNamed =>
    obtain ⟨-, -, rfl | rfl⟩ | ⟨task, -, -, rfl⟩ := create_cases made rfl
    · rfl
    · rfl
    · exact current_enrol ..
  | _ => exact (step_rest made Bool.false_ne_true).current

theorem switchOf_active {switch : Switch} (made : s.switchOf e = some switch) :
    ∃ nxt, s.tasks switch.next = some nxt ∧ nxt.isActive = true := by
  have of_on : ∀ {cpu checked}, s.switchOn cpu checked = some switch →
      ∃ nxt, s.tasks switch.next = some nxt ∧ nxt.isActive = true := by
    intro cpu checked on
    obtain ⟨none_made, -⟩ | ⟨cur, nxt, next, -, which, -, at_next, active, -⟩ :=
      s.reschedule_cases cpu 0 checked
    · exact nomatch none_made.symm.trans on
    · cases which.symm.trans on
      exact ⟨nxt, at_next, active⟩
  cases e with
  | yieldNow | tick => exact of_on ((ite_none_left_eq_some ..).mp made).2
  | _ => exact nomatch made

end Scheduler

end Zenus.Sched
