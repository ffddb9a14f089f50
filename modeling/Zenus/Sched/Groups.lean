import Zenus.Fs.CgroupInv
import Zenus.Sched.Slots

/-! # The groups of new tasks

The control group of a task is in the table of the groups and in a field of its
record.  Writes to `cgroup.procs` change the table; a new task joins the group that
its creator's record names.
-/

namespace Zenus.Fs

open CgroupTable

variable {t : CgroupTable}

theorem CgroupTable.Single.write (single : Single t) (inode : Nat) (buf : List UInt8) :
    Single (cgroupWrite t inode buf).2 := by
  have limit : ∀ {set : Nat → Bool × CgroupTable}, (∀ max, Single (set max).2) →
      Single (writeLimit t buf set).2 := by
    intro set each
    unfold writeLimit
    split
    · exact single
    · exact each _
  have setter : ∀ {change : Nat → Cgroup → Cgroup} {id : Nat},
      (∀ max g, (change max g).members = g.members) → ∀ max, Single (t.setLimit (change max) id).2 := by
    intro change id kept max
    rw [Single, everyone_setLimit (kept max)]
    exact single
  have spec : ∀ cg file, Single (writeSpec t cg file buf).2 := by
    intro cg file
    unfold writeSpec
    split
    · cases file with
      | procs =>
        dsimp only
        split
        · exact single
        · exact single.attach ..
      | pidsMax | memMax | cpuMax | ioMax => exact limit (setter fun _ _ => rfl)
      | controllers | subtree | pidsCurrent | memCurrent => exact single
    · exact single
  unfold cgroupWrite
  split
  · exact spec ..
  · split
    · exact spec ..
    · exact single

theorem CgroupTable.Single.create {name : Str} {made : Option Nat × CgroupTable} (single : Single t)
    (created : t.create name = some made) : Single made.2 := by
  suffices same : made.2.everyone = t.everyone by rw [Single, same]; exact single
  unfold CgroupTable.create at created
  split_ifs at created
  · cases created
    rfl
  · cases created
    rfl
  · cases created
    rfl
  · obtain ⟨next, -, rfl⟩ := Option.map_eq_some_iff.mp created
    simp [everyone]

end Zenus.Fs

namespace Zenus.Sched.Scheduler

open Lib.Run Fs.CgroupTable

variable {s s' : Scheduler} {e : Event} {creator task : Task}

/-! ## The table of the groups along a run -/

theorem cgroups_enrol (s : Scheduler) (task : Task) :
    (s.enrol task).2.cgroups = (s.cgroups.attach task.cgroup task.id).2 := by
  unfold enrol
  split
  · next attached => rw [attached]
  · next attached =>
    rw [attached]
    dsimp only
    split <;> rfl

theorem single_step (s : Scheduler) (e : Event) (s' : Scheduler) (single : Single s.cgroups)
    (made : s.step e = some s') : Single s'.cgroups := by
  cases e with
  | clone | createUser | createNamed =>
    obtain ⟨-, -, rfl | rfl⟩ | ⟨task, -, -, rfl⟩ := create_cases made rfl
    · exact single
    · exact single
    · rw [cgroups_enrol]
      exact single.attach ..
  | writeGroup inode buf =>
    cases made
    exact single.write inode buf
  | makeGroup name =>
    obtain ⟨made, created, rfl⟩ := Option.map_eq_some_iff.mp made
    exact single.create created
  | removeGroup id =>
    cases made
    rw [Single, everyone_remove]
    exact single
  | _ =>
    obtain same | ⟨id, same⟩ := (step_rest made Bool.false_ne_true).cgroups Bool.false_ne_true
    · exact same ▸ single
    · exact same ▸ single.detach id

/-! ## Creations -/

/-- The task that asks for a new one with `clone_task` or `create_user_task`. -/
def creatorOf (s : Scheduler) : Event → Option Task
  | .clone cpu .. => s.tasks (s.current cpu)
  | .createUser cpu .. => s.tasks (s.current cpu)
  | _ => none

/-- The group that a creation reads: the field of the creator's record, or the root if
    `create_user_task` finds the table contended. -/
def groupRead (s : Scheduler) : Event → Nat
  | .clone cpu .. => ((s.tasks (s.current cpu)).map Task.cgroup).getD 0
  | .createUser cpu _ _ _ _ _ _ _ groupContended => s.currentCgroup cpu groupContended
  | _ => 0

/-- A new task is in the group that has its creator as a member. -/
def JoinsCreator (s : Scheduler) (e : Event) : Prop :=
  ∀ creator group, s.creatorOf e = some creator → s.created e ≠ 0 →
    s.cgroups.groupOfTask creator.id = some group →
      ∀ s', s.step e = some s' → s'.cgroups.groupOfTask (s.created e) = some group

/-- The group that a successful creation reads is the one that has the creator as a
    member. -/
def readsMembership (s : Scheduler) (e : Event) : Bool :=
  s.created e == 0 || (s.creatorOf e).all fun creator =>
    (s.cgroups.groupOfTask creator.id).all (· == s.groupRead e)

theorem creates_of_creatorOf (asked : s.creatorOf e = some creator) : e.creates := by
  cases e with
  | clone | createUser => rfl
  | _ => exact nomatch asked

theorem step_of_creates (s : Scheduler) (creates : e.creates) : ∃ s', s.step e = some s' := by
  cases e with
  | clone | createUser | createNamed => exact ⟨_, rfl⟩
  | _ => exact absurd creates Bool.false_ne_true

theorem attached_of_enrol (enrolled : (s.enrol task).1 ≠ 0) :
    (s.enrol task).1 = task.id ∧ (s.cgroups.attach task.cgroup task.id).1 = .ok () := by
  unfold enrol at enrolled ⊢
  split at enrolled
  · exact absurd rfl enrolled
  · next attached =>
    rw [attached]
    dsimp only at enrolled ⊢
    split at enrolled
    · exact absurd rfl enrolled
    · exact ⟨rfl, rfl⟩

theorem cgroup_of_newTask (asked : s.creatorOf e = some creator)
    (new : s.newTask e = some task) : task.cgroup = s.groupRead e := by
  cases e with
  | clone cpu flags stackSize entry cr3 userRsp heapBrk supply =>
    obtain ⟨parent, ns, here, rfl⟩ := newTask_clone new
    rw [groupRead, here]
    rfl
  | createUser cpu entry stackSize userRsp cr3 heapBase supply parentContended groupContended =>
    cases Option.some.inj ((Option.ite_none_right_eq_some ..).mp new).2
    rfl
  | _ => exact nomatch asked

theorem group_of_created (single : Single s.cgroups) (made : s.step e = some s')
    (asked : s.creatorOf e = some creator) (success : s.created e ≠ 0) :
    s'.cgroups.groupOfTask (s.created e) = some (s.groupRead e) := by
  obtain ⟨-, refused, -⟩ | ⟨task, new, result, rfl⟩ := create_cases made (creates_of_creatorOf asked)
  · exact absurd refused success
  · rw [result] at success ⊢
    obtain ⟨number, attached⟩ := attached_of_enrol success
    rw [number, cgroups_enrol, ← cgroup_of_newTask asked new]
    exact groupOfTask_attach single attached

theorem joinsCreator_iff (s : Scheduler) (e : Event) (single : Single s.cgroups) :
    s.JoinsCreator e ↔ s.readsMembership e = true := by
  simp only [readsMembership, Bool.or_eq_true, beq_iff_eq, Option.all_eq_true]
  constructor
  · intro joins
    by_cases success : s.created e = 0
    · exact .inl success
    refine .inr fun creator asked group member => ?_
    obtain ⟨s', made⟩ := s.step_of_creates (creates_of_creatorOf asked)
    have joined := joins creator group asked success member s' made
    exact Option.some.inj (joined.symm.trans (group_of_created single made asked success))
  · intro reads creator group asked success member s' made
    rw [group_of_created single made asked success]
    exact congrArg some ((reads.resolve_left success) creator asked group member).symm

/-- In a run, every new task joins the group that has its creator as a member exactly if
    each creation that succeeds reads that group from the record of its creator. -/
theorem created_join_creator (single : Single s.cgroups) (events : List Event) :
    Along step JoinsCreator events s ↔ Along step (fun s e => s.readsMembership e = true) events s :=
  along_congr_of_invariant (fun s => Single s.cgroups) single_step joinsCreator_iff single

/-- In every run, the search by task finds the group that has the task as a member. -/
theorem groups_found_by_task (tasks : List Task) (current : Slot) (events : List Event) :
    Always step (fun s => ∀ id ms m, s.cgroups.members id = some ms → m ∈ ms →
      s.cgroups.groupOfTask m.task = some id) events (ofTasks tasks current) :=
  always_of_invariant (fun s => Single s.cgroups) single_step
    (fun _ single _ _ _ held mem => groupOfTask_of_member single held mem rfl) List.nodup_nil

def cloneOnce : Event := .clone 0 0 65536 0x400000 0 0 0 { stack := 0x100000, view := none }

/-- The task that runs is in the root when it makes another. -/
theorem created_join_creator_root :
    Single pair.cgroups ∧ Along step JoinsCreator [.writeGroup 2 (Fs.str "1"), cloneOnce] pair ∧
      (exec step [.writeGroup 2 (Fs.str "1"), cloneOnce] pair).bind (·.cgroups.groupOfTask 3) = some 0 := by
  have single : Single pair.cgroups := List.nodup_nil
  exact ⟨single, (created_join_creator single _).mpr (by decide +kernel), by decide +kernel⟩

/-- A group is made and the task that runs is moved into it; its clone lands in the root. -/
theorem moved_creator_clone_in_root :
    let events := [.makeGroup (Fs.str "web"), .writeGroup 0x1041 (Fs.str "1"), cloneOnce]
    ((exec step events pair).map fun s => (s.cgroups.groupOfTask 1, s.cgroups.groupOfTask 3)) =
        some (some 1, some 0) ∧
      ¬ Along step JoinsCreator events pair := by
  refine ⟨by decide +kernel, fun along => ?_⟩
  have single : Single pair.cgroups := List.nodup_nil
  have reads := (along_congr_of_invariant _ single_step joinsCreator_iff single).mp along
  exact absurd reads (by decide +kernel)

end Zenus.Sched.Scheduler
