import Zenus.Fs.Mount
import Zenus.Lib.Text
import Zenus.Lib.Word

/-! # Control groups

The controller table behind `/sys/fs/cgroup` and the writes to its files.  The root
group is not an entry of the table: its members have a list of their own, and it has
no limits.
-/

namespace Zenus.Fs

open Lib.Word

def CGROUP_ROOT : Nat := 0
def CGROUP_UNLIMITED : Nat := WORD - 1
def MAX_CGROUPS : Nat := 32
def MAX_NAME_LEN : Nat := 64

structure Member where
  task : Nat
  /-- Bytes this task has charged to the group. -/
  charged : Nat
  deriving DecidableEq

structure Cgroup where
  id : Nat
  name : Str
  memoryMax : Nat
  pidsMax : Nat
  cpuMax : Nat
  ioMax : Nat
  members : List Member
  deriving DecidableEq

structure CgroupTable where
  groups : List Cgroup
  rootMembers : List Member
  nextId : Nat
  deriving DecidableEq

/-- Why `attach` refused. -/
inductive AttachError where
  | noSuchGroup
  | pidsLimit
  deriving DecidableEq

/-- `position` and `remove` of a task in a list of members. -/
def takeTask (task : Nat) (members : List Member) : Option (Nat × List Member) :=
  (members.find? (·.task == task)).map fun m => (m.charged, members.eraseP (·.task == task))

/-- The loop of `detach` over the groups. -/
def takeFromGroups (task : Nat) : List Cgroup → Option (Nat × List Cgroup)
  | [] => none
  | g :: rest =>
    match takeTask task g.members with
    | some (charged, members) => some (charged, { g with members := members } :: rest)
    | none => (takeFromGroups task rest).map fun (charged, rest) => (charged, g :: rest)

/-- Change the first entry of a task in a list of members. -/
def changeCharge (task : Nat) (change : Nat → Nat) : List Member → List Member
  | [] => []
  | m :: rest =>
    if m.task == task then { m with charged := change m.charged } :: rest
    else m :: changeCharge task change rest

namespace CgroupTable

def empty : CgroupTable := ⟨[], [], 1⟩

variable (t : CgroupTable)

def indexOf (id : Nat) : Option Nat := t.groups.findIdx? (·.id == id)

/-- `exists` -/
def contains (id : Nat) : Bool := id == CGROUP_ROOT || (t.indexOf id).isSome

def members (id : Nat) : Option (List Member) :=
  if id = CGROUP_ROOT then some t.rootMembers
  else (t.indexOf id).bind fun i => t.groups[i]?.map Cgroup.members

/-- A change through `members_mut`. -/
def changeMembers (id : Nat) (change : List Member → List Member) : CgroupTable :=
  if id = CGROUP_ROOT then { t with rootMembers := change t.rootMembers }
  else
    match t.indexOf id with
    | none => t
    | some i =>
      { t with groups := t.groups.modify i fun g => { g with members := change g.members } }

/-- Create a group under the root; the outer `none` is the overflow of `next_id`. -/
def create (name : Str) : Option (Option Nat × CgroupTable) :=
  if name.isEmpty || MAX_NAME_LEN < name.length || name == [SLASH] then some (none, t)
  else if t.groups.any (·.name == name) then some (none, t)
  else if MAX_CGROUPS ≤ t.groups.length then some (none, t)
  else
    (checkedAdd t.nextId 1).map fun next =>
      (some t.nextId,
        { t with
          nextId := next
          groups := t.groups ++
            [⟨t.nextId, name, CGROUP_UNLIMITED, CGROUP_UNLIMITED, CGROUP_UNLIMITED, CGROUP_UNLIMITED, []⟩] })

def remove (id : Nat) : Bool × CgroupTable :=
  if id = CGROUP_ROOT then (false, t)
  else
    match t.indexOf id with
    | none => (false, t)
    | some i =>
      match t.groups[i]? with
      | none => (false, t)
      | some g =>
        if !g.members.isEmpty then (false, t)
        else (true, { t with groups := t.groups.eraseIdx i })

def pidsCurrent (id : Nat) : Nat := ((t.members id).map List.length).getD 0

/-- The bytes charged to a group; the sum is one of words. -/
def memoryCurrent (id : Nat) : Nat :=
  ((t.members id).map fun v => (v.map Member.charged).sum % WORD).getD 0

/-- What `pids_max` and `memory_max` share: the root is always unlimited. -/
def limit (field : Cgroup → Nat) (id : Nat) : Option Nat :=
  if id = CGROUP_ROOT then some CGROUP_UNLIMITED
  else (t.indexOf id).bind fun i => t.groups[i]?.map field

def pidsMax (id : Nat) : Option Nat := t.limit Cgroup.pidsMax id

def memoryMax (id : Nat) : Option Nat := t.limit Cgroup.memoryMax id

/-- What the setters of the limits share: the root cannot be limited. -/
def setLimit (change : Cgroup → Cgroup) (id : Nat) : Bool × CgroupTable :=
  if id = CGROUP_ROOT then (false, t)
  else
    match t.indexOf id with
    | none => (false, t)
    | some i => (true, { t with groups := t.groups.modify i change })

def setPidsMax (id max : Nat) : Bool × CgroupTable := t.setLimit (fun g => { g with pidsMax := max }) id

def setMemoryMax (id max : Nat) : Bool × CgroupTable :=
  t.setLimit (fun g => { g with memoryMax := max }) id

def setCpuMax (id max : Nat) : Bool × CgroupTable := t.setLimit (fun g => { g with cpuMax := max }) id

def setIoMax (id max : Nat) : Bool × CgroupTable := t.setLimit (fun g => { g with ioMax := max }) id

def groupOfTask (task : Nat) : Option Nat :=
  if t.rootMembers.any (·.task == task) then some CGROUP_ROOT
  else (t.groups.find? fun g => g.members.any (·.task == task)).map Cgroup.id

/-- Take a task out of the group that holds it, with the bytes it had charged. -/
def detach (task : Nat) : Nat × CgroupTable :=
  match takeTask task t.rootMembers with
  | some (charged, members) => (charged, { t with rootMembers := members })
  | none =>
    match takeFromGroups task t.groups with
    | some (charged, groups) => (charged, { t with groups := groups })
    | none => (0, t)

/-- Put a task into a group.  It is taken out of its old group before the limit of the
    new one is looked at. -/
def attach (id task : Nat) : Except AttachError Unit × CgroupTable :=
  if !t.contains id then (.error .noSuchGroup, t)
  else if t.groupOfTask task = some id then (.ok (), t)
  else
    let (carried, t) := t.detach task
    if (t.pidsMax id).getD CGROUP_UNLIMITED ≤ t.pidsCurrent id then (.error .pidsLimit, t)
    else (.ok (), t.changeMembers id (· ++ [⟨task, carried⟩]))

def charge (task bytes : Nat) : Bool × CgroupTable :=
  match t.groupOfTask task with
  | none => (true, t)
  | some gid =>
    let max := (t.memoryMax gid).getD CGROUP_UNLIMITED
    if max ≠ CGROUP_UNLIMITED ∧ max < satAdd (t.memoryCurrent gid) bytes then (false, t)
    else (true, t.changeMembers gid (changeCharge task (satAdd · bytes)))

def uncharge (task bytes : Nat) : CgroupTable :=
  match t.groupOfTask task with
  | none => t
  | some gid => t.changeMembers gid (changeCharge task (· - bytes))

theorem charge_refused {task bytes : Nat} (refused : (t.charge task bytes).1 = false) :
    t.charge task bytes = (false, t) := by
  unfold charge at refused ⊢
  split at refused
  · simp at refused
  · dsimp only at refused ⊢
    split at refused
    · next above => rw [if_pos above]
    · simp at refused

end CgroupTable

/-! ## The files -/

def DIR_BASE : Nat := 0x1000
def DIR_STRIDE : Nat := 0x40

def CGROUP_PROCS_INODE : Nat := 2
def CGROUP_TASKS_INODE : Nat := 3
def CGROUP_CONTROLLERS_INODE : Nat := 4
def CGROUP_SUBTREE_CONTROL_INODE : Nat := 5
def CGROUP_PIDS_MAX_INODE : Nat := 9
def CGROUP_PIDS_CURRENT_INODE : Nat := 10
def CGROUP_MEMORY_MAX_INODE : Nat := 11
def CGROUP_MEMORY_CURRENT_INODE : Nat := 12
def CGROUP_CPU_MAX_INODE : Nat := 13
def CGROUP_IO_MAX_INODE : Nat := 14

/-- The files of a group, numbered from 1 in this order. -/
inductive CgroupFile where
  | procs
  | controllers
  | subtree
  | pidsMax
  | pidsCurrent
  | memMax
  | memCurrent
  | cpuMax
  | ioMax
  deriving DecidableEq

def CgroupFile.ofIndex : Nat → Option CgroupFile
  | 1 => some .procs
  | 2 => some .controllers
  | 3 => some .subtree
  | 4 => some .pidsMax
  | 5 => some .pidsCurrent
  | 6 => some .memMax
  | 7 => some .memCurrent
  | 8 => some .cpuMax
  | 9 => some .ioMax
  | _ => none

/-- Split the inode of a created group's file into the group and the file. -/
def decodeInode (inode : Nat) : Option (Nat × CgroupFile) :=
  if inode < DIR_BASE then none
  else (CgroupFile.ofIndex (inode % DIR_STRIDE)).map fun file => ((inode - DIR_BASE) / DIR_STRIDE, file)

def rootSpec (inode : Nat) : Option (Nat × CgroupFile) :=
  if inode = CGROUP_PROCS_INODE ∨ inode = CGROUP_TASKS_INODE then some (CGROUP_ROOT, .procs)
  else if inode = CGROUP_CONTROLLERS_INODE then some (CGROUP_ROOT, .controllers)
  else if inode = CGROUP_SUBTREE_CONTROL_INODE then some (CGROUP_ROOT, .subtree)
  else if inode = CGROUP_PIDS_MAX_INODE then some (CGROUP_ROOT, .pidsMax)
  else if inode = CGROUP_PIDS_CURRENT_INODE then some (CGROUP_ROOT, .pidsCurrent)
  else if inode = CGROUP_MEMORY_MAX_INODE then some (CGROUP_ROOT, .memMax)
  else if inode = CGROUP_MEMORY_CURRENT_INODE then some (CGROUP_ROOT, .memCurrent)
  else if inode = CGROUP_CPU_MAX_INODE then some (CGROUP_ROOT, .cpuMax)
  else if inode = CGROUP_IO_MAX_INODE then some (CGROUP_ROOT, .ioMax)
  else none

/-- Parse a written limit: `max` or a decimal number. -/
def parseLimit (text : Str) : Option Nat :=
  let text := Lib.Text.trim text
  if text == str "max" then some CGROUP_UNLIMITED else Lib.Text.parse WORD text

def writeLimit (t : CgroupTable) (buf : List UInt8) (set : Nat → Bool × CgroupTable) :
    Option Nat × CgroupTable :=
  match parseLimit buf with
  | none => (none, t)
  | some max => (if (set max).1 then some buf.length else none, (set max).2)

def writeSpec (t : CgroupTable) (cg : Nat) (file : CgroupFile) (buf : List UInt8) :
    Option Nat × CgroupTable :=
  if utf8 buf then
    match file with
    | .procs =>
      match Lib.Text.parse WORD (Lib.Text.trim buf) with
      | none => (none, t)
      | some task =>
        let (result, t) := t.attach cg task
        (result.toOption.map fun _ => buf.length, t)
    | .pidsMax => writeLimit t buf (t.setPidsMax cg)
    | .memMax => writeLimit t buf (t.setMemoryMax cg)
    | .cpuMax => writeLimit t buf (t.setCpuMax cg)
    | .ioMax => writeLimit t buf (t.setIoMax cg)
    | _ => (none, t)
  else (none, t)

/-- `write` of the file system. -/
def cgroupWrite (t : CgroupTable) (inode : Nat) (buf : List UInt8) : Option Nat × CgroupTable :=
  match rootSpec inode with
  | some (cg, file) => writeSpec t cg file buf
  | none =>
    match decodeInode inode with
    | some (cg, file) => writeSpec t cg file buf
    | none => (none, t)

end Zenus.Fs
