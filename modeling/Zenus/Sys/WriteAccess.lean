import Zenus.Sys.Effects
import Zenus.Fs.Tmpfs

/-! # Write permission

`open` only asks whether the caller may read, and `write` asks nothing; `symlinkat`
does not look at the directory it adds to.  So a file is only written, and an entry
only added, by those who may, if every file opened is one its opener may write and
every link goes to a directory its maker may write.
-/

namespace Zenus.Sys

open Fs Lib.Run

/-- A task was granted write access to a file when it opened it. -/
structure Grant (F : Type) where
  task : Nat
  fs : F
  inode : Nat
  deriving DecidableEq

/-- The files, with the grants of all `open` calls so far. -/
structure Watched (F : Type) (σ : F → Type) where
  files : Files F σ
  grants : List (Grant F)

section Watching

variable {F : Type} {σ : F → Type} [DecidableEq F] (ops : (f : F) → FileSystem (σ f))

/-- What `access_check` says about writing a file. -/
def mayWrite (w : Files F σ) (caller : Caller) (f : F) (inode : Nat) : Bool :=
  accessCheck caller.cred ((ops f).stat (w.vfs.states f) inode) true

def mayRead (w : Files F σ) (caller : Caller) (f : F) (inode : Nat) : Bool :=
  accessCheck caller.cred ((ops f).stat (w.vfs.states f) inode) false

/-- The grant of an `open`. -/
def grantsOf (w : Files F σ) (caller : Caller) : Call → List (Grant F)
  | .open path =>
    match openInNs ops w.vfs NS_ROOT path with
    | none => []
    | some node =>
      if mayWrite ops w caller node.fs node.inode then [⟨caller.task, node.fs, node.inode⟩] else []
  | _ => []

def watch (s : Watched F σ) (call : Caller × Call) : Option (Watched F σ) :=
  some ⟨call.2.perform ops s.files call.1, grantsOf ops s.files call.1 call.2 ++ s.grants⟩

/-- The caller may ask for the change: it was granted write access to the file when it
    opened it, or has it now; and it has write access to a directory it adds to. -/
def OpPermitted (s : Watched F σ) (caller : Caller) (f : F) : Op → Prop
  | .write inode _ _ => ⟨caller.task, f, inode⟩ ∈ s.grants ∨ mayWrite ops s.files caller f inode = true
  | .truncate inode _ => mayWrite ops s.files caller f inode = true
  | .create parent _ _ => mayWrite ops s.files caller f parent = true
  | .symlink parent _ _ => mayWrite ops s.files caller f parent = true
  | .unlink _ _ | .chmod _ _ | .chown _ _ _ => True

/-- Whatever the call changes, it changes by an operation it may ask for. -/
def Permitted (s : Watched F σ) (call : Caller × Call) : Prop :=
  ∀ f, (call.2.perform ops s.files call.1).vfs.states f ≠ s.files.vfs.states f →
    ∃ op, Runs ops s.files call.1 call.2 f op ∧
      (call.2.perform ops s.files call.1).vfs.states f = op.apply (ops f) (s.files.vfs.states f) ∧
      OpPermitted ops s call.1 f op

/-- The file that is opened for reading can be written by the caller, or is on a
    read-only mount, and the directory that gets a link can be written by the caller. -/
def Careful (s : Watched F σ) (call : Caller × Call) : Prop :=
  match call.2 with
  | .open path =>
    ∀ node ∈ openInNs ops s.files.vfs NS_ROOT path,
      mayRead ops s.files call.1 node.fs node.inode = true → node.readOnly = false →
        mayWrite ops s.files call.1 node.fs node.inode = true
  | .symlinkat _ path =>
    ∀ parent ∈ parentDir path, ∀ node ∈ openInNs ops s.files.vfs NS_ROOT parent,
      mayWrite ops s.files call.1 node.fs node.inode = true
  | _ => True

instance (s : Watched F σ) : (call : Caller × Call) → Decidable (Careful ops s call)
  | (_, .open _) | (_, .symlinkat ..) => by delta Careful; infer_instance
  | (_, .close _) | (_, .read ..) | (_, .write ..) | (_, .seek ..) | (_, .dup _) | (_, .dup2 ..)
  | (_, .pipe) | (_, .mkdir _) | (_, .unlink _) | (_, .rmdir _) | (_, .chmod ..) | (_, .chown ..)
  | (_, .truncate ..) | (_, .ftruncate ..) => .isTrue trivial

/-- Every file that can be written through a descriptor was granted. -/
def AllGranted (s : Watched F σ) : Prop :=
  ∀ h, s.files.fds.Holds h → h.readOnly = false → ⟨h.task, h.fs, h.inode⟩ ∈ s.grants

variable {ops} {s s' : Watched F σ} {call : Caller × Call}

theorem watch_allGranted (s : Watched F σ) (call : Caller × Call) (s' : Watched F σ)
    (granted : AllGranted s) (careful : Careful ops s call) (stepped : watch ops s call = some s') :
    AllGranted s' := by
  cases stepped
  intro h held writable
  refine List.mem_append.mpr ?_
  cases holds_perform held with
  | inl old => exact .inr (granted h old writable)
  | inr opened =>
    obtain ⟨path, node, opens, found, readable, rfl⟩ := opened
    rw [Careful, opens] at careful
    have may := careful node found readable writable
    refine .inl ?_
    rw [opens, grantsOf, found]
    simp [may]

theorem accessCheck_of_mayModifyParent {stat : FileStat} {cred : Credentials}
    (may : mayModifyParent stat cred = true) : accessCheck cred stat true = true := by
  unfold mayModifyParent at may
  unfold accessCheck
  split at may
  · next override => rw [if_pos override]
  · next override =>
    split at may
    · simp at may
    · rw [if_neg override, if_neg (by simp)]
      unfold accessCheckBits at may
      rw [if_neg override] at may
      simp only [Bool.not_true, Bool.and_false, Bool.false_and, Bool.false_eq_true, if_false,
        Bool.not_false, Bool.true_and] at may
      unfold classAllows
      split at may
      · next owner => simp_all
      · next owner =>
        split at may
        · next group => simp_all
        · next group => simp_all

theorem permitted_of_careful (s : Watched F σ) (call : Caller × Call) (granted : AllGranted s)
    (careful : Careful ops s call) : Permitted ops s call := by
  intro f changed
  rcases (perform_effected ops s.files call.1 call.2).vfs with same | ⟨g, op, runs, after⟩
  · rw [same] at changed
    exact absurd rfl changed
  · rw [after] at changed ⊢
    by_cases here : f = g
    · subst here
      refine ⟨op, runs, Vfs.states_setState .., ?_⟩
      obtain ⟨caller, call⟩ := call
      cases runs with
      | write found fs writable =>
        obtain ⟨stored, owner⟩ := fdGet_eq found
        refine .inl ?_
        have held := FdTable.holds_of_get stored (congrArg (Option.map _) fs)
        rw [← owner]
        exact granted _ held writable
      | mkdir above found may => exact accessCheck_of_mayModifyParent may
      | unlink above found may => trivial
      | rmdir above found may => trivial
      | symlinkat above found => exact careful _ above _ found
      | chmod found owner => trivial
      | chown found may => trivial
      | truncate found access | ftruncate found fs access => exact access
    · exact absurd (Vfs.states_setState_of_ne here ..) changed

/-- In every run from an empty table of descriptors whose calls are all careful, every
    call is permitted. -/
theorem permitted_along {w : Files F σ} (empty : ∀ fd, w.fds fd = none)
    (calls : List (Caller × Call))
    (careful : Along (watch ops) (Careful ops) calls ⟨w, []⟩) :
    Along (watch ops) (Permitted ops) calls ⟨w, []⟩ := by
  refine careful.under AllGranted watch_allGranted permitted_of_careful ?_
  rintro h ⟨fd, entry, stored, _⟩
  cases stored.symm.trans (empty fd)

end Watching

/-- A machine whose root is a tmpfs with the file `/f`, made by the kernel with the
    default mode. -/
def oneFileRoot : Files Unit fun _ => TmpFs where
  vfs :=
    { mounts := MountTables.init ()
      root := some ⟨(), 0, false⟩
      states := fun _ => (TmpFs.fileSystem.create TmpFs.boot.new 0 (str "f") .file).2 }

def guest : Caller := ⟨7, { uid := 1000, gid := 1000, euid := 1000, egid := 1000 }⟩

def owner : Caller := ⟨8, { uid := 0, gid := 0, euid := 0, egid := 0 }⟩

/-- The guest may write neither `/f` nor the root directory, but it opens the file,
    writes it, and adds a link to the directory. -/
theorem guest_writes_unpermitted :
    mayWrite (fun _ => TmpFs.fileSystem) oneFileRoot guest () 1 = false ∧
    mayWrite (fun _ => TmpFs.fileSystem) oneFileRoot guest () 0 = false ∧
    ((exec (step fun _ => TmpFs.fileSystem)
        [(guest, .open (str "/f")), (guest, .write 0 (str "hi"))] oneFileRoot).map fun w =>
      ((w.vfs.states ()).read 1 0 8)) = some (some (str "hi")) ∧
    (oneFileRoot.vfs.states ()).read 1 0 8 = some [] ∧
    ((exec (step fun _ => TmpFs.fileSystem) [(guest, .symlinkat (str "/f") (str "/l"))]
        oneFileRoot).map fun w => ((w.vfs.states ()).readDir 0).map DirEntry.name) =
      some [str "f", str "l"] ∧
    ((oneFileRoot.vfs.states ()).readDir 0).map DirEntry.name = [str "f"] := by
  decide +kernel

def ownerCalls : List (Caller × Call) :=
  [(owner, .open (str "/f")), (owner, .write 0 (str "hi")), (owner, .symlinkat (str "/f") (str "/l"))]

theorem permitted_along_owner :
    Along (watch fun _ => TmpFs.fileSystem) (Permitted fun _ => TmpFs.fileSystem) ownerCalls
      ⟨oneFileRoot, []⟩ :=
  permitted_along (fun _ => rfl) ownerCalls (by decide +kernel)

end Zenus.Sys
