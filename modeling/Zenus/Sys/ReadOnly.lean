import Zenus.Sys.Effects
import Zenus.Sys.MountTmpfs
import Zenus.Fs.Ext2Law

/-! # Read-only mounts

A descriptor opened below a read-only mount refuses to write.  The calls that change a
file system by path, and `ftruncate`, do not look at the flag.  So a file system that
is only mounted read-only stays as it is in every run in which no such call gets past
its own checks to it.
-/

namespace Zenus.Sys

open Fs Lib.Run

section Sealing

variable {F : Type} {σ : F → Type} (ops : (f : F) → FileSystem (σ f))

/-- The file system is reachable only through mounts flagged `MS_RDONLY`: all its
    mounts are, the root of the VFS is another, and so are the descriptors on it. -/
structure Sealed (f : F) (w : Files F σ) : Prop where
  mounts : ∀ m ∈ w.vfs.mounts.root, m.fs = f → (m.flags &&& MS_RDONLY != 0) = true
  root : ∀ node, w.vfs.root = some node → node.fs ≠ f
  fds : ∀ h, w.fds.Holds h → h.fs = f → h.readOnly = true

/-- A call that does not look at the flag gets no further than its own checks: it leads
    elsewhere, or the caller may not do there what it asks for. -/
def Spares (f : F) (w : Files F σ) (call : Caller × Call) : Prop :=
  match call.2 with
  | .mkdir path | .unlink path | .rmdir path =>
    ∀ parent ∈ parentDir path, ∀ node ∈ openInNs ops w.vfs NS_ROOT parent, node.fs = f →
      mayModifyParent ((ops node.fs).stat (w.vfs.states node.fs) node.inode) call.1.cred = false
  | .symlinkat _ path =>
    ∀ parent ∈ parentDir path, ∀ node ∈ openInNs ops w.vfs NS_ROOT parent, node.fs ≠ f
  | .chmod path _ | .chown path _ _ =>
    ∀ node ∈ openInNs ops w.vfs NS_ROOT path, node.fs = f →
      owns call.1.cred.euid ((ops node.fs).stat (w.vfs.states node.fs) node.inode) = false
  | .truncate path _ =>
    ∀ node ∈ openInNs ops w.vfs NS_ROOT path, node.fs = f →
      accessCheck call.1.cred ((ops node.fs).stat (w.vfs.states node.fs) node.inode) true = false
  | .ftruncate fd _ =>
    ∀ entry ∈ fdGet w call.1 fd, entry.fs = some f →
      accessCheck call.1.cred ((ops f).stat (w.vfs.states f) entry.inode) true = false
  | _ => True

instance [DecidableEq F] (f : F) (w : Files F σ) (call : Caller × Call) :
    Decidable (Spares ops f w call) := by
  obtain ⟨caller, call⟩ := call
  cases call <;> delta Spares <;> infer_instance

variable {ops} {f : F} {w w' : Files F σ} {call : Caller × Call}

theorem Sealed.readOnly {path : Str} {node : VfsNode F} (sealed : Sealed f w)
    (found : openInNs ops w.vfs NS_ROOT path = some node) (here : node.fs = f) : node.readOnly = true := by
  rcases openInNs_node found with root | ⟨at', m, mount, fs, flag⟩
  · exact absurd here (sealed.root node root)
  · rw [flag]
    exact sealed.mounts m (Lib.Best.pick_some mount).1 (fs.symm.trans here)

/-- No change of a sealed file system gets past the flag of a descriptor, nor past the
    checks of a call that spares it. -/
theorem Sealed.not_runs {op : Op} (sealed : Sealed f w) (spares : Spares ops f w call) :
    ¬ Runs ops w call.1 call.2 f op := by
  obtain ⟨caller, call⟩ := call
  intro runs
  cases runs with
  | write found fs writable =>
    have held := FdTable.holds_of_get (fdGet_eq found).1 (congrArg (Option.map _) fs)
    exact absurd (sealed.fds _ held rfl) (by simp [writable])
  | mkdir above found may | unlink above found may | rmdir above found may =>
    exact absurd may (by simp [spares _ above _ found rfl])
  | symlinkat above found => exact spares _ above _ found rfl
  | chmod found may | chown found may | truncate found may =>
    exact absurd may (by simp [spares _ found rfl])
  | ftruncate found fs access => exact absurd access (by simp [spares _ found fs])

variable [DecidableEq F]

theorem Sealed.perform (sealed : Sealed f w) (spares : Spares ops f w call) :
    (call.2.perform ops w call.1).vfs.states f = w.vfs.states f ∧ Sealed f (call.2.perform ops w call.1) := by
  have fds : ∀ h, (call.2.perform ops w call.1).fds.Holds h → h.fs = f → h.readOnly = true := by
    intro h held here
    cases holds_perform held with
    | inl old => exact sealed.fds h old here
    | inr opened =>
      obtain ⟨path, node, _, found, _, rfl⟩ := opened
      exact sealed.readOnly found here
  rcases (perform_effected ops w call.1 call.2).vfs with same | ⟨g, op, runs, changed⟩
  · rw [same]
    exact ⟨rfl, same ▸ sealed.mounts, same ▸ sealed.root, fds⟩
  · have apart : f ≠ g := by
      rintro rfl
      exact sealed.not_runs spares runs
    rw [changed]
    refine ⟨Vfs.states_setState_of_ne apart .., ?_, ?_, fds⟩
    · rw [changed]
      exact sealed.mounts
    · rw [changed]
      exact sealed.root

/-- In every run that spares it, a file system that is only mounted read-only stays as
    it was. -/
theorem sealed_unchanged (sealed : Sealed f w) (calls : List (Caller × Call))
    (spares : Along (step ops) (Spares ops f) calls w)
    (run : exec (step ops) calls w = some w') : w'.vfs.states f = w.vfs.states f := by
  refine (invariant_along (fun v => v.vfs.states f = w.vfs.states f ∧ Sealed f v) ?_
    ⟨rfl, sealed⟩ spares run).1
  rintro v call v' ⟨same, sealed⟩ spares stepped
  cases stepped
  obtain ⟨kept, sealed'⟩ := sealed.perform spares
  exact ⟨kept.trans same, sealed'⟩

end Sealing

section Sample

/-- An ext2 device with nothing but its root directory. -/
def emptyImg : Lib.Image.Img := fun x =>
  match x with
  | 2056 => 4
  | 4224 => 0xED
  | 4225 => 0x41
  | _ => 0

def deviceStates : (f : FsId Unit) → FsState (fun _ => Lib.Image.Img) f
  | .tmpfs => TmpFs.boot.new
  | .other _ => emptyImg

def deviceOps : (f : FsId Unit) → FileSystem (FsState (fun _ => Lib.Image.Img) f) :=
  fsOps fun _ => Ext2Fs.smallFs.fileSystem

/-- A machine with a tmpfs as its root, and the device mounted read-only at `/mnt`. -/
def readOnlyMount : Files (FsId Unit) (FsState fun _ => Lib.Image.Img) where
  vfs :=
    { mounts := ((MountTables.init .tmpfs).mountInNsInner NS_ROOT (str "/mnt") (.other ()) MS_RDONLY).2
      root := some ⟨.tmpfs, 0, false⟩
      states := deviceStates }

theorem readOnlyMount_sealed : Sealed (.other ()) readOnlyMount := by
  refine ⟨by decide +kernel, ?_, ?_⟩
  · rintro node same
    rw [← Option.some.inj same]
    decide
  · rintro h ⟨i, entry, stored, _⟩
    exact absurd stored (by simp [readOnlyMount])

/-- The superuser, and a task without privileges. -/
def superuser : Caller := ⟨1, { uid := 0, gid := 0, euid := 0, egid := 0 }⟩
def visitor : Caller := ⟨2, { uid := 1000, gid := 1000, euid := 1000, egid := 1000 }⟩

/-- Calls that meet the flag, their own checks, or another file system. -/
def sparingCalls : List (Caller × Call) :=
  [(superuser, .open (str "/mnt")), (superuser, .write 0 (str "hi")), (visitor, .chmod (str "/mnt") 0o777),
    (superuser, .mkdir (str "/d"))]

theorem sealed_unchanged_sparing :
    ∃ w', exec (step deviceOps) sparingCalls readOnlyMount = some w' ∧
      w'.vfs.states (.other ()) = readOnlyMount.vfs.states (.other ()) := by
  obtain ⟨w', run, _⟩ : ∃ w', exec (step deviceOps) sparingCalls readOnlyMount = some w' ∧ True :=
    exec_total (fun _ => True) (fun _ _ _ => ⟨_, rfl, trivial⟩) sparingCalls trivial
  exact ⟨w', run, sealed_unchanged readOnlyMount_sealed sparingCalls (by decide +kernel) run⟩

/-- `chmod` changes the mode of the root directory of the device. -/
theorem chmod_through_readOnly :
    Sealed (.other ()) readOnlyMount ∧
    (Ext2Fs.smallFs.stat (readOnlyMount.vfs.states (.other ())) 2).mode = 0x41ED ∧
    (exec (step deviceOps) [(superuser, .chmod (str "/mnt") 0o777)] readOnlyMount).map
      (fun w => (Ext2Fs.smallFs.stat (w.vfs.states (.other ())) 2).mode) = some 0x41FF :=
  ⟨readOnlyMount_sealed, by decide +kernel⟩

end Sample

end Zenus.Sys
