import Zenus.Sys.Files
import Zenus.Lib.Run

/-! # What a call can do

Every call either leaves the file systems alone or runs one operation on one of them,
after its own checks; and it adds no descriptor on a file but the one that `open`
makes.  What holds of runs is derived from these two facts.
-/

namespace Zenus.Sys

open Fs Option FdTable Call

/-- The changes a call can ask of a file system. -/
inductive Op where
  | write (inode offset : Nat) (buf : List UInt8)
  | create (parent : Nat) (name : Str) (fileType : FileType)
  | unlink (parent : Nat) (name : Str)
  | symlink (parent : Nat) (name target : Str)
  | chmod (inode mode : Nat)
  | chown (inode uid gid : Nat)
  | truncate (inode size : Nat)

def Op.apply {σ : Type} (fs : FileSystem σ) (s : σ) : Op → σ
  | .write inode offset buf => (fs.write s inode offset buf).2
  | .create parent name fileType => (fs.create s parent name fileType).2
  | .unlink parent name => (fs.unlink s parent name).2
  | .symlink parent name target => (fs.symlink s parent name target).2
  | .chmod inode mode => (fs.chmod s inode mode).2
  | .chown inode uid gid => (fs.chown s inode uid gid).2
  | .truncate inode size => (fs.truncate s inode size).2

/-- A file as a descriptor holds it. -/
structure Handle (F : Type) where
  task : Nat
  fs : F
  inode : Nat
  readOnly : Bool

def FdEntry.handle {F : Type} (entry : FdEntry F) : Option (Handle F) :=
  entry.fs.map fun f => ⟨entry.taskId, f, entry.inode, entry.readOnly⟩

def FdTable.Holds {F : Type} (table : FdTable F) (h : Handle F) : Prop :=
  ∃ i entry, table i = some entry ∧ entry.handle = some h

/-- Where an entry comes from: a file just opened, a new pipe, or an entry of the table
    before, whose file or socket it may have. -/
inductive FdEntry.Origin {F : Type} (table : FdTable F) (opened : Handle F → Prop) (entry : FdEntry F) : Prop
  | opened {h : Handle F} (good : opened h) (handle : entry.handle = some h) (socket : entry.socketId = none)
  | pipe (handle : entry.handle = none) (socket : entry.socketId = none)
  | copied {i : Fin MAX_FDS} {source : FdEntry F} (stored : table i = some source)
      (handle : entry.handle = none ∨ entry.handle = source.handle)
      (socket : entry.socketId = none ∨ entry.socketId = source.socketId)

/-- Every entry of the second table comes from the first. -/
def FdTable.From {F : Type} (opened : Handle F → Prop) (table table' : FdTable F) : Prop :=
  ∀ i entry, table' i = some entry → entry.Origin table opened

section Tables

variable {F : Type} {table table' table'' : FdTable F} {entry : FdEntry F} {h : Handle F} {fd n taskId id : Nat}
  {opened : Handle F → Prop} {new : Option (FdEntry F)} {i : Fin MAX_FDS}

theorem FdTable.get_some (found : table.get fd = some entry) :
    ∃ i : Fin MAX_FDS, fd = i ∧ table i = some entry := by
  unfold get at found
  split at found
  · next known => exact ⟨⟨fd, known⟩, rfl, found⟩
  · cases found

theorem FdTable.holds_of_get (found : table.get fd = some entry) (handle : entry.handle = some h) :
    table.Holds h := by
  obtain ⟨i, -, stored⟩ := get_some found
  exact ⟨i, entry, stored, handle⟩

theorem FdTable.From.refl (table : FdTable F) : table.From opened table :=
  fun _ _ stored => .copied stored (.inr rfl) (.inr rfl)

section

variable (before : table.From opened table') (origin : ∀ entry, new = some entry → entry.Origin table opened)

include before origin

theorem FdTable.From.update :
    table.From opened (Function.update table' i new) := by
  intro j entry stored
  rw [Function.update_apply] at stored
  split at stored
  · exact origin entry stored
  · exact before j entry stored

theorem FdTable.From.set : table.From opened (table'.set fd new) := by
  unfold FdTable.set
  split
  · exact before.update origin
  · exact before

end

theorem FdTable.From.put (before : table.From opened table') (origin : entry.Origin table opened)
    (done : table'.put entry = some (n, table'')) : table.From opened table'' := by
  obtain ⟨i, _, same⟩ := map_eq_some_iff.mp done
  cases same
  refine before.update fun new stored => ?_
  rw [← some.inj stored]
  exact origin

theorem FdTable.from_dup (done : table.dup taskId fd = some (n, table')) : table.From opened table' := by
  unfold dup at done
  split at done
  · cases done
  · next entry found =>
    obtain ⟨i, -, stored⟩ := get_some found
    split at done
    · cases done
    · next owner =>
      split at done
      · exact (From.refl table).put (.pipe rfl rfl) done
      · next kind => exact (From.refl table).put (.copied stored (.inl rfl) (.inr kind.symm)) done
      · split at done
        · cases done
        · next kind =>
          refine (From.refl table).put (.copied stored (.inr ?_) (.inl rfl)) done
          rw [FdEntry.handle, FdEntry.handle, kind, not_not.mp owner]

theorem FdTable.From.holds (origins : table.From opened table') (held : table'.Holds h) :
    table.Holds h ∨ opened h := by
  obtain ⟨i, entry, stored, handle⟩ := held
  cases origins i entry stored with
  | opened good handle' _ => exact .inr (some.inj (handle.symm.trans handle') ▸ good)
  | pipe handle' _ => cases handle.symm.trans handle'
  | copied source handle' _ =>
    rcases handle' with none | same
    · cases handle.symm.trans none
    · exact .inl ⟨_, _, source, same ▸ handle⟩

theorem FdTable.From.socket (origins : table.From opened table')
    (stored : table' i = some entry) (socket : entry.socketId = some id) :
    ∃ j source, table j = some source ∧ source.socketId = some id := by
  cases origins i entry stored with
  | opened _ _ none | pipe _ none => cases socket.symm.trans none
  | copied source _ socket' =>
    rcases socket' with none | same
    · cases socket.symm.trans none
    · exact ⟨_, _, source, same ▸ socket⟩

end Tables

section Descriptors

variable {F : Type} {σ : F → Type} {ops : (f : F) → FileSystem (σ f)}
variable {w : Files F σ} {caller : Caller} {h : Handle F} {opened : Handle F → Prop}
  {fd pos len offset whence oldfd newfd : Nat} {path : Str} {entry : FdEntry F}

theorem statInNs_eq {stat : FileStat} {node : VfsNode F} (found : openInNs ops w.vfs NS_ROOT path = some node)
    (seen : statInNs ops w.vfs NS_ROOT path = some stat) :
    (ops node.fs).stat (w.vfs.states node.fs) node.inode = stat := by
  rw [statInNs, found] at seen
  exact some.inj seen

/-- The call opens the file: the path resolves to it, and the caller may read it. -/
def Opens (ops : (f : F) → FileSystem (σ f)) (w : Files F σ) (caller : Caller) (call : Call)
    (h : Handle F) : Prop :=
  ∃ path node, call = .open path ∧ openInNs ops w.vfs NS_ROOT path = some node ∧
    accessCheck caller.cred ((ops node.fs).stat (w.vfs.states node.fs) node.inode) false = true ∧
    h = ⟨caller.task, node.fs, node.inode, node.readOnly⟩

theorem fdGet_eq (found : fdGet w caller fd = some entry) :
    w.fds.get fd = some entry ∧ entry.taskId = caller.task := by
  obtain ⟨stored, owner⟩ := filter_eq_some_iff.mp found
  exact ⟨stored, beq_iff_eq.mp owner⟩

theorem from_moved (found : fdGet w caller fd = some entry) :
    w.fds.From opened (w.fds.set fd (some { entry with offset := pos })) := by
  refine (FdTable.From.refl w.fds).set fun new stored => ?_
  obtain ⟨i, -, held⟩ := get_some (fdGet_eq found).1
  rw [← some.inj stored]
  exact .copied held (.inr rfl) (.inr rfl)

/-- The file systems are as before, and every entry of the table has its origin. -/
structure Quiet (opened : Handle F → Prop) (w w' : Files F σ) : Prop where
  vfs : w'.vfs = w.vfs
  fds : w.fds.From opened w'.fds

theorem Quiet.refl (w : Files F σ) : Quiet opened w w := ⟨rfl, .refl _⟩

theorem quiet_closed : Quiet opened w (closeFd w fd).2 := by
  unfold closeFd
  split
  · exact .refl w
  · exact ⟨rfl, (FdTable.From.refl _).set fun _ no => by cases no⟩

theorem quiet_close : Quiet opened w (fdClose w caller fd).2 := by
  unfold fdClose
  split
  · exact .refl w
  · exact quiet_closed

theorem quiet_open : Quiet (Opens ops w caller (.open path)) w (fdOpen ops w caller path).2 := by
  unfold fdOpen
  split
  · exact .refl w
  · next node found =>
    dsimp only
    split
    · next access =>
      split
      · exact .refl w
      · next opened done =>
        exact ⟨rfl, (FdTable.From.refl _).put (.opened ⟨path, node, rfl, found, access, rfl⟩ rfl rfl) done⟩
    · exact .refl w

theorem quiet_read : Quiet opened w (fdRead ops w caller fd len).2 := by
  unfold fdRead
  split
  · exact ⟨rfl, .refl _⟩
  · split
    · exact .refl w
    · next entry found =>
      split
      · split <;> exact ⟨rfl, .refl _⟩
      · split
        · exact .refl w
        · split
          · exact .refl w
          · exact ⟨rfl, from_moved found⟩

theorem quiet_seek : Quiet opened w (fdSeek ops w caller fd offset whence).2 := by
  unfold fdSeek
  split
  · exact .refl w
  · next entry found =>
    split
    · exact .refl w
    · split
      · exact .refl w
      · exact ⟨rfl, from_moved found⟩

theorem quiet_dup : Quiet opened w (sysDup w caller fd).2 := by
  unfold sysDup fdDup
  split
  · dsimp only
    split
    · exact .refl w
    · next copied done => exact ⟨rfl, from_dup done⟩
  · exact .refl w

theorem quiet_dup2 : Quiet opened w (fdDup2 w caller oldfd newfd).2 := by
  unfold fdDup2
  split
  · exact .refl w
  · split
    · exact .refl w
    · next entry found =>
      have closed : Quiet opened w (closeFd w newfd).2 := quiet_closed
      refine ⟨closed.vfs, closed.fds.set fun new stored => ?_⟩
      obtain ⟨i, -, held⟩ := get_some (fdGet_eq found).1
      rw [← some.inj stored]
      exact .copied held (.inr rfl) (.inr rfl)

theorem quiet_pipe : Quiet opened w (fdPipe w caller).2 := by
  unfold fdPipe
  split
  · exact .refl w
  · dsimp only
    split
    · exact .refl w
    · next readEnd first =>
      have made : w.fds.From opened readEnd.2 := (FdTable.From.refl w.fds).put (.pipe rfl rfl) first
      split
      · exact ⟨rfl, made⟩
      · next writeEnd second => exact ⟨rfl, made.put (.pipe rfl rfl) second⟩

end Descriptors

section Calls

variable {F : Type} {σ : F → Type} [DecidableEq F] (ops : (f : F) → FileSystem (σ f))

/-- In this state the call passes its checks and asks `f` for the change. -/
inductive Runs (w : Files F σ) (caller : Caller) : Call → F → Op → Prop
  | write {fd : Nat} {buf : List UInt8} {entry : FdEntry F} {f : F}
      (found : fdGet w caller fd = some entry) (fs : entry.fs = some f)
      (writable : entry.readOnly = false) :
      Runs w caller (.write fd buf) f (.write entry.inode entry.offset buf)
  | mkdir {path parent : Str} {node : VfsNode F} (above : parentDir path = some parent)
      (found : openInNs ops w.vfs NS_ROOT parent = some node)
      (may : mayModifyParent ((ops node.fs).stat (w.vfs.states node.fs) node.inode) caller.cred = true) :
      Runs w caller (.mkdir path) node.fs (.create node.inode (fileName path) .directory)
  | unlink {path parent : Str} {node : VfsNode F} (above : parentDir path = some parent)
      (found : openInNs ops w.vfs NS_ROOT parent = some node)
      (may : mayModifyParent ((ops node.fs).stat (w.vfs.states node.fs) node.inode) caller.cred = true) :
      Runs w caller (.unlink path) node.fs (.unlink node.inode (fileName path))
  | rmdir {path parent : Str} {node : VfsNode F} (above : parentDir path = some parent)
      (found : openInNs ops w.vfs NS_ROOT parent = some node)
      (may : mayModifyParent ((ops node.fs).stat (w.vfs.states node.fs) node.inode) caller.cred = true) :
      Runs w caller (.rmdir path) node.fs (.unlink node.inode (fileName path))
  | symlinkat {target path parent : Str} {node : VfsNode F} (above : parentDir path = some parent)
      (found : openInNs ops w.vfs NS_ROOT parent = some node) :
      Runs w caller (.symlinkat target path) node.fs (.symlink node.inode (fileName path) target)
  | chmod {path : Str} {mode : Nat} {node : VfsNode F}
      (found : openInNs ops w.vfs NS_ROOT path = some node)
      (owner : owns caller.cred.euid ((ops node.fs).stat (w.vfs.states node.fs) node.inode) = true) :
      Runs w caller (.chmod path mode) node.fs (.chmod node.inode (mode % 2 ^ 16))
  | chown {path : Str} {owner group uid gid : Nat} {node : VfsNode F}
      (found : openInNs ops w.vfs NS_ROOT path = some node)
      (may : owns caller.cred.euid ((ops node.fs).stat (w.vfs.states node.fs) node.inode) = true) :
      Runs w caller (.chown path owner group) node.fs (.chown node.inode uid gid)
  | truncate {path : Str} {length : Nat} {node : VfsNode F}
      (found : openInNs ops w.vfs NS_ROOT path = some node)
      (access : accessCheck caller.cred ((ops node.fs).stat (w.vfs.states node.fs) node.inode) true = true) :
      Runs w caller (.truncate path length) node.fs (.truncate node.inode length)
  | ftruncate {fd length : Nat} {entry : FdEntry F} {f : F}
      (found : fdGet w caller fd = some entry) (fs : entry.fs = some f)
      (access : accessCheck caller.cred ((ops f).stat (w.vfs.states f) entry.inode) true = true) :
      Runs w caller (.ftruncate fd length) f (.truncate entry.inode length)

variable {ops} {w w' : Files F σ} {caller : Caller} {call : Call} {f : F} {op : Op} {h : Handle F}

/-- The file systems after a call: as before, or with one change that the call runs. -/
def Changed (ops : (f : F) → FileSystem (σ f)) (w : Files F σ) (caller : Caller) (call : Call)
    (vfs : Vfs F σ) : Prop :=
  vfs = w.vfs ∨
    ∃ f op, Runs ops w caller call f op ∧ vfs = w.vfs.setState f (op.apply (ops f) (w.vfs.states f))

/-- What a call comes to: at most one change of a file system, and entries of the table
    with their origin. -/
structure Effected (ops : (f : F) → FileSystem (σ f)) (w : Files F σ) (caller : Caller) (call : Call)
    (w' : Files F σ) : Prop where
  vfs : Changed ops w caller call w'.vfs
  fds : w.fds.From (Opens ops w caller call) w'.fds

theorem Effected.same : Effected ops w caller call w := ⟨.inl rfl, .refl _⟩

theorem Quiet.effected (quiet : Quiet (Opens ops w caller call) w w') :
    Effected ops w caller call w' := ⟨.inl quiet.vfs, quiet.fds⟩

theorem onParent_cases (ops : (f : F) → FileSystem (σ f)) (w : Files F σ) (path : Str)
    (change : (f : F) → σ f → Nat → Str → Bool × σ f) :
    (onParent ops w.vfs NS_ROOT path change).2 = w.vfs ∨ ∃ parent node, parentDir path = some parent ∧
        openInNs ops w.vfs NS_ROOT parent = some node ∧
        (onParent ops w.vfs NS_ROOT path change).2 =
          w.vfs.setState node.fs (change node.fs (w.vfs.states node.fs) node.inode (fileName path)).2 := by
  unfold onParent
  split
  · exact .inl rfl
  · next parent above =>
    split
    · exact .inl rfl
    · next node found => exact .inr ⟨parent, node, above, found, rfl⟩

variable (path : Str)

theorem vfs_mkdir :
    Changed ops w caller (.mkdir path) (createDirPermitted ops w.vfs NS_ROOT path caller.cred).2 := by
  unfold createDirPermitted
  split
  · exact .inl rfl
  · next parent above =>
    split
    · exact .inl rfl
    · next stat seen =>
      split
      · next may =>
        rcases onParent_cases ops w path _ with same | ⟨above', node, here, found, changed⟩
        · exact .inl same
        · cases above.symm.trans here
          rw [← statInNs_eq found seen] at may
          exact .inr ⟨node.fs, _, .mkdir above found may, changed⟩
      · exact .inl rfl

theorem vfs_remove (runs : ∀ parent node, parentDir path = some parent →
      openInNs ops w.vfs NS_ROOT parent = some node →
      mayModifyParent ((ops node.fs).stat (w.vfs.states node.fs) node.inode) caller.cred = true →
      Runs ops w caller call node.fs (.unlink node.inode (fileName path))) :
    Changed ops w caller call (removePermitted ops w.vfs NS_ROOT path caller.cred).2 := by
  unfold removePermitted
  split
  · exact .inl rfl
  · next parent above =>
    split
    · exact .inl rfl
    · split
      · exact .inl rfl
      · next stat seen =>
        split
        · next may =>
          rcases onParent_cases ops w path _ with same | ⟨above', node, here, found, changed⟩
          · exact .inl same
          · cases above.symm.trans here
            rw [← statInNs_eq found seen] at may
            exact .inr ⟨node.fs, _, runs parent node above found may, changed⟩
        · exact .inl rfl

theorem vfs_chmod (mode : Nat) :
    Changed ops w caller (.chmod path mode) (vfsChmod ops w caller path mode).2.vfs := by
  unfold vfsChmod chmodPermitted
  split
  · exact .inl rfl
  · next node found =>
    dsimp only
    split
    · next owner => exact .inr ⟨node.fs, _, .chmod found owner, rfl⟩
    · exact .inl rfl

theorem owns_of_chown {euid : Nat} {stat : FileStat} {changes : Bool}
    (first : ¬ (changes && euid != 0) = true) (second : ¬ (!changes && !owns euid stat) = true) :
    owns euid stat = true := by
  cases changes with
  | true =>
    have root : euid = 0 := by simpa using first
    rw [root]
    rfl
  | false => simpa using second

theorem vfs_chown (owner group : Nat) :
    Changed ops w caller (.chown path owner group) (vfsChown ops w caller path owner group).2.vfs := by
  unfold vfsChown chownPermitted
  split
  · exact .inl rfl
  · next node found =>
    dsimp only
    split
    · exact .inl rfl
    · next first =>
      split
      · exact .inl rfl
      · next second =>
        exact .inr ⟨node.fs, _, .chown found (owns_of_chown first second), rfl⟩

theorem truncateInode_effected (inode : Nat) (fileType : FileType) (length : Nat)
    (runs : accessCheck caller.cred ((ops f).stat (w.vfs.states f) inode) true = true →
      Runs ops w caller call f (.truncate inode length)) :
    Effected ops w caller call (truncateInode ops w caller f inode fileType length).2 := by
  unfold truncateInode
  split
  · exact .same
  · split
    · next access => exact ⟨.inr ⟨f, _, runs access, rfl⟩, .refl _⟩
    · exact .same

theorem write_effected (fd : Nat) (buf : List UInt8) :
    Effected ops w caller (.write fd buf) (sysWrite ops w caller fd buf).2 := by
  unfold sysWrite
  split
  · exact .same
  · split
    · exact .same
    · unfold fdWrite
      split
      · exact ⟨.inl rfl, .refl _⟩
      · split
        · exact .same
        · next entry found =>
          split
          · split <;> exact ⟨.inl rfl, .refl _⟩
          · split
            · exact .same
            · next writable =>
              split
              · exact .same
              · next f fs =>
                refine ⟨.inr ⟨f, _, .write found fs (Bool.eq_false_iff.mpr writable), rfl⟩, ?_⟩
                dsimp only
                split
                · exact from_moved found
                · exact .refl _

theorem perform_effected (ops : (f : F) → FileSystem (σ f)) (w : Files F σ) (caller : Caller) (call : Call) :
    Effected ops w caller call (call.perform ops w caller) := by
  cases call with
  | «open» path => exact quiet_open.effected
  | close fd =>
    unfold perform sysClose
    dsimp only
    split
    · exact .same
    · exact quiet_close.effected
  | read fd len => exact quiet_read.effected
  | write fd buf => exact write_effected fd buf
  | seek fd offset whence => exact quiet_seek.effected
  | dup fd => exact quiet_dup.effected
  | dup2 oldfd newfd => exact quiet_dup2.effected
  | pipe => exact quiet_pipe.effected
  | mkdir path => exact ⟨vfs_mkdir path, .refl _⟩
  | unlink path => exact ⟨vfs_remove path fun _ _ above found may => .unlink above found may, .refl _⟩
  | rmdir path =>
    unfold perform vfsRmdir
    dsimp only
    split
    · exact .same
    · split
      · exact ⟨vfs_remove path fun _ _ above found may => .rmdir above found may, .refl _⟩
      · exact .same
  | symlinkat target path =>
    refine ⟨?_, .refl _⟩
    rcases onParent_cases ops w path _ with same | ⟨parent, node, above, found, changed⟩
    · exact .inl same
    · exact .inr ⟨node.fs, _, .symlinkat above found, changed⟩
  | chmod path mode => exact ⟨vfs_chmod path mode, .refl _⟩
  | chown path owner group => exact ⟨vfs_chown path owner group, .refl _⟩
  | truncate path length =>
    unfold perform sysTruncate
    dsimp only
    split
    · exact .same
    · next node found => exact truncateInode_effected _ _ _ fun access => .truncate found access
  | ftruncate fd length =>
    unfold perform sysFtruncate
    dsimp only
    split
    · exact .same
    · next entry found =>
      split
      · exact .same
      · next f fs => exact truncateInode_effected _ _ _ fun access => .ftruncate found fs access

theorem holds_perform (held : (call.perform ops w caller).fds.Holds h) :
    w.fds.Holds h ∨ Opens ops w caller call h :=
  (perform_effected ops w caller call).fds.holds held

end Calls

end Zenus.Sys
