import Zenus.Fs.Mount

/-! # Path resolution and the operations on paths

The file systems of a machine are given by their handles `F`, the state `σ f` of
each and its operations.  A path picks a mount by its text; the rest of the path is
then cut into components and looked up inside that one file system.
-/

namespace Zenus.Fs

open Function

/-- The byte `.`. -/
def DOT : UInt8 := 46

def MAX_PATH_SEGMENTS : Nat := 32
def MAX_SYMLINK_DEPTH : Nat := 8
def MAX_RESOLVED_PATH : Nat := 256

structure VfsNode (F : Type) where
  fs : F
  inode : Nat
  readOnly : Bool
  deriving DecidableEq

/-- The statics of the VFS with the states of the file systems behind it. -/
structure Vfs (F : Type) (σ : F → Type) where
  mounts : MountTables F
  root : Option (VfsNode F)
  states : (f : F) → σ f

/-- `trim_start_matches('/')` -/
def trimStart (path : Str) : Str := path.dropWhile (· == SLASH)

/-- `rfind('/')` -/
def rfindSlash (path : Str) : Option Nat :=
  (path.reverse.findIdx? (· == SLASH)).map fun i => path.length - 1 - i

def parentDir (path : Str) : Option Str :=
  let trimmed := trimEnd path
  if trimmed.isEmpty then none
  else
    match rfindSlash trimmed with
    | some 0 => some [SLASH]
    | some pos => some (trimmed.take pos)
    | none => some [SLASH]

def fileName (path : Str) : Str :=
  let trimmed := trimEnd path
  match rfindSlash trimmed with
  | some pos => trimmed.drop (pos + 1)
  | none => trimmed

/-- One part of a path.  Nothing is looked up yet, so the source's test whether it is
    still at the root of the mount always passes, and `..` never drops the first
    segment. -/
def pushPart (segs : List Str) (part : Str) : Option (List Str) :=
  if part.isEmpty || part == [DOT] then some segs
  else if part == [DOT, DOT] then some (if segs.length = 1 then segs else segs.dropLast)
  else if MAX_PATH_SEGMENTS ≤ segs.length then none
  else some (segs ++ [part])

def segments (relPath : Str) : Option (List Str) :=
  ((trimStart relPath).splitOn SLASH).foldlM pushPart []

def relativePath (path mountPrefix : Str) : Str :=
  if mountPrefix.isEmpty || mountPrefix == [SLASH] then path
  else if mountPrefix.isPrefixOf path then
    if (path.drop mountPrefix.length).isEmpty then [SLASH] else path.drop mountPrefix.length
  else path

/-- A component of the path behind a link, with a slash before it where there is none. -/
def pushTail (buf part : Str) : Str :=
  if buf.getLast? = some SLASH then buf ++ part else buf ++ SLASH :: part

/-- Build the absolute path that a link target names. -/
def joinLinkTarget (mountPrefix : Str) (done : List Str) (target : Str) (tail : List Str) :
    Option Str :=
  if target.isEmpty then none
  else
    let start : Str :=
      if target.head? = some SLASH then []
      else SLASH :: ((mountPrefix.splitOn SLASH ++ done).filter (!·.isEmpty)).flatMap (· ++ [SLASH])
    let joined := tail.foldl pushTail (start ++ target)
    if MAX_RESOLVED_PATH < joined.length then none else if utf8 joined then some joined else none

section Resolution

variable {F : Type} {σ : F → Type} (ops : (f : F) → FileSystem (σ f)) (v : Vfs F σ)

/-- Look up the segments one by one; a link that is followed restarts with the path
    it expands to. -/
def walk (f : F) (readOnly : Bool) (mountPrefix : Str) (followFinal : Bool)
    (restart : Str → Option (VfsNode F)) (done : List Str) (inode : Nat) :
    List Str → Option (VfsNode F)
  | [] => some ⟨f, inode, readOnly⟩
  | part :: tail =>
    match (ops f).lookup (v.states f) inode part with
    | none => none
    | some next =>
      if ((ops f).stat (v.states f) next).fileType = .symlink ∧ (followFinal ∨ tail ≠ []) then
        match (ops f).readlink (v.states f) next MAX_RESOLVED_PATH with
        | none => none
        | some target =>
          if utf8 target then
            match joinLinkTarget mountPrefix done target tail with
            | none => none
            | some joined => restart joined
          else none
      else walk f readOnly mountPrefix followFinal restart (done ++ [part]) next tail

/-- Resolve `path`, with `restart` for the links on the way. -/
def resolve (nsId : Nat) (followFinal : Bool) (restart : Str → Option (VfsNode F)) (path : Str) :
    Option (VfsNode F) :=
  if path == [SLASH] || path.isEmpty then v.root
  else
    match v.mounts.findMountInTable nsId path with
    | none => none
    | some m =>
      let readOnly := m.flags &&& MS_RDONLY != 0
      let relPath := relativePath path m.path
      if relPath == [SLASH] || relPath.isEmpty then some ⟨m.fs, (ops m.fs).rootInode, readOnly⟩
      else
        match segments relPath with
        | none => none
        | some segs =>
          walk ops v m.fs readOnly m.path followFinal restart [] (ops m.fs).rootInode segs

def openInNsDepth (nsId : Nat) (followFinal : Bool) : (depth : Nat) → Str → Option (VfsNode F)
  | 0 => resolve ops v nsId followFinal fun _ => none
  | depth + 1 => resolve ops v nsId followFinal (openInNsDepth nsId followFinal depth)

def openInNs (nsId : Nat) (path : Str) : Option (VfsNode F) :=
  openInNsDepth ops v nsId true MAX_SYMLINK_DEPTH path

def statInNs (nsId : Nat) (path : Str) : Option FileStat :=
  (openInNs ops v nsId path).map fun node => (ops node.fs).stat (v.states node.fs) node.inode

end Resolution

section Nodes

variable {F : Type} {σ : F → Type} {ops : (f : F) → FileSystem (σ f)} {v : Vfs F σ}
variable {nsId inode depth : Nat} {followFinal readOnly : Bool} {node : VfsNode F} {path mountPrefix : Str}
  {segs done : List Str} {restart : Str → Option (VfsNode F)}

/-- The node is the root of the VFS, or in a file system mounted in the namespace, with
    the flag of that mount. -/
def Mounted (v : Vfs F σ) (nsId : Nat) (node : VfsNode F) : Prop :=
  v.root = some node ∨ ∃ path m, v.mounts.findMountInTable nsId path = some m ∧
    node.fs = m.fs ∧ node.readOnly = (m.flags &&& MS_RDONLY != 0)

theorem walk_node {f : F}
    (found : walk ops v f readOnly mountPrefix followFinal restart done inode segs = some node) :
    (node.fs = f ∧ node.readOnly = readOnly) ∨ ∃ joined, restart joined = some node := by
  induction segs generalizing done inode with
  | nil =>
    cases found
    exact .inl ⟨rfl, rfl⟩
  | cons part tail ih =>
    rw [walk] at found
    split at found
    · simp at found
    · split at found
      · split at found
        · simp at found
        · split at found
          · split at found
            · simp at found
            · exact .inr ⟨_, found⟩
          · simp at found
      · exact ih found

theorem resolve_node (found : resolve ops v nsId followFinal restart path = some node) :
    Mounted v nsId node ∨ ∃ joined, restart joined = some node := by
  unfold resolve at found
  split at found
  · exact .inl (.inl found)
  · split at found
    · simp at found
    · next m mount =>
      dsimp only at found
      split at found
      · cases found
        exact .inl (.inr ⟨path, m, mount, rfl, rfl⟩)
      · split at found
        · simp at found
        · refine (walk_node found).imp_left fun inside => ?_
          exact .inr ⟨path, m, mount, inside⟩

theorem openInNsDepth_node
    (found : openInNsDepth ops v nsId followFinal depth path = some node) : Mounted v nsId node := by
  induction depth generalizing path with
  | zero =>
    refine (resolve_node found).resolve_right ?_
    rintro ⟨_, restarted⟩
    simp at restarted
  | succ depth ih =>
    rcases resolve_node found with mounted | ⟨joined, again⟩
    · exact mounted
    · exact ih again

theorem openInNs_node (found : openInNs ops v nsId path = some node) :
    Mounted v nsId node :=
  openInNsDepth_node found

end Nodes

def S_IRUSR : Nat := 0o400
def S_IWUSR : Nat := 0o200
def S_IXUSR : Nat := 0o100
def S_IRGRP : Nat := 0o040
def S_IWGRP : Nat := 0o020
def S_IXGRP : Nat := 0o010
def S_IROTH : Nat := 0o004
def S_IWOTH : Nat := 0o002
def S_IXOTH : Nat := 0o001

/-- The identity a permission decision is made against. -/
structure Credentials where
  uid : Nat
  gid : Nat
  euid : Nat
  egid : Nat
  dacOverride : Bool := false
  dacReadSearch : Bool := false

/-- One class of permission bits in `access_check`: the read, write and search bits. -/
def classAllows (mode read write search : Nat) (fileType : FileType) (wantWrite : Bool) : Bool :=
  if wantWrite then
    if mode &&& write == 0 then false
    else if mode &&& search == 0 && fileType == .directory then false
    else true
  else mode &&& read != 0

def accessCheck (cred : Credentials) (stat : FileStat) (wantWrite : Bool) : Bool :=
  if cred.dacOverride then true
  else if cred.dacReadSearch && !wantWrite then true
  else if cred.euid = stat.uid then
    classAllows stat.mode S_IRUSR S_IWUSR S_IXUSR stat.fileType wantWrite
  else if cred.egid = stat.gid then
    classAllows stat.mode S_IRGRP S_IWGRP S_IXGRP stat.fileType wantWrite
  else classAllows stat.mode S_IROTH S_IWOTH S_IXOTH stat.fileType wantWrite

def owns (euid : Nat) (stat : FileStat) : Bool := euid == 0 || euid == stat.uid

def accessCheckBits (cred : Credentials) (stat : FileStat) (wantRead wantWrite wantExec : Bool) : Bool :=
  if cred.dacOverride then true
  else if cred.dacReadSearch && !wantWrite && (!wantExec || stat.fileType == .directory) then true
  else
    let bits :=
      if cred.euid = stat.uid then (S_IRUSR, S_IWUSR, S_IXUSR)
      else if cred.egid = stat.gid then (S_IRGRP, S_IWGRP, S_IXGRP)
      else (S_IROTH, S_IWOTH, S_IXOTH)
    !(wantRead && stat.mode &&& bits.1 == 0) && !(wantWrite && stat.mode &&& bits.2.1 == 0) &&
      !(wantExec && stat.mode &&& bits.2.2 == 0)

/-- May the caller change the entries of the directory with this status? -/
def mayModifyParent (parentStat : FileStat) (cred : Credentials) : Bool :=
  if cred.dacOverride then true
  else if parentStat.fileType ≠ .directory then false
  else accessCheckBits cred parentStat false true true

section Changes

variable {F : Type} {σ : F → Type} [DecidableEq F] (ops : (f : F) → FileSystem (σ f)) (v : Vfs F σ)

def Vfs.setState (f : F) (s : σ f) : Vfs F σ := { v with states := update v.states f s }

@[simp] theorem Vfs.states_setState (v : Vfs F σ) (f : F) (s : σ f) : (v.setState f s).states f = s :=
  update_self ..

theorem Vfs.states_setState_of_ne {f g : F} (apart : g ≠ f) (v : Vfs F σ) (s : σ f) :
    (v.setState f s).states g = v.states g :=
  update_of_ne apart ..

/-- What `create`, `symlink` and `unlink` share: run an operation of the parent's file
    system on the parent of `path` and the last name in it. -/
def onParent (nsId : Nat) (path : Str) (change : (f : F) → σ f → Nat → Str → Bool × σ f) :
    Bool × Vfs F σ :=
  match parentDir path with
  | none => (false, v)
  | some parent =>
    match openInNs ops v nsId parent with
    | none => (false, v)
    | some node =>
      let result := change node.fs (v.states node.fs) node.inode (fileName path)
      (result.1, v.setState node.fs result.2)

/-- `create_file_in_ns` and `create_dir_in_ns` by the type they create. -/
def createInNs (nsId : Nat) (path : Str) (fileType : FileType) : Bool × Vfs F σ :=
  onParent ops v nsId path fun f s inode name =>
    let result := (ops f).create s inode name fileType
    (result.1.isSome, result.2)

def createFileInNs (nsId : Nat) (path : Str) : Bool × Vfs F σ := createInNs ops v nsId path .file

def createDirInNs (nsId : Nat) (path : Str) : Bool × Vfs F σ := createInNs ops v nsId path .directory

def symlinkInNs (nsId : Nat) (path target : Str) : Bool × Vfs F σ :=
  onParent ops v nsId path fun f s inode name =>
    let result := (ops f).symlink s inode name target
    (result.1.isSome, result.2)

def removeInNs (nsId : Nat) (path : Str) : Bool × Vfs F σ :=
  onParent ops v nsId path fun f s inode name => (ops f).unlink s inode name

def createDirPermitted (nsId : Nat) (path : Str) (cred : Credentials) : Bool × Vfs F σ :=
  match parentDir path with
  | none => (false, v)
  | some parent =>
    match statInNs ops v nsId parent with
    | none => (false, v)
    | some stat =>
      if mayModifyParent stat cred then createDirInNs ops v nsId path else (false, v)

def removePermitted (nsId : Nat) (path : Str) (cred : Credentials) : Bool × Vfs F σ :=
  match parentDir path with
  | none => (false, v)
  | some parent =>
    if (statInNs ops v nsId path).isNone then (false, v)
    else
      match statInNs ops v nsId parent with
      | none => (false, v)
      | some parentStat =>
        if mayModifyParent parentStat cred then removeInNs ops v nsId path else (false, v)

def chmodPermitted (nsId : Nat) (path : Str) (mode : Nat) (cred : Credentials) : Bool × Vfs F σ :=
  match openInNs ops v nsId path with
  | none => (false, v)
  | some node =>
    let stat := (ops node.fs).stat (v.states node.fs) node.inode
    if owns cred.euid stat then
      let result := (ops node.fs).chmod (v.states node.fs) node.inode mode
      (result.1, v.setState node.fs result.2)
    else (false, v)

/-- `owner` and `group` are `none` for "leave unchanged". -/
def chownPermitted (nsId : Nat) (path : Str) (owner group : Option Nat) (cred : Credentials) :
    Bool × Vfs F σ :=
  match openInNs ops v nsId path with
  | none => (false, v)
  | some node =>
    let stat := (ops node.fs).stat (v.states node.fs) node.inode
    let changesOwner := owner.isSome && owner.getD stat.uid != stat.uid
    if changesOwner && cred.euid != 0 then (false, v)
    else if !changesOwner && !owns cred.euid stat then (false, v)
    else
      let result := (ops node.fs).chown (v.states node.fs) node.inode (owner.getD stat.uid)
        (group.getD stat.gid)
      (result.1, v.setState node.fs result.2)

end Changes

end Zenus.Fs
