import Zenus.Fs.Vfs
import Zenus.Lib.Word
import Mathlib.Data.List.FinRange

/-! # The system calls on files

One table of descriptors serves all tasks; an entry names its owner, and a task may
only use its own.  A descriptor remembers whether its file was reached through a
read-only mount.  The calls that change a file system by path resolve the path and
run the operation of the file system directly.
-/

namespace Zenus.Sys

open Fs Lib.Word Function

def MAX_FDS : Nat := 256
def PIPE_BUF_SIZE : Nat := 4096
def MAX_PIPES : Nat := 64

/-- A pipe; `data` is what stands between `read_pos` and `write_pos` of its ring. -/
structure PipeBuffer where
  data : List UInt8 := []
  readOpen : Bool := false
  writeOpen : Bool := false

namespace PipeBuffer

def write (pipe : PipeBuffer) (buf : List UInt8) : Option (Nat × PipeBuffer) :=
  if !pipe.writeOpen || !pipe.readOpen then none
  else
    let taken := buf.take (PIPE_BUF_SIZE - pipe.data.length)
    some (taken.length, { pipe with data := pipe.data ++ taken })

def read (pipe : PipeBuffer) (len : Nat) : Option (List UInt8 × PipeBuffer) :=
  if !pipe.readOpen then none
  else if pipe.data.isEmpty && !pipe.writeOpen then some ([], pipe)
  else if pipe.data.isEmpty then none
  else some (pipe.data.take len, { pipe with data := pipe.data.drop len })

end PipeBuffer

/-- An open descriptor; `pipeId` and `socketId` are `none` where the source has
    `u64::MAX`. -/
structure FdEntry (F : Type) where
  taskId : Nat
  fs : Option F
  inode : Nat
  offset : Nat
  fileType : FileType
  pipeId : Option (Fin MAX_PIPES)
  socketId : Option Nat
  readOnly : Bool
  path : Str

abbrev FdTable (F : Type) := Fin MAX_FDS → Option (FdEntry F)

abbrev PipeTable := Fin MAX_PIPES → Option PipeBuffer

/-- The path kept in the fixed buffer of an entry, without its zeroes. -/
def pathBuf (path : Str) : Str := path.take 255

def pathAsStr (path : Str) : Str :=
  let text := path.takeWhile (· != 0)
  if utf8 text then text else []

namespace FdTable

variable {F : Type}

def put (table : FdTable F) (entry : FdEntry F) : Option (Nat × FdTable F) :=
  ((List.finRange MAX_FDS).find? fun i => (table i).isNone).map fun i =>
    (i.val, update table i (some entry))

def alloc (table : FdTable F) (taskId : Nat) (node : VfsNode F) (fileType : FileType) (path : Str) :
    Option (Nat × FdTable F) :=
  table.put { taskId, fs := some node.fs, inode := node.inode, offset := 0, fileType, pipeId := none
              socketId := none, readOnly := node.readOnly, path := pathBuf path }

def allocPipe (table : FdTable F) (taskId : Nat) (pipeId : Fin MAX_PIPES) :
    Option (Nat × FdTable F) :=
  table.put { taskId, fs := none, inode := 0, offset := 0, fileType := .charDevice
              pipeId := some pipeId, socketId := none, readOnly := false, path := [] }

def allocSocket (table : FdTable F) (taskId socketId : Nat) : Option (Nat × FdTable F) :=
  table.put { taskId, fs := none, inode := 0, offset := 0, fileType := .charDevice, pipeId := none
              socketId := some socketId, readOnly := false, path := [] }

def get (table : FdTable F) (fd : Nat) : Option (FdEntry F) :=
  if known : fd < MAX_FDS then table ⟨fd, known⟩ else none

/-- The slot of `fd` overwritten. -/
def set (table : FdTable F) (fd : Nat) (entry : Option (FdEntry F)) : FdTable F :=
  if known : fd < MAX_FDS then update table ⟨fd, known⟩ entry else table

def dup (table : FdTable F) (taskId fd : Nat) : Option (Nat × FdTable F) :=
  match table.get fd with
  | none => none
  | some entry =>
    if entry.taskId ≠ taskId then none
    else
      match entry.pipeId, entry.socketId with
      | some pipeId, _ => table.allocPipe taskId pipeId
      | none, some socketId => table.allocSocket taskId socketId
      | none, none =>
        match entry.fs with
        | none => none
        | some fs =>
          table.alloc taskId ⟨fs, entry.inode, entry.readOnly⟩ entry.fileType
            (pathAsStr entry.path)

/-- The duplicate of an entry for a task, as `clone_all_for_task` makes it. -/
def copyEntry (table : FdTable F) (taskId : Nat) (entry : FdEntry F) : Option (Nat × FdTable F) :=
  match entry.pipeId, entry.socketId with
  | some pipeId, _ => table.allocPipe taskId pipeId
  | none, some socketId => table.allocSocket taskId socketId
  | none, none =>
    match entry.fs with
    | none => none
    | some fs =>
      table.alloc taskId ⟨fs, entry.inode, entry.readOnly⟩ entry.fileType (pathAsStr entry.path)

/-- The descriptors of a task with their entries. -/
def ofTask (table : FdTable F) (taskId : Nat) : List (Fin MAX_FDS × FdEntry F) :=
  (List.finRange MAX_FDS).filterMap fun fd =>
    ((table fd).filter fun entry => entry.taskId == taskId).map fun entry => (fd, entry)

def cloneAllForTask (table : FdTable F) (srcTaskId dstTaskId : Nat) : FdTable F :=
  (table.ofTask srcTaskId).foldl (fun t source => ((t.copyEntry dstTaskId source.2).map Prod.snd).getD t) table

def closeAllForTask (table : FdTable F) (taskId : Nat) : FdTable F :=
  fun fd => (table fd).filter fun entry => entry.taskId != taskId

end FdTable

/-- The end of a pipe that a descriptor stands for is closed; which one is told by the
    parity of its number. -/
def closePipe (pipes : PipeTable) (fd : Nat) (pipeId : Fin MAX_PIPES) : PipeTable :=
  update pipes pipeId ((pipes pipeId).map fun pipe =>
    if fd % 2 = 0 then { pipe with readOpen := false } else { pipe with writeOpen := false })

/-- What the calls on files read and change. -/
structure Files (F : Type) (σ : F → Type) where
  vfs : Vfs F σ
  fds : FdTable F := fun _ => none
  pipes : PipeTable := fun _ => none
  /-- The console: what is still to be typed, and what was printed. -/
  input : List UInt8 := []
  output : List UInt8 := []

/-- The running task. -/
structure Caller where
  task : Nat
  cred : Credentials

/-- One line from the console, at most `len` bytes; the rest of the input stays. -/
def readLine : (input : List UInt8) → (len : Nat) → List UInt8 × List UInt8
  | b :: rest, len + 1 =>
    if b = 10 ∨ b = 13 then ([b], rest)
    else
      let line := readLine rest len
      (b :: line.1, line.2)
  | input, _ => ([], input)

section Descriptors

variable {F : Type} {σ : F → Type} [DecidableEq F] (ops : (f : F) → FileSystem (σ f))
  (w : Files F σ) (caller : Caller)

/-- The entry of a descriptor of the running task. -/
def fdGet (fd : Nat) : Option (FdEntry F) :=
  (w.fds.get fd).filter fun entry => entry.taskId == caller.task

def fdPipe : Option (Nat × Nat) × Files F σ :=
  match (List.finRange MAX_PIPES).find? fun i => (w.pipes i).isNone with
  | none => (none, w)
  | some pipeId =>
    let open' : PipeBuffer := { readOpen := true, writeOpen := true }
    match w.fds.allocPipe caller.task pipeId with
    | none => (none, w)
    | some readEnd =>
      match readEnd.2.allocPipe caller.task pipeId with
      -- the read end stays in the table, without its pipe
      | none => (none, { w with fds := readEnd.2 })
      | some writeEnd =>
        (some (readEnd.1, writeEnd.1),
          { w with fds := writeEnd.2, pipes := update w.pipes pipeId (some open') })

def fdOpen (path : Str) : Option Nat × Files F σ :=
  match openInNs ops w.vfs NS_ROOT path with
  | none => (none, w)
  | some node =>
    let stat := (ops node.fs).stat (w.vfs.states node.fs) node.inode
    if accessCheck caller.cred stat false then
      match w.fds.alloc caller.task node stat.fileType path with
      | none => (none, w)
      | some opened => (some opened.1, { w with fds := opened.2 })
    else (none, w)

/-- `FdTable::close` -/
def closeFd (fd : Nat) : Bool × Files F σ :=
  match w.fds.get fd with
  | none => (false, w)
  | some entry =>
    (true, { w with
      fds := w.fds.set fd none
      pipes := match entry.pipeId with
        | some pipeId => closePipe w.pipes fd pipeId
        | none => w.pipes })

def fdClose (fd : Nat) : Bool × Files F σ :=
  match fdGet w caller fd with
  | none => (false, w)
  | some _ => closeFd w fd

def fdRead (fd len : Nat) : Option (List UInt8) × Files F σ :=
  if fd = 0 then
    let line := readLine w.input len
    (some line.1, { w with input := line.2 })
  else
    match fdGet w caller fd with
    | none => (none, w)
    | some entry =>
      match entry.pipeId with
      | some pipeId =>
        match (w.pipes pipeId).bind (·.read len) with
        | none => (none, w)
        | some result =>
          (some result.1, { w with pipes := update w.pipes pipeId (some result.2) })
      | none =>
        match entry.fs with
        | none => (none, w)
        | some f =>
          match (ops f).read (w.vfs.states f) entry.inode entry.offset len with
          | none => (none, w)
          | some bytes =>
            (some bytes, { w with
              fds := w.fds.set fd (some { entry with offset := wadd entry.offset bytes.length }) })

def fdWrite (fd : Nat) (buf : List UInt8) : Option Nat × Files F σ :=
  if fd = 1 ∨ fd = 2 then (some buf.length, { w with output := w.output ++ buf })
  else
    match fdGet w caller fd with
    | none => (none, w)
    | some entry =>
      match entry.pipeId with
      | some pipeId =>
        match (w.pipes pipeId).bind (·.write buf) with
        | none => (none, w)
        | some result =>
          (some result.1, { w with pipes := update w.pipes pipeId (some result.2) })
      | none =>
        if entry.readOnly then (none, w)
        else
          match entry.fs with
          | none => (none, w)
          | some f =>
            let result := (ops f).write (w.vfs.states f) entry.inode entry.offset buf
            (result.1, { w with
              vfs := w.vfs.setState f result.2
              fds := match result.1 with
                | some n => w.fds.set fd (some { entry with offset := wadd entry.offset n })
                | none => w.fds })

/-- The new position for `whence`; `offset` is the argument as an unsigned word. -/
def seekTo (entry : FdEntry F) (offset whence : Nat) : Option Nat :=
  if whence = 0 then some offset
  else if whence = 1 then some (wadd entry.offset offset)
  else if whence = 2 then
    entry.fs.map fun f => wadd ((ops f).stat (w.vfs.states f) entry.inode).size offset
  else none

def fdSeek (fd offset whence : Nat) : Option Nat × Files F σ :=
  match fdGet w caller fd with
  | none => (none, w)
  | some entry =>
    if entry.pipeId.isSome then (none, w)
    else
      match seekTo ops w entry offset whence with
      | none => (none, w)
      | some pos => (some pos, { w with fds := w.fds.set fd (some { entry with offset := pos }) })

def fdStat (fd : Nat) : Option FileStat :=
  match fdGet w caller fd with
  | none => none
  | some entry =>
    if entry.pipeId.isSome then
      some { size := 0, fileType := .charDevice, inode := 0, blocks := 0, uid := 0, gid := 0, mode := 0x21A4 }
    else entry.fs.map fun f => (ops f).stat (w.vfs.states f) entry.inode

def fdReaddir (fd : Nat) : List DirEntry :=
  match fdGet w caller fd with
  | none => []
  | some entry =>
    match entry.fs with
    | none => []
    | some f => if entry.fileType ≠ .directory then [] else (ops f).readDir (w.vfs.states f) entry.inode

def fdDup (fd : Nat) : Option Nat × Files F σ :=
  match w.fds.dup caller.task fd with
  | none => (none, w)
  | some copied => (some copied.1, { w with fds := copied.2 })

def fdDup2 (oldfd newfd : Nat) : Option Nat × Files F σ :=
  if MAX_FDS ≤ newfd then (none, w)
  else
    match fdGet w caller oldfd with
    | none => (none, w)
    | some entry =>
      let closed := (closeFd w newfd).2
      (some newfd, { closed with fds := closed.fds.set newfd (some entry) })

def resultOf : Option Nat → Int
  | some n => n
  | none => -1

def sysWrite (fd : Nat) (buf : List UInt8) : Int × Files F σ :=
  if 1048576 < buf.length then (-1, w)
  else if buf.isEmpty then (0, w)
  else
    let result := fdWrite ops w caller fd buf
    (resultOf result.1, result.2)

def sysClose (fd : Nat) : Int × Files F σ :=
  if fd ≤ 2 then (-1, w)
  else
    let result := fdClose w caller fd
    (if result.1 then 0 else -1, result.2)

def sysDup (fd : Nat) : Int × Files F σ :=
  if 2 < fd then
    let result := fdDup w caller fd
    (resultOf result.1, result.2)
  else (fd, w)

end Descriptors

section Paths

variable {F : Type} {σ : F → Type} [DecidableEq F] (ops : (f : F) → FileSystem (σ f))
  (w : Files F σ) (caller : Caller)

/-- The files with the VFS that a path operation returns. -/
def Files.withVfs (w : Files F σ) (result : Bool × Vfs F σ) : Bool × Files F σ :=
  (result.1, { w with vfs := result.2 })

def vfsMkdir (path : Str) : Bool × Files F σ :=
  w.withVfs (createDirPermitted ops w.vfs NS_ROOT path caller.cred)

def vfsUnlink (path : Str) : Bool × Files F σ :=
  w.withVfs (removePermitted ops w.vfs NS_ROOT path caller.cred)

def vfsRmdir (path : Str) : Bool × Files F σ :=
  match openInNs ops w.vfs NS_ROOT path with
  | none => (false, w)
  | some node =>
    if ((ops node.fs).readDir (w.vfs.states node.fs) node.inode).isEmpty then vfsUnlink ops w caller path
    else (false, w)

/-- The mode arrives as a `u16`. -/
def vfsChmod (path : Str) (mode : Nat) : Bool × Files F σ :=
  w.withVfs (chmodPermitted ops w.vfs NS_ROOT path (mode % 2 ^ 16) caller.cred)

/-- A `u32` owner or group; all ones say "leave unchanged". -/
def keepOr (id : Nat) : Option Nat := if id % 2 ^ 32 = 2 ^ 32 - 1 then none else some (id % 2 ^ 32)

def vfsChown (path : Str) (owner group : Nat) : Bool × Files F σ :=
  w.withVfs (chownPermitted ops w.vfs NS_ROOT path (keepOr owner) (keepOr group) caller.cred)

def sysSymlinkat (target linkpath : Str) : Int × Files F σ :=
  let result := w.withVfs (symlinkInNs ops w.vfs NS_ROOT linkpath target)
  (if result.1 then 0 else -1, result.2)

/-- What `truncate` and `ftruncate` do once they have the inode; `fileType` is the one
    they test. -/
def truncateInode (f : F) (inode : Nat) (fileType : FileType) (length : Nat) : Int × Files F σ :=
  if fileType ≠ .file then (if fileType = .directory then -21 else -22, w)
  else if accessCheck caller.cred ((ops f).stat (w.vfs.states f) inode) true then
    let result := (ops f).truncate (w.vfs.states f) inode length
    (if result.1 then 0 else -22, { w with vfs := w.vfs.setState f result.2 })
  else (-13, w)

def sysTruncate (path : Str) (length : Nat) : Int × Files F σ :=
  match openInNs ops w.vfs NS_ROOT path with
  | none => (-2, w)
  | some node =>
    truncateInode ops w caller node.fs node.inode
      ((ops node.fs).stat (w.vfs.states node.fs) node.inode).fileType length

def sysFtruncate (fd length : Nat) : Int × Files F σ :=
  match fdGet w caller fd with
  | none => (-9, w)
  | some entry =>
    match entry.fs with
    | none =>
      -- a pipe or socket, or one whose recorded type is refused first
      (if entry.fileType = .directory then -21 else -22, w)
    | some f => truncateInode ops w caller f entry.inode entry.fileType length

end Paths

/-- The calls of a run. -/
inductive Call where
  | open (path : Str)
  | close (fd : Nat)
  | read (fd len : Nat)
  | write (fd : Nat) (buf : List UInt8)
  | seek (fd offset whence : Nat)
  | dup (fd : Nat)
  | dup2 (oldfd newfd : Nat)
  | pipe
  | mkdir (path : Str)
  | unlink (path : Str)
  | rmdir (path : Str)
  | symlinkat (target linkpath : Str)
  | chmod (path : Str) (mode : Nat)
  | chown (path : Str) (owner group : Nat)
  | truncate (path : Str) (length : Nat)
  | ftruncate (fd length : Nat)

section Steps

variable {F : Type} {σ : F → Type} [DecidableEq F] (ops : (f : F) → FileSystem (σ f))

def Call.perform (w : Files F σ) (caller : Caller) : Call → Files F σ
  | .open path => (fdOpen ops w caller path).2
  | .close fd => (sysClose w caller fd).2
  | .read fd len => (fdRead ops w caller fd len).2
  | .write fd buf => (sysWrite ops w caller fd buf).2
  | .seek fd offset whence => (fdSeek ops w caller fd offset whence).2
  | .dup fd => (sysDup w caller fd).2
  | .dup2 oldfd newfd => (fdDup2 w caller oldfd newfd).2
  | .pipe => (fdPipe w caller).2
  | .mkdir path => (vfsMkdir ops w caller path).2
  | .unlink path => (vfsUnlink ops w caller path).2
  | .rmdir path => (vfsRmdir ops w caller path).2
  | .symlinkat target linkpath => (sysSymlinkat ops w target linkpath).2
  | .chmod path mode => (vfsChmod ops w caller path mode).2
  | .chown path owner group => (vfsChown ops w caller path owner group).2
  | .truncate path length => (sysTruncate ops w caller path length).2
  | .ftruncate fd length => (sysFtruncate ops w caller fd length).2

/-- A run of calls, each by its own task with its own credentials. -/
def step (w : Files F σ) (call : Caller × Call) : Option (Files F σ) :=
  some (call.2.perform ops w call.1)

end Steps

end Zenus.Sys
