import Zenus.Fs.Components
import Zenus.Lib.Text
import Zenus.Lib.Word
import Mathlib.Data.List.Infix

/-! # The package manager

A package is an image of records with the files they hold.  It is checked as a whole
before anything is installed; what is installed is listed in a manifest, line by line,
and taken from there again when the package is removed.
-/

namespace Zenus.Fs

open Lib.Word

def PKG_INSTALL_DIR : Str := str "/usr/local"
namespace Layout

def HEADER_SIZE : Nat := 500
end Layout

open Layout

/-- One validated file entry of an image. -/
structure PlannedEntry where
  path : Str
  offset : Nat
  len : Nat
  isDir : Bool
  deriving DecidableEq

/-- The VFS under the package manager, and which paths it was asked to change: the
    directories that `ensure_dir` made, and what was removed, created or written. -/
structure Packages (F : Type) (σ : F → Type) where
  vfs : Vfs F σ
  made : List Str := []
  touched : List Str := []

namespace Packages

variable {F : Type} {σ : F → Type} [DecidableEq F] (ops : (f : F) → FileSystem (σ f))

/-- `vfs::open` -/
def openPath (s : Packages F σ) (path : Str) : Option (VfsNode F) := openInNs ops s.vfs NS_ROOT path

/-- `vfs::create_dir` of `ensure_dir`. -/
def makeDir (s : Packages F σ) (path : Str) : Bool × Packages F σ :=
  let result := createDirInNs ops s.vfs NS_ROOT path
  (result.1, { s with vfs := result.2, made := path :: s.made })

/-- `vfs::create_dir` of an entry. -/
def createDir (s : Packages F σ) (path : Str) : Bool × Packages F σ :=
  let result := createDirInNs ops s.vfs NS_ROOT path
  (result.1, { s with vfs := result.2, touched := path :: s.touched })

/-- `vfs::create_file` -/
def createFile (s : Packages F σ) (path : Str) : Bool × Packages F σ :=
  let result := createFileInNs ops s.vfs NS_ROOT path
  (result.1, { s with vfs := result.2, touched := path :: s.touched })

/-- `vfs::remove` -/
def remove (s : Packages F σ) (path : Str) : Bool × Packages F σ :=
  let result := removeInNs ops s.vfs NS_ROOT path
  (result.1, { s with vfs := result.2, touched := path :: s.touched })

/-- Write to the node that `path` was opened as. -/
def writeNode (s : Packages F σ) (node : VfsNode F) (path : Str) (data : List UInt8) :
    Bool × Packages F σ :=
  let result := (ops node.fs).write (s.vfs.states node.fs) node.inode 0 data
  (result.1.isSome, { s with vfs := s.vfs.setState node.fs result.2, touched := path :: s.touched })

/-- The loop of `ensure_dir` over the parts of the path up to each slash. -/
def ensureSubs (s : Packages F σ) : List Str → Bool × Packages F σ
  | [] => (true, s)
  | sub :: rest =>
    if sub ≠ [SLASH] ∧ s.openPath ops sub = none then
      let result := s.makeDir ops sub
      if result.1 then ensureSubs result.2 rest else (false, result.2)
    else ensureSubs s rest

def ensureDir (s : Packages F σ) (path : Str) : Bool × Packages F σ :=
  if (s.openPath ops path).isSome then (true, s)
  else
    let trimmed := trimEnd path
    let result := s.ensureSubs ops (trimmed.inits.filter (·.getLast? == some SLASH))
    if !result.1 then (false, result.2)
    else if (result.2.openPath ops trimmed).isNone then result.2.makeDir ops trimmed
    else (true, result.2)

def writeFile (s : Packages F σ) (path : Str) (data : List UInt8) : Bool × Packages F σ :=
  let s := if (s.openPath ops path).isSome then (s.remove ops path).2 else s
  let result := s.createFile ops path
  if !result.1 then (false, result.2)
  else
    match result.2.openPath ops path with
    | none => (false, result.2)
    | some node => result.2.writeNode ops node path data

def prepare (s : Packages F σ) (entry : PlannedEntry) : Bool × Packages F σ :=
  s.ensureDir ops ((parentDir entry.path).getD PKG_INSTALL_DIR)

def place (s : Packages F σ) (data : List UInt8) (entry : PlannedEntry) : Bool × Packages F σ :=
  if entry.isDir then s.createDir ops entry.path
  else s.writeFile ops entry.path ((data.drop entry.offset).take entry.len)

end Packages

end Zenus.Fs
