import Zenus.Fs.FileSystem
import Zenus.Lib.Best
import Mathlib.Data.List.DropRight

/-! # Mount tables

A table lists its mounts in the order in which they were made; the first, at `/`,
is the root and is never removed.  The namespaces that were created have their own
tables, copied from the root's, and every other namespace uses the root's.

File systems are given by handles of a type `F`.
-/

namespace Zenus.Fs

/-- The byte `/`. -/
def SLASH : UInt8 := 47

def MS_RDONLY : Nat := 1
def MAX_MOUNTS : Nat := 32
def MAX_MNT_NS : Nat := 8
def NS_ROOT : Nat := 0

/-- `trim_end_matches('/')` -/
def trimEnd (path : Str) : Str := path.rdropWhile (· == SLASH)

/-- Does a mount at `mount` cover `path`? -/
def mountCovers (path mount : Str) : Bool :=
  if mount == [SLASH] || mount.isEmpty then path.head? == some SLASH
  else if (trimEnd mount).isEmpty then path.head? == some SLASH
  else if !(trimEnd mount).isPrefixOf path then false
  else
    match path[(trimEnd mount).length]? with
    | none => true
    | some b => b == SLASH

/-- Length of the matching mount prefix, for longest-prefix selection. -/
def mountPrefixLen (path mount : Str) : Nat :=
  if mountCovers path mount then
    if mount == [SLASH] || mount.isEmpty then 1 else (trimEnd mount).length
  else 0

def normaliseMountPath (path : Str) : Str :=
  let trimmed := trimEnd path
  if trimmed.isEmpty then [SLASH]
  else if trimmed.head? == some SLASH then trimmed
  else SLASH :: trimmed

def pathsEqual (a b : Str) : Bool :=
  let a := trimEnd a
  let b := trimEnd b
  if a.isEmpty && b.isEmpty then true else a == b

structure Mount (F : Type) where
  path : Str
  fs : F
  flags : Nat

/-- The mounts of a table, without the free rest of its array. -/
abbrev MountTable (F : Type) := List (Mount F)

/-- The table of one namespace. -/
structure MntNsEntry (F : Type) where
  nsId : Nat
  table : MountTable F

/-- The statics `MOUNT_TABLE` and `MNT_NS_TABLES`. -/
structure MountTables (F : Type) where
  root : MountTable F
  spaces : List (MntNsEntry F)

namespace MountTable

variable {F : Type}

def find (table : MountTable F) (path : Str) : Option (Mount F) :=
  Lib.Best.pick (fun m => mountPrefixLen path m.path) table

def append (table : MountTable F) (mount : Mount F) : Option (MountTable F) :=
  if MAX_MOUNTS ≤ table.length then none else some (table ++ [mount])

/-- Remove the first mount at `target` behind the root. -/
def remove (table : MountTable F) (target : Str) : Option (MountTable F) :=
  match table with
  | [] => none
  | first :: rest =>
    if rest.any fun m => pathsEqual m.path target then
      some (first :: rest.eraseP fun m => pathsEqual m.path target)
    else none

end MountTable

/-- Edit the first table of a namespace: `none` if it has none, `some none` if the
    edit is refused. -/
def editSpace {F : Type} (nsId : Nat) (edit : MountTable F → Option (MountTable F)) :
    List (MntNsEntry F) → Option (Option (List (MntNsEntry F)))
  | [] => none
  | entry :: rest =>
    if entry.nsId = nsId then
      some ((edit entry.table).map fun table => { entry with table } :: rest)
    else (editSpace nsId edit rest).map fun edited => edited.map (entry :: ·)

namespace MountTables

variable {F : Type}

/-- `vfs::init` with the root file system `fs`. -/
def init (fs : F) : MountTables F := ⟨[⟨[SLASH], fs, 0⟩], []⟩

/-- Copy the root mount table into a new mount namespace. -/
def createMntNs (m : MountTables F) (nsId : Nat) : Bool × MountTables F :=
  if MAX_MNT_NS ≤ m.spaces.length then (false, m)
  else (true, { m with spaces := m.spaces ++ [⟨nsId, m.root⟩] })

/-- Longest-prefix mount lookup in the table of a namespace. -/
def findMountInTable (m : MountTables F) (nsId : Nat) (path : Str) : Option (Mount F) :=
  if nsId = NS_ROOT then m.root.find path
  else
    match m.spaces.find? fun entry => entry.nsId == nsId with
    | some entry => entry.table.find path
    | none => m.root.find path

def mountInNsInner (m : MountTables F) (nsId : Nat) (path : Str) (fs : F) (flags : Nat) :
    Bool × MountTables F :=
  let mount : Mount F := ⟨normaliseMountPath path, fs, flags⟩
  let fallback :=
    match m.root.append mount with
    | none => (false, m)
    | some root => (true, { m with root })
  if nsId ≠ NS_ROOT then
    match editSpace nsId (fun table => table.append mount) m.spaces with
    | some (some spaces) => (true, { m with spaces })
    | some none => (false, m)
    | none => fallback
  else fallback

def mountInNs (m : MountTables F) (nsId : Nat) (path : Str) (fs : F) : Bool × MountTables F :=
  m.mountInNsInner nsId path fs 0

def umountInNs (m : MountTables F) (nsId : Nat) (path : Str) : Bool × MountTables F :=
  let target := if (trimEnd path).isEmpty then [SLASH] else trimEnd path
  if nsId = NS_ROOT then
    match m.root.remove target with
    | none => (false, m)
    | some root => (true, { m with root })
  else
    match editSpace nsId (fun table => table.remove target) m.spaces with
    | some (some spaces) => (true, { m with spaces })
    | _ => (false, m)

end MountTables

end Zenus.Fs
