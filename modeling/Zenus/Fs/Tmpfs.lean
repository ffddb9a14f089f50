import Zenus.Fs.FileSystem
import Zenus.Lib.Word

/-! # The in-memory file system

One table of nodes holds every tmpfs.  A directory's children form a list through
`first_child` and `next_sibling`; index 0 is the root and, in a link, the end of a
list.  Slots are handed out in order and never again.

The walks over child lists are loops of the source without a bound.  Here they
get as many rounds as there are slots, and `none` says that the walk went on.
-/

namespace Zenus.Fs

open Lib.Word Function

def MAX_NODES : Nat := 128
def MAX_NAME : Nat := 64
def MAX_FILE_SIZE : Nat := 1024
def MAX_DIR_ENTRIES : Nat := 256

instance : NeZero MAX_NODES := ⟨by decide⟩

abbrev Slot := Fin MAX_NODES

/-- A slot of the table.  The name is the part of its buffer that is in use. -/
structure TmpNode where
  name : Str := []
  fileType : FileType := .none
  size : Nat := 0
  data : Fin MAX_FILE_SIZE → UInt8 := fun _ => 0
  parent : Slot := 0
  nextSibling : Slot := 0
  firstChild : Slot := 0
  uid : Nat := 0
  gid : Nat := 0
  mode : Nat := 0
  fits : size ≤ MAX_FILE_SIZE := by decide

def EMPTY_NODE : TmpNode := {}

def rootNode : TmpNode := { fileType := .directory, mode := DEFAULT_DIR_MODE }

namespace TmpNode

def byte (node : TmpNode) (i : Nat) : UInt8 :=
  if inside : i < MAX_FILE_SIZE then node.data ⟨i, inside⟩ else 0

/-- `data[start..start + buf.len()].copy_from_slice(buf)` -/
def copyInto (data : Fin MAX_FILE_SIZE → UInt8) (start : Nat) (buf : List UInt8) :
    Fin MAX_FILE_SIZE → UInt8 :=
  fun i => if start ≤ i.val ∧ i.val < start + buf.length then buf.getD (i.val - start) 0 else data i

/-- `data[start..stop].fill(0)` -/
def fillZero (data : Fin MAX_FILE_SIZE → UInt8) (start stop : Nat) : Fin MAX_FILE_SIZE → UInt8 :=
  fun i => if start ≤ i.val ∧ i.val < stop then 0 else data i

def setName (node : TmpNode) (name : Str) : TmpNode := { node with name := name.take (MAX_NAME - 1) }

def nameMatches (node : TmpNode) (name : Str) : Bool := node.name == name

def listedName (node : TmpNode) : Str :=
  if node.name.isEmpty then str "/" else if utf8 node.name then node.name else str "/"

end TmpNode

/-- The statics `NODES` and `NODE_COUNT`. -/
structure TmpFs where
  nodes : Slot → TmpNode
  nodeCount : Nat
  bound : nodeCount ≤ MAX_NODES

/-- The exclusive end offset of a write, or `none` if the write does not fit. -/
def writeEnd (offset bufLen : Nat) : Option Nat :=
  match checkedAdd offset bufLen with
  | none => none
  | some stop => if MAX_FILE_SIZE < stop then none else some stop

namespace TmpFs

def boot : TmpFs := ⟨fun _ => EMPTY_NODE, 1, by decide⟩

/-- `TmpFs::new` writes the root of the one table. -/
def new (fs : TmpFs) : TmpFs := { fs with nodes := update fs.nodes 0 rootNode }

def rootInode : Nat := 0

/-- The slot of an inode number that was handed out. -/
def slot (fs : TmpFs) {inode : Nat} (known : inode < fs.nodeCount) : Slot :=
  ⟨inode, Nat.lt_of_lt_of_le known fs.bound⟩

def setNode (fs : TmpFs) (i : Slot) (node : TmpNode) : TmpFs :=
  { fs with nodes := update fs.nodes i node }

def allocNode (fs : TmpFs) : Option (Slot × TmpFs) :=
  if room : fs.nodeCount < MAX_NODES then
    some (⟨fs.nodeCount, room⟩, { fs with nodeCount := fs.nodeCount + 1, bound := room })
  else none

/-- The loop of `find_child`, at `child`. -/
def findFrom (nodes : Slot → TmpNode) (name : Str) : Nat → Slot → Option (Option Slot)
  | 0, _ => none
  | rounds + 1, child =>
    if child = 0 then some none
    else if (nodes child).nameMatches name then some (some child)
    else findFrom nodes name rounds (nodes child).nextSibling

def findChild (nodes : Slot → TmpNode) (parentIdx : Slot) (name : Str) : Option (Option Slot) :=
  findFrom nodes name MAX_NODES (nodes parentIdx).firstChild

/-- The loop of `add_child` that looks for the last sibling, at `last`. -/
def lastFrom (nodes : Slot → TmpNode) : Nat → Slot → Option Slot
  | 0, _ => none
  | rounds + 1, last =>
    if (nodes last).nextSibling = 0 then some last
    else lastFrom nodes rounds (nodes last).nextSibling

def addChild (nodes : Slot → TmpNode) (parentIdx childIdx : Slot) : Option (Slot → TmpNode) :=
  let nodes := update nodes childIdx { nodes childIdx with parent := parentIdx }
  let first := (nodes parentIdx).firstChild
  if first = 0 then
    some (update nodes parentIdx { nodes parentIdx with firstChild := childIdx })
  else
    (lastFrom nodes MAX_NODES first).map fun last =>
      update nodes last { nodes last with nextSibling := childIdx }

def read (fs : TmpFs) (inode offset len : Nat) : Option (List UInt8) :=
  if known : inode < fs.nodeCount then
    let node := fs.nodes (fs.slot known)
    if node.fileType ≠ .file then some []
    else if node.size ≤ offset then some []
    else some ((List.range (min len (node.size - offset))).map fun i => node.byte (offset + i))
  else none

def write (fs : TmpFs) (inode offset : Nat) (buf : List UInt8) : Option Nat × TmpFs :=
  if known : inode < fs.nodeCount then
    let idx := fs.slot known
    let node := fs.nodes idx
    if node.fileType ≠ .file then (none, fs)
    else if fit : (writeEnd offset buf.length).isSome then
      let stop := (writeEnd offset buf.length).get fit
      let start := stop - buf.length
      have inside : max node.size stop ≤ MAX_FILE_SIZE := Nat.max_le.mpr ⟨node.fits, by
        have taken : writeEnd offset buf.length = some stop := (Option.some_get fit).symm
        unfold writeEnd at taken
        grind⟩
      (some buf.length, fs.setNode idx
        { node with
          data := TmpNode.copyInto node.data start buf
          size := max node.size stop
          fits := inside })
    else (none, fs)
  else (none, fs)

/-- The loop of `read_dir`, at `child`, with room for the given number of entries. -/
def listFrom (nodes : Slot → TmpNode) : Nat → Slot → List DirEntry
  | 0, _ => []
  | room + 1, child =>
    if child = 0 then []
    else ⟨(nodes child).listedName, (nodes child).fileType, child.val⟩ ::
      listFrom nodes room (nodes child).nextSibling

def readDir (fs : TmpFs) (inode : Nat) : List DirEntry :=
  if known : inode < fs.nodeCount then
    listFrom fs.nodes MAX_DIR_ENTRIES (fs.nodes (fs.slot known)).firstChild
  else []

def stat (fs : TmpFs) (inode : Nat) : FileStat :=
  if known : inode < fs.nodeCount then
    let node := fs.nodes (fs.slot known)
    { size := node.size, fileType := node.fileType, inode, blocks := (node.size + 511) / 512
      uid := node.uid, gid := node.gid, mode := node.mode }
  else { size := 0, fileType := .none, inode, blocks := 0, uid := 0, gid := 0, mode := 0 }

/-- What `create` and `symlink` check first: the directory that can take a new `name`. -/
def parentFor (fs : TmpFs) (parentInode : Nat) (name : Str) : Option (Option Slot) :=
  if known : parentInode < fs.nodeCount then
    let pidx := fs.slot known
    if (fs.nodes pidx).fileType ≠ .directory then some none
    else
      match findChild fs.nodes pidx name with
      | none => none
      | some (some _) => some none
      | some none => some (some pidx)
  else some none

/-- What they do last: allocate a slot, fill it and put it on the list. -/
def insert (fs : TmpFs) (pidx : Slot) (fill : TmpNode → TmpNode) : Option (Option Nat × TmpFs) :=
  match fs.allocNode with
  | none => some (none, fs)
  | some (childIdx, fs) =>
    let nodes := update fs.nodes childIdx (fill (fs.nodes childIdx))
    (addChild nodes pidx childIdx).map fun nodes => (some childIdx.val, { fs with nodes })

def newMode : FileType → Nat
  | .directory => DEFAULT_DIR_MODE
  | _ => DEFAULT_FILE_MODE

def create (fs : TmpFs) (parentInode : Nat) (name : Str) (fileType : FileType) :
    Option (Option Nat × TmpFs) :=
  match fs.parentFor parentInode name with
  | none => none
  | some none => some (none, fs)
  | some (some pidx) =>
    fs.insert pidx fun node =>
      { node.setName name with fileType, uid := 0, gid := 0, mode := newMode fileType }

def symlink (fs : TmpFs) (parentInode : Nat) (name target : Str) : Option (Option Nat × TmpFs) :=
  match fs.parentFor parentInode name with
  | none => none
  | some none => some (none, fs)
  | some (some pidx) =>
    if fit : target.length ≤ MAX_FILE_SIZE then
      fs.insert pidx fun node =>
        { node.setName name with
          fileType := .symlink, uid := 0, gid := 0, mode := DEFAULT_FILE_MODE
          size := target.length, fits := fit, data := TmpNode.copyInto node.data 0 target }
    else some (none, fs)

def readlink (fs : TmpFs) (inode len : Nat) : Option (List UInt8) :=
  if known : inode < fs.nodeCount then
    let node := fs.nodes (fs.slot known)
    if node.fileType ≠ .symlink then none
    else some ((List.range (min node.size len)).map node.byte)
  else none

def truncate (fs : TmpFs) (inode size : Nat) : Bool × TmpFs :=
  if known : inode < fs.nodeCount then
    let idx := fs.slot known
    let node := fs.nodes idx
    if node.fileType ≠ .file then (false, fs)
    else if fit : size ≤ MAX_FILE_SIZE then
      (true, fs.setNode idx
        { node with
          data := if node.size < size then TmpNode.fillZero node.data node.size size else node.data
          size
          fits := fit })
    else (false, fs)
  else (false, fs)

/-- The loop of `unlink`, at `child` with its predecessor: the two slots where the
    name was found. -/
def unlinkFrom (nodes : Slot → TmpNode) (name : Str) : Nat → Slot → Slot →
    Option (Option (Slot × Slot))
  | 0, _, _ => none
  | rounds + 1, prev, child =>
    if child = 0 then some none
    else if (nodes child).nameMatches name then some (some (prev, child))
    else unlinkFrom nodes name rounds child (nodes child).nextSibling

/-- Take `child` off the list of `pidx`, where it follows `prev` or is the first. -/
def detach (nodes : Slot → TmpNode) (pidx prev child : Slot) : Slot → TmpNode :=
  let next := (nodes child).nextSibling
  let nodes :=
    if prev = 0 then update nodes pidx { nodes pidx with firstChild := next }
    else update nodes prev { nodes prev with nextSibling := next }
  update nodes child { nodes child with fileType := .none }

def unlink (fs : TmpFs) (parentInode : Nat) (name : Str) : Option (Bool × TmpFs) :=
  if known : parentInode < fs.nodeCount then
    let pidx := fs.slot known
    (unlinkFrom fs.nodes name MAX_NODES 0 (fs.nodes pidx).firstChild).map fun found =>
      match found with
      | none => (false, fs)
      | some (prev, child) =>
        if (fs.nodes child).fileType = .directory ∧ (fs.nodes child).firstChild ≠ 0 then
          (false, fs)
        else (true, { fs with nodes := detach fs.nodes pidx prev child })
  else some (false, fs)

def chmod (fs : TmpFs) (inode mode : Nat) : Bool × TmpFs :=
  if known : inode < fs.nodeCount then
    let idx := fs.slot known
    let node := fs.nodes idx
    (true, fs.setNode idx { node with mode := node.mode &&& 0xF000 ||| mode &&& 0x0FFF })
  else (false, fs)

def chown (fs : TmpFs) (inode uid gid : Nat) : Bool × TmpFs :=
  if known : inode < fs.nodeCount then
    let idx := fs.slot known
    (true, fs.setNode idx { fs.nodes idx with uid, gid })
  else (false, fs)

/-- The operations behind the interface.  A walk that did not end would hang the
    call; it leaves no other trace. -/
def fileSystem : FileSystem TmpFs where
  rootInode := rootInode
  read := read
  write := write
  readDir := readDir
  stat := stat
  create fs parentInode name fileType := (fs.create parentInode name fileType).getD (none, fs)
  unlink fs parentInode name := (fs.unlink parentInode name).getD (false, fs)
  chmod := chmod
  chown := chown
  symlink fs parentInode name target := (fs.symlink parentInode name target).getD (none, fs)
  readlink := readlink
  truncate := truncate

end TmpFs

end Zenus.Fs
