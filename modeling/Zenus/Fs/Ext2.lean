import Zenus.Fs.FileSystem
import Zenus.Lib.Image
import Zenus.Lib.Word

/-! # The ext2 file system

The device is a faithful store: every sector can be read and written, and holds what
was written last.  Sector `s` of it is the bytes from `512 * s` on, so that a run of
sectors read into one buffer is the view from its first byte.  An inode and a group
descriptor are read as the bytes they are on disk, with their fields at the offsets
of the `repr(C)` structures.
-/

namespace Zenus.Fs

open Lib.Image Lib.Word

def EXT2_MAGIC : Nat := 0xEF53
def ROOT_INODE : Nat := 2
def EXT2_GOOD_OLD_REV : Nat := 0
def EXT2_DYNAMIC_REV : Nat := 1
def EXT2_FT_DIR : Nat := 2
def SECTOR : Nat := 512

def INODE_BYTES : Nat := 128
def DESCRIPTOR_BYTES : Nat := 32
def DIR_ENTRY_BYTES : Nat := 8

/-- How many groups of `per_group` items are needed to hold `count` items. -/
def groupCount (count perGroup : Nat) : Option Nat :=
  if perGroup = 0 then none else some ((count + perGroup - 1) / perGroup)

/-- The logical block of byte `offset + written`. -/
def writeLogicalBlock (offset written blockSize : Nat) : Option Nat :=
  if blockSize = 0 then none
  else
    (checkedAdd offset written).bind fun pos =>
      if 2 ^ 32 ≤ pos / blockSize then none else some (pos / blockSize)

/-- A mounted file system: what `mount` reads from the superblock, and checks of it. -/
structure Ext2Fs where
  logBlockSize : Nat
  blocksPerGroup : Nat
  inodesPerGroup : Nat
  inodesCount : Nat
  blocksCount : Nat
  inodeSize : Nat
  log_le : logBlockSize ≤ 6
  blocksCount_lt : blocksCount < 2 ^ 32
  blocksPerGroup_pos : 0 < blocksPerGroup
  inodesPerGroup_pos : 0 < inodesPerGroup
  inodeSize_ge : INODE_BYTES ≤ inodeSize
  inodeSize_le : inodeSize ≤ 256

abbrev RawInode := Img

namespace RawInode

def mode (raw : RawInode) : Nat := le16 raw 0
def uid (raw : RawInode) : Nat := le16 raw 2
def sizeLow (raw : RawInode) : Nat := le32 raw 4
def gid (raw : RawInode) : Nat := le16 raw 24
def block (raw : RawInode) (i : Nat) : Nat := le32 raw (40 + 4 * i)

def setMode (raw : RawInode) (v : Nat) : RawInode := put16 raw 0 v
def setUid (raw : RawInode) (v : Nat) : RawInode := put16 raw 2 v
def setSizeLow (raw : RawInode) (v : Nat) : RawInode := put32 raw 4 v
def setGid (raw : RawInode) (v : Nat) : RawInode := put16 raw 24 v
def setBlock (raw : RawInode) (i v : Nat) : RawInode := put32 raw (40 + 4 * i) v

end RawInode

/-- `Some` of a block number that is not zero. -/
def nonzero (b : Nat) : Option Nat := if b = 0 then none else some b

def inodeFileType (mode : Nat) : FileType :=
  if mode &&& 0xF000 = 0x8000 then .file
  else if mode &&& 0xF000 = 0x4000 then .directory
  else .file

namespace Ext2Fs

variable (fs : Ext2Fs)

def blockSize : Nat := 1024 <<< fs.logBlockSize

def bgdtStart : Nat := if fs.blockSize = 1024 then 2 else 1

/-- Where the descriptor of a group is: a sector, and the place in it. -/
def bgdAddr (group : Nat) : Nat :=
  let offset := group * DESCRIPTOR_BYTES
  (fs.bgdtStart * fs.blockSize / SECTOR + offset / SECTOR) * SECTOR + offset % SECTOR

def readBgdt (img : Img) (group : Nat) : Option Img :=
  if SECTOR < group * DESCRIPTOR_BYTES % SECTOR + DESCRIPTOR_BYTES then none
  else some (view img (fs.bgdAddr group))

def writeBgdt (img : Img) (group : Nat) (bgd : Img) : Img :=
  patch img (fs.bgdAddr group) DESCRIPTOR_BYTES bgd

def blockBitmap (bgd : Img) : Nat := le32 bgd 0
def inodeTable (bgd : Img) : Nat := le32 bgd 8
def freeBlocksCount (bgd : Img) : Nat := le16 bgd 12

/-- Where an inode is: the group it belongs to tells the table. -/
def inodeAddr (img : Img) (inode : Nat) : Option Nat :=
  if inode = 0 ∨ fs.inodesCount < inode then none
  else
    (fs.readBgdt img ((inode - 1) / fs.inodesPerGroup)).map fun bgd =>
      let offset := (inode - 1) % fs.inodesPerGroup * fs.inodeSize
      (inodeTable bgd * fs.blockSize / SECTOR + offset / SECTOR) * SECTOR + offset % SECTOR

def readInodeRaw (img : Img) (inode : Nat) : Option RawInode := (fs.inodeAddr img inode).map (view img)

/-- The sectors around the inode are read, changed and written back. -/
def writeInodeRaw (img : Img) (inode : Nat) (raw : RawInode) : Option Img :=
  (fs.inodeAddr img inode).map fun a => patch img a INODE_BYTES raw

def blockAddr (block : Nat) : Nat := block * fs.blockSize / SECTOR * SECTOR

def readBlockData (img : Img) (block : Nat) : Img := view img (fs.blockAddr block)

def writeBlockData (img : Img) (block : Nat) (data : Img) : Img :=
  patch img (fs.blockAddr block) fs.blockSize data

def ptrsPerBlock : Nat := fs.blockSize / 4

/-- Entry `i` of a block of block numbers. -/
def entryAt (img : Img) (block i : Nat) : Option Nat :=
  if fs.blockSize < i * 4 + 4 then none else nonzero (le32 (fs.readBlockData img block) (i * 4))

def inodeReadBlock (img : Img) (raw : RawInode) (blockIdx : Nat) : Option Nat :=
  if blockIdx < 12 then nonzero (raw.block blockIdx)
  else
    let indirectIdx := blockIdx - 12
    if indirectIdx < fs.ptrsPerBlock ∧ raw.block 12 ≠ 0 then fs.entryAt img (raw.block 12) indirectIdx
    else
      -- a saturating difference: without an indirect block it is zero
      let dblIdx := indirectIdx - fs.ptrsPerBlock
      if dblIdx < fs.ptrsPerBlock * fs.ptrsPerBlock ∧ raw.block 13 ≠ 0 then
        (fs.entryAt img (raw.block 13) (dblIdx / fs.ptrsPerBlock)).bind fun l1Block =>
          fs.entryAt img l1Block (dblIdx % fs.ptrsPerBlock)
      else none

def readBlockBitmap (img : Img) (group : Nat) : Option Img :=
  (fs.readBgdt img group).map fun bgd => fs.readBlockData img (blockBitmap bgd)

def writeBlockBitmap (img : Img) (group : Nat) (bitmap : Img) : Img :=
  match fs.readBgdt img group with
  | none => img
  | some bgd => fs.writeBlockData img (blockBitmap bgd) bitmap

/-- The bits of a group that `alloc_block` looks at. -/
def groupBits (group : Nat) : List Nat :=
  let start := if group = 0 then 2 else 0
  List.range' start (min (fs.blockSize * 8) fs.blocksPerGroup - start)

/-- One round of the loop over the groups: mark the first clear bit. -/
def allocIn (img : Img) (group : Nat) : Option (Nat × Img) :=
  (fs.readBlockBitmap img group).bind fun bitmap =>
    ((fs.groupBits group).find? fun i => !testBit bitmap (i / 8) (i % 8)).map fun i =>
      let img := fs.writeBlockBitmap img group (setBit bitmap (i / 8) (i % 8))
      let img :=
        match fs.readBgdt img group with
        | none => img
        | some bgd => fs.writeBgdt img group (put16 bgd 12 (freeBlocksCount bgd - 1))
      ((group * fs.blocksPerGroup + i) % 2 ^ 32, img)

def allocBlock (img : Img) : Option (Nat × Img) :=
  (groupCount fs.blocksCount fs.blocksPerGroup).bind fun groups =>
    (List.range groups).findSome? (fs.allocIn img)

/-- The inode and the device after `inode_set_block`; `none` for the inode if it failed. -/
def inodeSetBlock (img : Img) (raw : RawInode) (blockIdx phys : Nat) : Option RawInode × Img :=
  if blockIdx < 12 then (some (raw.setBlock blockIdx phys), img)
  else if blockIdx < 12 + fs.ptrsPerBlock then
    let indirect : Option (RawInode × Img) :=
      if raw.block 12 = 0 then
        (fs.allocBlock img).map fun new =>
          (raw.setBlock 12 new.1, fs.writeBlockData new.2 new.1 fun _ => 0)
      else some (raw, img)
    match indirect with
    | none => (none, img)
    | some new =>
      let table := put32 (fs.readBlockData new.2 (new.1.block 12)) ((blockIdx - 12) * 4) phys
      (some new.1, fs.writeBlockData new.2 (new.1.block 12) table)
  else (none, img)

/-- The part of `read` that block `b` contributes to a buffer of `len` bytes. -/
def readPart (img : Img) (raw : RawInode) (offset stop len b : Nat) (done : List UInt8) :
    Option (List UInt8) :=
  (fs.inodeReadBlock img raw b).map fun phys =>
    let data := fs.readBlockData img phys
    let blockStart := b * fs.blockSize
    let copyStart := offset - blockStart
    let copyEnd := min (stop - blockStart) fs.blockSize
    let copied := min (copyEnd - copyStart) (len - done.length)
    done ++ (List.range copied).map fun i => data (copyStart + i)

def read (img : Img) (inode offset len : Nat) : Option (List UInt8) :=
  (fs.readInodeRaw img inode).bind fun raw =>
    let size := raw.sizeLow
    if size ≤ offset ∨ len = 0 then some []
    else
      let stop := min (offset + len) size
      let startBlock := offset / fs.blockSize
      let endBlock := (stop + fs.blockSize - 1) / fs.blockSize
      (List.range' startBlock (endBlock - startBlock)).foldlM
        (fun done b => fs.readPart img raw offset stop len b done) []

/-- The block that byte `pos` goes to, allocated if the file has none there yet. -/
def blockForWrite (img : Img) (raw : RawInode) (fileSize pos logical : Nat) :
    Option (RawInode × Nat) × Img :=
  match fs.inodeReadBlock img raw logical with
  | some phys => (some (raw, phys), img)
  | none =>
    if pos < fileSize then (none, img)
    else
      match fs.allocBlock img with
      | none => (none, img)
      | some new =>
        match fs.inodeSetBlock new.2 raw logical new.1 with
        | (none, img) => (none, img)
        | (some raw, img) => (some (raw, new.1), img)

/-- One round of the loop of `write`: the inode and how much is written then. -/
def writeChunk (img : Img) (raw : RawInode) (fileSize offset : Nat) (buf : List UInt8)
    (written : Nat) : Option (RawInode × Nat) × Img :=
  match checkedAdd offset written, writeLogicalBlock offset written fs.blockSize with
  | some pos, some logical =>
    let blockOff := pos % fs.blockSize
    let toCopy := min (fs.blockSize - blockOff) (buf.length - written)
    match fs.blockForWrite img raw fileSize pos logical with
    | (none, img) => (none, img)
    | (some target, img) =>
      let old : Img :=
        if pos < fileSize ∧ toCopy < fs.blockSize then fs.readBlockData img target.2
        else fun _ => 0
      let data := patch old blockOff toCopy fun i => buf.getD (written + i) 0
      (some (target.1, written + toCopy), fs.writeBlockData img target.2 data)
  | _, _ => (none, img)

/-- The loop of `write`.  Every round writes at least one byte, so that as many rounds
    as there are bytes left are enough. -/
def writeLoop (fileSize offset : Nat) (buf : List UInt8) :
    (rounds : Nat) → Img → RawInode → (written : Nat) → Option (RawInode × Nat) × Img
  | rounds, img, raw, written =>
    if written < buf.length then
      match rounds with
      | 0 => (none, img)
      | rounds + 1 =>
        match fs.writeChunk img raw fileSize offset buf written with
        | (none, img) => (none, img)
        | (some new, img) => writeLoop fileSize offset buf rounds img new.1 new.2
    else (some (raw, written), img)

def write (img : Img) (inode offset : Nat) (buf : List UInt8) : Option Nat × Img :=
  match fs.readInodeRaw img inode with
  | none => (none, img)
  | some raw =>
    if raw.sizeLow < offset then (none, img)
    else
      match fs.writeLoop raw.sizeLow offset buf buf.length img raw 0 with
      | (none, img) => (none, img)
      | (some last, img) =>
        match checkedAdd offset last.2 with
        | none => (none, img)
        | some newSize =>
          if last.1.sizeLow < newSize ∧ 2 ^ 32 ≤ newSize then (none, img)
          else
            let raw := if last.1.sizeLow < newSize then last.1.setSizeLow newSize else last.1
            match fs.writeInodeRaw img inode raw with
            | none => (none, img)
            | some img => (some last.2, img)

/-- The entries of one block of a directory, from `pos` on. -/
def blockEntries (data : Img) : (rounds : Nat) → (pos : Nat) → List DirEntry
  | 0, _ => []
  | rounds + 1, pos =>
    if fs.blockSize < pos + DIR_ENTRY_BYTES then []
    else
      let recLen := le16 data (pos + 4)
      let nameLen := (data (pos + 6)).toNat
      let name := (List.range nameLen).map fun i => data (pos + DIR_ENTRY_BYTES + i)
      let listed := le32 data pos ≠ 0 ∧ 0 < nameLen ∧ pos + DIR_ENTRY_BYTES + nameLen ≤ fs.blockSize ∧
        utf8 name = true ∧ name ≠ str "." ∧ name ≠ str ".."
      let fileType := if (data (pos + 7)).toNat = EXT2_FT_DIR then FileType.directory else .file
      if recLen = 0 then []
      else if listed then ⟨name, fileType, le32 data pos⟩ :: blockEntries data rounds (pos + recLen)
      else blockEntries data rounds (pos + recLen)

def readDir (img : Img) (inode : Nat) : List DirEntry :=
  match fs.readInodeRaw img inode with
  | none => []
  | some raw =>
    if inodeFileType raw.mode ≠ .directory then []
    else
      let blocks := List.range ((raw.sizeLow + fs.blockSize - 1) / fs.blockSize)
      -- the loop stops at the first block that is missing, and lists at most 64 entries
      let mapped := (blocks.map (fs.inodeReadBlock img raw)).takeWhile Option.isSome
      (mapped.flatMap fun phys =>
        fs.blockEntries (fs.readBlockData img (phys.getD 0)) fs.blockSize 0).take 64

def stat (img : Img) (inode : Nat) : FileStat :=
  match fs.readInodeRaw img inode with
  | some raw =>
    { size := raw.sizeLow, fileType := inodeFileType raw.mode, inode
      blocks := (raw.sizeLow + 511) / 512, uid := raw.uid, gid := raw.gid, mode := raw.mode }
  | none => { size := 0, fileType := .none, inode, blocks := 0, uid := 0, gid := 0, mode := 0 }

def updateInode (img : Img) (inode : Nat) (change : RawInode → RawInode) : Bool × Img :=
  match (fs.readInodeRaw img inode).bind fun raw => fs.writeInodeRaw img inode (change raw) with
  | none => (false, img)
  | some img => (true, img)

def chmod (img : Img) (inode mode : Nat) : Bool × Img :=
  fs.updateInode img inode fun raw => raw.setMode ((raw.mode &&& 0xF000) ||| (mode &&& 0x0FFF))

def chown (img : Img) (inode uid gid : Nat) : Bool × Img :=
  if 2 ^ 16 ≤ uid ∨ 2 ^ 16 ≤ gid then (false, img)
  else fs.updateInode img inode fun raw => (raw.setUid uid).setGid gid

/-- The file system as the VFS sees it; it makes and removes no entries. -/
def fileSystem : FileSystem Img where
  rootInode := ROOT_INODE
  read := fs.read
  write := fs.write
  readDir := fs.readDir
  stat := fs.stat
  create img _ _ _ := (none, img)
  unlink img _ _ := (false, img)
  chmod := fs.chmod
  chown := fs.chown

end Ext2Fs

end Zenus.Fs
