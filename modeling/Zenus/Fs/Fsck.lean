import Zenus.Fs.Ext2
import Zenus.Lib.Checked

/-! # The ext2 checker

`fsck` reads a device that may hold anything.  A device is given by what `bc_read` says
of each sector: its bytes, or that it cannot be read.  Every operation on 64-bit numbers
is checked as a debug build checks it, so that a run ends with a report or with a fault.
-/

namespace Zenus.Fs

open Lib.Image Lib.Word Lib.Checked

abbrev RawDisk := Nat → Option Img

inductive FsckSeverity where
  | info
  | warning
  | error
  | fatal
  deriving DecidableEq

structure FsckMessage where
  severity : FsckSeverity
  code : Nat
  msg : String
  deriving DecidableEq

def FsckSeverity.errors : FsckSeverity → Nat
  | .error | .fatal => 1
  | .info | .warning => 0

def FsckSeverity.warnings : FsckSeverity → Nat
  | .warning => 1
  | .info | .error | .fatal => 0

def MAX_MESSAGES : Nat := 48

/-- The counters stay within the messages, so that they cannot overflow. -/
structure FsckReport where
  messages : List FsckMessage := []
  errors : Nat := 0
  warnings : Nat := 0
  room : messages.length ≤ MAX_MESSAGES := by decide
  counts : errors + warnings ≤ messages.length := by decide

namespace FsckReport

/-- `add_msg` drops what does not fit. -/
def add (report : FsckReport) (severity : FsckSeverity) (code : Nat) (msg : String) : FsckReport :=
  if full : MAX_MESSAGES ≤ report.messages.length then report
  else
    { messages := report.messages ++ [⟨severity, code, msg⟩]
      errors := report.errors + severity.errors
      warnings := report.warnings + severity.warnings
      room := by
        rw [List.length_append, List.length_singleton]
        omega
      counts := by
        have before := report.counts
        have one : severity.errors + severity.warnings ≤ 1 := by cases severity <;> decide
        rw [List.length_append, List.length_singleton]
        omega }

def addIf (report : FsckReport) (cond : Prop) [Decidable cond] (severity : FsckSeverity) (code : Nat)
    (msg : String) : FsckReport :=
  if cond then report.add severity code msg else report

end FsckReport

def EXT2_VALID_FS : Nat := 1
def EXT2_ERROR_FS : Nat := 2
def EXT2_FEATURE_INCOMPAT_FILETYPE : Nat := 0x0002
def EXT2_FEATURE_INCOMPAT_EXTENTS : Nat := 0x0040
def EXT2_FEATURE_RO_COMPAT_SPARSE_SUPER : Nat := 0x0001

abbrev RawSuperblock := Img

namespace RawSuperblock

def inodesCount (sb : RawSuperblock) : Nat := le32 sb 0
def blocksCount (sb : RawSuperblock) : Nat := le32 sb 4
def freeBlocksCount (sb : RawSuperblock) : Nat := le32 sb 12
def freeInodesCount (sb : RawSuperblock) : Nat := le32 sb 16
def logBlockSize (sb : RawSuperblock) : Nat := le32 sb 24
def blocksPerGroup (sb : RawSuperblock) : Nat := le32 sb 32
def inodesPerGroup (sb : RawSuperblock) : Nat := le32 sb 40
def magic (sb : RawSuperblock) : Nat := le16 sb 56
def state (sb : RawSuperblock) : Nat := le16 sb 58
def revLevel (sb : RawSuperblock) : Nat := le32 sb 76
def inodeSizeRaw (sb : RawSuperblock) : Nat := le16 sb 88
def featureIncompat (sb : RawSuperblock) : Nat := le32 sb 96
def featureRoCompat (sb : RawSuperblock) : Nat := le32 sb 100

/-- The size of an inode; the first revision has no field for it. -/
def inodeSize (sb : RawSuperblock) : Nat := if EXT2_DYNAMIC_REV ≤ sb.revLevel then sb.inodeSizeRaw else 128

end RawSuperblock

/-- Four sectors are read; the superblock begins with the third. -/
def readRawSb (disk : RawDisk) : Option RawSuperblock :=
  (disk 0).bind fun _ => (disk 1).bind fun _ => (disk 2).bind fun bytes => (disk 3).map fun _ => bytes

/-- How many items the last group holds: saturating arithmetic. -/
def lastGroupSize (total perGroup numGroups : Nat) : Nat :=
  total - min ((numGroups - 1) * perGroup) (WORD - 1)

/-- What the loop over the groups needs. -/
structure Geometry where
  blockSize : Nat
  numGroups : Nat
  blocksCount : Nat
  blocksPerGroup : Nat
  inodesPerGroup : Nat
  inodeSize : Nat
  lastGroupBlocks : Nat
  lastGroupInodes : Nat

namespace Geometry

def ofSuperblock (sb : RawSuperblock) (blockSize numGroups : Nat) : Geometry where
  blockSize
  numGroups
  blocksCount := sb.blocksCount
  blocksPerGroup := sb.blocksPerGroup
  inodesPerGroup := sb.inodesPerGroup
  inodeSize := sb.inodeSize
  lastGroupBlocks := lastGroupSize sb.blocksCount sb.blocksPerGroup numGroups
  lastGroupInodes := lastGroupSize sb.inodesCount sb.inodesPerGroup numGroups

variable (geo : Geometry)

def bgdtStart : Nat := if geo.blockSize = 1024 then 2 else 1

def groupBlocks (isLast : Prop) [Decidable isLast] : Nat :=
  if isLast then geo.lastGroupBlocks else geo.blocksPerGroup

def groupInodes (isLast : Prop) [Decidable isLast] : Nat :=
  if isLast then geo.lastGroupInodes else geo.inodesPerGroup

end Geometry

def inodeBitmap (bgd : Img) : Nat := le32 bgd 4
def freeInodesCount (bgd : Img) : Nat := le16 bgd 14

def readBgd (disk : RawDisk) (geo : Geometry) (group : Nat) : Outcome (Option Img) := do
  let offset ← cmul group DESCRIPTOR_BYTES
  let start ← cmul geo.bgdtStart geo.blockSize
  let sector ← cadd (start / SECTOR) (offset / SECTOR)
  return (disk sector).map fun buf => view buf (offset % SECTOR)

def BITMAP_BUF : Nat := 4096

/-- The loop that reads a bitmap into its buffer; `none` if a sector cannot be read. -/
def readBitmap (disk : RawDisk) (bitmapSector : Nat) : (rounds i : Nat) → Img → Outcome (Option Img)
  | 0, _, buf => return some buf
  | rounds + 1, i, buf => do
      let off ← cmul i SECTOR
      let stop ← cadd off SECTOR
      if BITMAP_BUF < stop then return some buf
      else
        let sector ← cadd bitmapSector i
        cslice off stop BITMAP_BUF
        match disk sector with
        | none => return none
        | some bytes => readBitmap disk bitmapSector rounds (i + 1) (patch buf off SECTOR bytes)

/-- One round of the loop that counts the bits that are set. -/
def countBit (buf : Img) (setBits i : Nat) : Outcome Nat := do
  cindex (i / 8) BITMAP_BUF
  if testBit buf (i / 8) (i % 8) then cadd setBits 1 else return setBits

/-- The bitmap of a group is compared with its counter of free blocks. -/
def checkBitmap (disk : RawDisk) (geo : Geometry) (bgd : Img) (groupBlocks : Nat) (report : FsckReport) :
    Outcome FsckReport := do
  let sectors ← cdivCeil geo.blockSize SECTOR
  let start ← cmul (Ext2Fs.blockBitmap bgd) geo.blockSize
  if BITMAP_BUF < geo.blockSize then return report
  else
    match ← readBitmap disk (start / SECTOR) sectors 0 (fun _ => 0) with
    | none => return report
    | some buf =>
      let bits ← cmul geo.blockSize 8
      let setBits ← (List.range (min groupBlocks bits)).foldlM (countBit buf) 0
      let expectedUsed ← csub groupBlocks (Ext2Fs.freeBlocksCount bgd)
      return report.addIf (setBits ≠ expectedUsed) .warning 30 "Block bitmap count mismatch"

/-- What is said about the fields of a descriptor. -/
def descriptorMsgs (geo : Geometry) (bgd : Img) (groupBlocks groupInodes : Nat) (report : FsckReport) :
    FsckReport :=
  let report := report.addIf (Ext2Fs.blockBitmap bgd = 0) .error 21 "block_bitmap is zero"
  let report := report.addIf (inodeBitmap bgd = 0) .error 22 "inode_bitmap is zero"
  let report := report.addIf (Ext2Fs.inodeTable bgd = 0) .error 23 "inode_table is zero"
  let report := report.addIf (groupBlocks < Ext2Fs.freeBlocksCount bgd) .warning 24
    "free_blocks > group block count"
  let report := report.addIf (groupInodes < freeInodesCount bgd) .warning 25
    "free_inodes > group inode count"
  let report := report.addIf (geo.blocksCount ≤ Ext2Fs.blockBitmap bgd) .error 26
    "block_bitmap beyond device"
  let report := report.addIf (geo.blocksCount ≤ inodeBitmap bgd) .error 27 "inode_bitmap beyond device"
  report.addIf (geo.blocksCount ≤ Ext2Fs.inodeTable bgd) .error 28 "inode_table beyond device"

def checkGroup (disk : RawDisk) (geo : Geometry) (report : FsckReport) (g : Nat) : Outcome FsckReport := do
  match ← readBgd disk geo g with
  | none => return report.add .error 20 "Cannot read BGDT entry"
  | some bgd =>
    let last ← csub geo.numGroups 1
    let groupBlocks := geo.groupBlocks (g = last)
    let groupInodes := geo.groupInodes (g = last)
    let report := descriptorMsgs geo bgd groupBlocks groupInodes report
    let tableBytes ← cmul groupInodes geo.inodeSize
    let tableBlocks ← cdivCeil tableBytes geo.blockSize
    let tableEnd ← cadd (Ext2Fs.inodeTable bgd) tableBlocks
    let report := report.addIf (geo.blocksCount < tableEnd) .error 29 "inode_table spans beyond device"
    checkBitmap disk geo bgd groupBlocks report

/-- How many sectors hold an inode that begins `offset` bytes into the first. -/
def inodeReadSectors (offsetInSector inodeSize bufLen : Nat) : Option Nat :=
  (checkedAdd offsetInSector inodeSize).bind fun needed =>
    if bufLen < needed then none else some ((needed + 511) / 512)

def INODE_BUF : Nat := 1024

/-- The loop that reads an inode into its buffer. -/
def readInodeSectors (disk : RawDisk) (first : Nat) : (rounds i : Nat) → Img → Outcome (Option Img)
  | 0, _, buf => return some buf
  | rounds + 1, i, buf => do
      let base ← cmul i SECTOR
      let stop ← cadd base SECTOR
      let sector ← cadd first i
      cslice base stop INODE_BUF
      match disk sector with
      | none => return none
      | some bytes => readInodeSectors disk first rounds (i + 1) (patch buf base SECTOR bytes)

def readInode (disk : RawDisk) (geo : Geometry) (inodeNo : Nat) : Outcome (Option RawInode) := do
  if geo.inodesPerGroup = 0 ∨ inodeNo = 0 then return none
  else
    let before ← csub inodeNo 1
    let group ← cdiv before geo.inodesPerGroup
    let localIdx ← crem before geo.inodesPerGroup
    match ← readBgd disk geo (group % 2 ^ 32) with
    | none => return none
    | some bgd =>
      let inodeOffset ← cmul (localIdx % 2 ^ 32) geo.inodeSize
      let table ← cmul (Ext2Fs.inodeTable bgd) geo.blockSize
      let sector ← cadd (table / SECTOR) (inodeOffset / SECTOR)
      match inodeReadSectors (inodeOffset % SECTOR) geo.inodeSize INODE_BUF with
      | none => return none
      | some needed =>
        let buf ← readInodeSectors disk sector needed 0 (fun _ => 0)
        return buf.map fun buf => view buf (inodeOffset % SECTOR)

def linksCount (raw : RawInode) : Nat := le16 raw 26

def checkRoot (disk : RawDisk) (geo : Geometry) (report : FsckReport) : Outcome FsckReport := do
  match ← readInode disk geo 2 with
  | none => return report.add .error 31 "Cannot read root inode"
  | some root =>
    let report :=
      if root.mode &&& 0xF000 ≠ 0x4000 then report.add .error 32 "Root inode is not a directory"
      else report.add .info 33 "Root inode is a directory"
    let report := report.addIf (linksCount root < 2) .warning 34 "Root inode links_count < 2"
    return report.add .info 35 "fsck complete"

/-- What is said before the block size is computed. -/
def stateMsgs (sb : RawSuperblock) : FsckReport :=
  let report := FsckReport.add {} .info 3 "Superblock magic OK"
  let report :=
    if sb.state = EXT2_VALID_FS then report.add .info 4 "Filesystem was cleanly unmounted"
    else if sb.state = EXT2_ERROR_FS then report.add .error 5 "Filesystem has errors (not cleanly unmounted)"
    else report.add .warning 6 "Unknown filesystem state"
  report.addIf (sb.revLevel ≠ EXT2_GOOD_OLD_REV ∧ sb.revLevel ≠ EXT2_DYNAMIC_REV) .error 7
    "Unknown revision level"

/-- What is said about the sizes of blocks and groups. -/
def sizeMsgs (sb : RawSuperblock) : FsckReport :=
  let report := (stateMsgs sb).addIf (2 < sb.logBlockSize) .error 8 "Unsupported block size (max 4096)"
  let report := report.addIf (sb.blocksPerGroup = 0 ∨ sb.blocksPerGroup % 8 ≠ 0) .error 9
    "Invalid blocks_per_group"
  report.addIf (sb.inodesPerGroup = 0) .error 10 "inodes_per_group is zero"

/-- What is said about the counters and the features, once there are groups. -/
def featureMsgs (sb : RawSuperblock) (report : FsckReport) : FsckReport :=
  let report := report.addIf (sb.blocksCount < sb.freeBlocksCount) .error 13 "free_blocks > blocks_count"
  let report := report.addIf (sb.inodesCount < sb.freeInodesCount) .error 14 "free_inodes > inodes_count"
  let report := report.addIf (sb.inodeSize < 128) .error 15 "inode_size < 128"
  let report := report.add .info 16 "Filesystem geometry OK"
  let unsupported := sb.featureIncompat &&& (2 ^ 32 - 1 - EXT2_FEATURE_INCOMPAT_FILETYPE)
  let report :=
    if unsupported = 0 then report
    else if unsupported &&& EXT2_FEATURE_INCOMPAT_EXTENTS ≠ 0 then
      report.add .warning 18 "EXTENTS feature (ext4) not supported"
    else report.add .error 17 "Unsupported feature_incompat flags"
  let unsupportedRo := sb.featureRoCompat &&& (2 ^ 32 - 1 - EXT2_FEATURE_RO_COMPAT_SPARSE_SUPER)
  report.addIf (unsupportedRo ≠ 0) .warning 19 "Unsupported read-only compat features"

/-- `fsck` from the group counts on. -/
def checkGroups (disk : RawDisk) (sb : RawSuperblock) (blockSize inodeGroups blocksGroups : Nat) :
    Outcome FsckReport := do
  let report := (sizeMsgs sb).addIf (inodeGroups ≠ blocksGroups) .warning 11
    "Group count mismatch (inodes vs blocks)"
  let numGroups := max inodeGroups blocksGroups
  if numGroups = 0 then return report.add .error 12 "Zero groups"
  else
    let geo := Geometry.ofSuperblock sb blockSize numGroups
    let report ← (List.range numGroups).foldlM (checkGroup disk geo) (featureMsgs sb report)
    checkRoot disk geo report

def fsck (disk : RawDisk) : Outcome FsckReport :=
  match readRawSb disk with
  | none => return FsckReport.add {} .fatal 1 "Cannot read superblock"
  | some sb =>
    if sb.magic ≠ EXT2_MAGIC then return FsckReport.add {} .fatal 2 "Bad magic: not ext2"
    else do
      let blockSize ← cshl 1024 sb.logBlockSize
      match groupCount sb.inodesCount sb.inodesPerGroup with
      | none =>
        return (sizeMsgs sb).add .fatal 10 "Cannot compute group count: inodes_per_group is zero"
      | some inodeGroups =>
        match groupCount sb.blocksCount sb.blocksPerGroup with
        | none =>
          return (sizeMsgs sb).add .fatal 9 "Cannot compute block groups: blocks_per_group is zero"
        | some blocksGroups => checkGroups disk sb blockSize inodeGroups blocksGroups

end Zenus.Fs
