import Zenus.Fs.Ext2Law

/-! # Inode slots, sector by sector

`read_inode_raw` reads the one or two sectors of an inode into a buffer, and
`write_inode_raw` changes the bytes of the inode in such a buffer and writes the sectors
back.  Both do to the image what `readInodeRaw` and `writeInodeRaw` say, so that the slots
of the inodes are independent.
-/

namespace Zenus.Fs

open Lib.Image

/-- The buffer after `n` sectors have been read, one by one. -/
def readSectors (img : Img) (sector : Nat) : Nat → Img
  | 0 => fun _ => 0
  | n + 1 => patch (readSectors img sector n) (n * SECTOR) SECTOR (view img ((sector + n) * SECTOR))

/-- The image after `n` sectors of a buffer have been written. -/
def writeSectors (img : Img) (sector : Nat) (buf : Img) : Nat → Img
  | 0 => img
  | n + 1 => patch (writeSectors img sector buf n) ((sector + n) * SECTOR) SECTOR (view buf (n * SECTOR))

/-- The bytes of an inode, without what follows them. -/
def RawInode.fields (raw : RawInode) : RawInode := patch (fun _ => 0) 0 INODE_BYTES raw

variable {x n : Nat}

theorem readSectors_eq (img : Img) (sector : Nat) (inside : x < n * SECTOR) :
    readSectors img sector n x = view img (sector * SECTOR) x := by
  induction n with
  | zero => omega
  | succ n ih =>
    rw [readSectors]
    by_cases before : x < n * SECTOR
    · rw [patch_outside (.inl before), ih before]
    · rw [patch_inside (by omega) (by rwa [← Nat.succ_mul]), view, view, Nat.add_mul]
      exact congrArg img (by omega)

theorem writeSectors_eq (img : Img) (sector : Nat) (buf : Img) :
    writeSectors img sector buf n = patch img (sector * SECTOR) (n * SECTOR) buf := by
  funext x
  induction n with
  | zero => exact (patch_outside (by omega)).symm
  | succ n ih =>
    rw [writeSectors, patch, ih, Nat.add_mul, Nat.succ_mul, patch, patch, view]
    split_ifs <;> first | omega | exact congrArg buf (by omega) | rfl

theorem RawInode.fields_congr {raw raw' : RawInode} (same : ∀ x < INODE_BYTES, raw x = raw' x) :
    raw.fields = raw'.fields := by
  funext x
  unfold fields patch
  split_ifs with inside
  · exact same _ (by omega)
  · rfl

namespace Ext2Fs

section

variable (fs : Ext2Fs) (img : Img) (inode : Nat)

/-- The sectors that hold `size` bytes from a place in the first one on. -/
def neededSectors (offset size : Nat) : Nat := (offset + size + (SECTOR - 1)) / SECTOR

-- `inodeAddr` is the sector and the place in it as one address.
def readInodeSectors : Option RawInode :=
  (fs.inodeAddr img inode).map fun a =>
    let offset := a % SECTOR
    RawInode.fields (view (readSectors img (a / SECTOR) (neededSectors offset INODE_BYTES)) offset)

def writeInodeSectors (raw : RawInode) : Option Img :=
  (fs.inodeAddr img inode).map fun a =>
    let offset := a % SECTOR
    let needed := neededSectors offset (max INODE_BYTES fs.inodeSize)
    writeSectors img (a / SECTOR) (patch (readSectors img (a / SECTOR) needed) offset INODE_BYTES raw) needed

/-- The bytes of the table that an inode is in. -/
def tableStart : Nat := fs.tableOf img (fs.groupOf inode) * fs.blockSize

def tableEnd : Nat := fs.tableStart img inode + fs.inodesPerGroup * fs.inodeSize

/-- The inode tables overlap neither each other nor the group descriptors. -/
structure Separate : Prop where
  tables : ∀ i ≤ fs.inodesCount, ∀ j ≤ fs.inodesCount, fs.groupOf i ≠ fs.groupOf j →
    fs.tableEnd img i ≤ fs.tableStart img j ∨ fs.tableEnd img j ≤ fs.tableStart img i
  descriptors : ∀ i ≤ fs.inodesCount, ∀ j ≤ fs.inodesCount,
    fs.tableEnd img i ≤ fs.bgdAddr (fs.groupOf j) ∨
      fs.bgdAddr (fs.groupOf j) + DESCRIPTOR_BYTES ≤ fs.tableStart img i

end

variable {fs : Ext2Fs} {img : Img} {i j a b : Nat}

theorem le_neededSectors (offset size : Nat) : offset + size ≤ neededSectors offset size * SECTOR := by
  unfold neededSectors SECTOR
  omega

theorem readInodeSectors_eq : fs.readInodeSectors img i = (fs.readInodeRaw img i).map RawInode.fields := by
  rw [readInodeSectors, readInodeRaw, Option.map_map]
  refine Option.map_congr fun a _ => RawInode.fields_congr fun x inside => ?_
  have enough := le_neededSectors (a % SECTOR) INODE_BYTES
  have place := Nat.div_add_mod' a SECTOR
  exact (readSectors_eq img (a / SECTOR) (by omega)).trans (congrArg img (by omega))

theorem writeInodeSectors_eq (raw : RawInode) : fs.writeInodeSectors img i raw = fs.writeInodeRaw img i raw := by
  refine Option.map_congr fun a _ => ?_
  have larger := (Nat.add_le_add_left (le_max_left ..) _).trans
    (le_neededSectors (a % SECTOR) (max INODE_BYTES fs.inodeSize))
  conv_rhs => rw [← Nat.div_add_mod' a SECTOR, ← patch_patch_view larger]
  dsimp only
  rw [writeSectors_eq]
  funext x
  unfold patch
  split_ifs with outer inner
  · rfl
  · exact readSectors_eq img _ (by omega)
  · rfl

/-- The slot of an inode is in its table. -/
theorem slot_place (found : fs.inodeAddr img i = some a) :
    (0 < i ∧ i ≤ fs.inodesCount) ∧ a = fs.tableStart img i + (i - 1) % fs.inodesPerGroup * fs.inodeSize ∧
      a + INODE_BYTES ≤ fs.tableEnd img i := by
  have known : 0 < i ∧ i ≤ fs.inodesCount := by
    by_contra unknown
    rw [inodeAddr, if_pos (by omega)] at found
    cases found
  cases (fs.inodeAddr_eq img known).symm.trans found
  have below := Nat.mul_le_mul_right fs.inodeSize (Nat.mod_lt (i - 1) fs.inodesPerGroup_pos)
  have large := fs.inodeSize_ge
  rw [Nat.succ_mul] at below
  exact ⟨known, rfl, by unfold tableEnd tableStart; omega⟩

theorem Separate.slots_apart (separate : fs.Separate img) (apart : i ≠ j) (here : fs.inodeAddr img i = some a)
    (there : fs.inodeAddr img j = some b) : a + INODE_BYTES ≤ b ∨ b + INODE_BYTES ≤ a := by
  obtain ⟨known, rfl, inside⟩ := slot_place here
  obtain ⟨known', rfl, inside'⟩ := slot_place there
  by_cases group : fs.groupOf i = fs.groupOf j
  · have locals : (i - 1) % fs.inodesPerGroup ≠ (j - 1) % fs.inodesPerGroup := by
      intro same
      have first := Nat.div_add_mod (i - 1) fs.inodesPerGroup
      rw [same, ← groupOf, group, groupOf, Nat.div_add_mod] at first
      omega
    have slots := (Nat.lt_or_gt_of_ne locals).imp (Nat.mul_le_mul_right fs.inodeSize)
      (Nat.mul_le_mul_right fs.inodeSize)
    have large := fs.inodeSize_ge
    rw [Nat.succ_mul, Nat.succ_mul] at slots
    simp only [tableStart, group]
    omega
  · have tables := separate.tables i known.2 j known'.2 group
    omega

/-- To write an inode changes that inode, and no other one. -/
theorem inode_slots_independent {raw : RawInode} {img' : Img} (separate : fs.Separate img) (apart : i ≠ j)
    (written : fs.writeInodeSectors img i raw = some img') :
    fs.readInodeSectors img' i = some raw.fields ∧
      fs.readInodeSectors img' j = fs.readInodeSectors img j := by
  rw [writeInodeSectors_eq] at written
  obtain ⟨a, here, rfl⟩ := Option.map_eq_some_iff.mp written
  obtain ⟨known, place, inside⟩ := slot_place here
  -- no descriptor is in the slot
  have tables : ∀ n, fs.inodeAddr (patch img a INODE_BYTES raw) n = fs.inodeAddr img n := by
    intro n
    by_cases known' : 0 < n ∧ n ≤ fs.inodesCount
    · have away := separate.descriptors i known.2 n known'.2
      rw [DESCRIPTOR_BYTES] at away
      have same : fs.tableOf (patch img a INODE_BYTES raw) (fs.groupOf n) = fs.tableOf img (fs.groupOf n) :=
        le32_patch fun k below => by omega
      rw [fs.inodeAddr_eq _ known', fs.inodeAddr_eq _ known', same]
    · rw [inodeAddr, inodeAddr, if_pos (by omega), if_pos (by omega)]
  simp only [readInodeSectors_eq, readInodeRaw, tables, here, Option.map_some, Option.map_map]
  refine ⟨congrArg some (RawInode.fields_congr fun x inside => patch_add inside), ?_⟩
  refine Option.map_congr fun b there => RawInode.fields_congr fun x inside => patch_outside ?_
  have slots := separate.slots_apart apart here there
  omega

theorem inode_slots_independent_small :
    ∃ img', smallFs.writeInodeSectors smallImg 3 (fun _ => 7) = some img' ∧
      smallFs.readInodeSectors img' 3 = some (RawInode.fields fun _ => 7) ∧
      smallFs.readInodeSectors img' 4 = smallFs.readInodeSectors smallImg 4 := by
  obtain ⟨img', written⟩ := Option.isSome_iff_exists.mp
    (show (smallFs.writeInodeSectors smallImg 3 fun _ => 7).isSome = true by decide +kernel)
  exact ⟨img', written, inode_slots_independent ⟨by decide +kernel, by decide +kernel⟩ (by decide) written⟩

end Ext2Fs

end Zenus.Fs
